/-
Callbacks that trigger each other. However they do, a slot is empty while its callbacks run, so callbacks that
register nothing and start no runs can nest only as deep as there are slots with callbacks. So every access and
every step comes to an end.

Serving an event is by induction on the number of slots with callbacks, which is smaller while a slot runs; for
the callbacks within it, what counts is that they keep what waits among what waited before (`Registry.Within`).
For the depth, each moment keeps the nesting of the slots that run (`Moment.Nests`).
-/
import Micro8051.Proofs.Bench.Only
import Micro8051.Proofs.Moment.Outcome
import Micro8051.Proofs.Moment.Registry
import Micro8051.Proofs.Observers.Transparency
import Micro8051.Proofs.Registry.Nesting

namespace Micro8051

variable {κ σ α : Type} {env : Environment κ σ} {b b' : Bench κ σ} {o : Occasion} {g g₀ : Registry (Callback κ)}

/-! ## Confined scripts -/

namespace Script

/-- A script that registers no callback and starts no run. -/
def Confined (s : Script κ σ α) : Prop := s.Only (fun a => ∀ t c, a ≠ .register t c) fun c => ∀ m, c ≠ .loop m

theorem confined_suffices : Suffices (fun a : Act κ σ => ∀ t c, a ≠ .register t c) fun c => ∀ m, c ≠ .loop m where
  serve _ _ h := by cases h
  report _ _ _ h := by cases h
  setData _ _ _ _ h := by cases h
  setXdata _ _ _ _ h := by cases h
  jump _ _ _ h := by cases h

theorem read_confined (addr : UInt8) : (read addr : Script κ σ UInt8).Confined := confined_suffices.read addr

theorem write_confined (addr v : UInt8) : (write addr v : Script κ σ Unit).Confined := confined_suffices.write addr v

theorem step_confined : (step : Script κ σ (Except Fault Unit)).Confined :=
  confined_suffices.step fun _ _ h => by cases h

end Script

/-- All that can be asked of a machine but runs is confined. -/
theorem Operation.confined {op : Operation κ} (h : ∀ r, op ≠ .run r) : (op.script : Script κ σ Reply).Confined := by
  cases op with
  | step => exact Script.step_confined.map _
  | read addr => exact (Script.read_confined addr).map _
  | write addr v => exact (Script.write_confined addr v).map _
  | run r => exact absurd rfl (h r)

/-- The callbacks that wait are confined. -/
def Registry.Confined (env : Environment κ σ) (g : Registry (Callback κ)) : Prop :=
  ∀ o, ∀ c ∈ g.callbacks o.slot, (c.respond env o).Confined

theorem Registry.Confined.of_waiting {g' : Registry (Callback κ)} (h : g.Confined env) (hw : g'.waiting ⊆ g.waiting) :
    g'.Confined env :=
  fun o c hc => h o c (mem_callbacks.2 (hw (mem_callbacks.1 hc)))

/-- Tracing a latch is confined, so it is enough that the callbacks of the caller are. -/
theorem Registry.Confined.of_custom (h : ∀ o c, .custom c ∈ g.callbacks o.slot → (env.respond c o).Confined) :
    g.Confined env := by
  intro o c hc
  cases c with
  | custom c => exact h o c hc
  | latch r => exact Script.confined_suffices.latch env r o

/-! ## Every event is served -/

theorem within_apply {a : Act κ σ} (ha : ∀ t c, a ≠ .register t c) (h : g.Within b.machine.registry) :
    g.Within (a.apply b).machine.registry := by
  cases a with
  | register t c => exact absurd rfl (ha t c)
  | clearHooks => exact h.clearHooks
  | clearBreakpoints => exact h.clearBreakpoints
  | _ => exact h

/-- On benches that hold nothing beyond `g`, events are served, and nothing is registered meanwhile. -/
def Serving (env : Environment κ σ) (g : Registry (Callback κ)) : Prop :=
  ∀ b : Bench κ σ, g.Within b.machine.registry →
    ∀ o, ∃ b', (Script.serve o).Yields env b () b' ∧ b.machine.registry.Within b'.machine.registry

theorem Serving.exists_yields (hg : Serving env g) {s : Script κ σ α} (hs : s.Confined)
    (hb : g.Within b.machine.registry) : ∃ a b', s.Yields env b a b' ∧ g.Within b'.machine.registry := by
  refine hs.exists_yields (I := fun b => g.Within b.machine.registry) (fun a ha b => within_apply ha) ?_ hb
  intro c hc b hb
  cases c with
  | serve o =>
    obtain ⟨b', hy, hb'⟩ := hg b hb o
    exact ⟨(), b', hy, hb.trans hb'⟩
  | loop m => exact absurd rfl (hc m)

theorem Serving.exists_told (hg : Serving env g) {cs : List (Callback κ)} (hcs : ∀ c ∈ cs, (c.respond env o).Confined)
    (hb : g.Within b.machine.registry) : ∃ b', Told env o cs b b' ∧ g.Within b'.machine.registry := by
  induction cs generalizing b with
  | nil => exact ⟨b, told_nil.2 rfl, hb⟩
  | cons c rest ih =>
    obtain ⟨hc, hrest⟩ := List.forall_mem_cons.1 hcs
    obtain ⟨_, b₁, hy, hb₁⟩ := hg.exists_yields hc hb
    obtain ⟨b', ht, hb'⟩ := ih hrest hb₁
    exact ⟨b', told_cons.2 ⟨b₁, hy, ht⟩, hb'⟩

theorem serving_of_card {n : Nat} (hn : g.slots.card ≤ n) (hg : g.Confined env) : Serving env g := by
  -- a slot that runs is empty, so fewer slots are left for the callbacks inside it
  induction n generalizing g with
  | zero =>
    intro b hb o
    have hslot : b.machine.registry.callbacks o.slot = [] := by
      by_contra hne
      have hmem := Registry.slots_subset hb.waiting (Registry.mem_slots.2 hne)
      rw [Finset.card_eq_zero.1 (Nat.le_zero.1 hn)] at hmem
      exact absurd hmem (Finset.notMem_empty _)
    exact ⟨b, Script.yields_serve_of_nil hslot, .refl _⟩
  | succ n ih =>
    intro b hb o
    rcases eq_or_ne (b.machine.registry.callbacks o.slot) [] with hslot | hslot
    · exact ⟨b, Script.yields_serve_of_nil hslot, .refl _⟩
    · have hconfined : b.machine.registry.Confined env := hg.of_waiting hb.waiting
      have hcard : (b.machine.registry.enter o.slot).slots.card ≤ n := by
        have hlt := Registry.card_slots_enter hslot
        have hle := Finset.card_le_card (Registry.slots_subset hb.waiting)
        omega
      have hinside : Serving env (b.machine.registry.enter o.slot) :=
        ih hcard (hconfined.of_waiting (Registry.waiting_enter _ _))
      obtain ⟨b₁, ht, hb₁⟩ := hinside.exists_told (hconfined o)
        (b := { b with machine := b.machine.onRegistry fun g => g.enter o.slot }) (.refl _)
      exact ⟨_, Script.yields_serve_of_told hslot ht, hb₁.leave⟩

/-- Confined scripts come to an end. -/
theorem Script.Confined.exists_yields {s : Script κ σ α} (hs : s.Confined) (hb : b.machine.registry.Confined env) :
    ∃ a b', s.Yields env b a b' ∧ b.machine.registry.Within b'.machine.registry :=
  (serving_of_card le_rfl hb).exists_yields hs (.refl _)

/-! ## Nesting from moment to moment -/

/-- Only events are served on the stack, and all that goes on is confined. -/
def Stack.Confined (env : Environment κ σ) : {r : Role} → Stack κ σ α r → Prop
  | _, .base => True
  | _, .telling o rest next below => (∀ c ∈ rest, (c.respond env o).Confined) ∧ next.Confined ∧ below.Confined env
  | _, .checking .. => False
  | _, .stepping .. => False

namespace Moment

variable {M : Moment κ σ α}

theorem change_ne_add (h : M.script.Confined) (t : Slot) (c : Callback κ) : M.change ≠ .add t c := by
  obtain ⟨r, s, stack, b⟩ := M
  cases s with
  | done x =>
    cases stack with
    | telling o cs next below => cases cs <;> · intro he; cases he
    | _ => intro he; cases he
  | look next => intro he; cases he
  | act a next =>
    cases a with
    | register t' c' => exact absurd rfl (h.1 t' c')
    | _ => intro he; cases he
  | call d next =>
    cases d with
    | loop m => intro he; cases he
    | serve o =>
      unfold Moment.change
      cases hc : b.machine.registry.callbacks o.slot <;> simp only [hc] <;> · intro he; cases he

theorem callbacks_of_enter {t : Slot} (h : M.change = .enter t) : M.registry.callbacks t ≠ [] := by
  obtain ⟨r, s, stack, b⟩ := M
  cases s with
  | done x =>
    cases stack with
    | telling o cs next below => cases cs <;> cases h
    | _ => cases h
  | look next => cases h
  | act a next => cases a <;> cases h
  | call d next =>
    cases d with
    | loop m => cases h
    | serve o =>
      unfold Moment.change at h
      cases hc : b.machine.registry.callbacks o.slot with
      | nil => simp only [hc] at h; cases h
      | cons c rest =>
        simp only [hc] at h
        cases h
        rw [Moment.registry, hc]
        exact List.cons_ne_nil c rest

/-- What is told of an event is confined, and so is what goes on after it. -/
theorem confined_tell {r : Role} {cs : List (Callback κ)} {next : Script κ σ (r.Result α)} {below : Stack κ σ α r}
    (hcs : ∀ c ∈ cs, (c.respond env o).Confined) (hnext : next.Confined) (hbelow : below.Confined env) :
    (Moment.tell env o cs next below b).script.Confined ∧ (Moment.tell env o cs next below b).stack.Confined env := by
  cases cs with
  | nil => exact ⟨hnext, hbelow⟩
  | cons c rest =>
    obtain ⟨hc, hrest⟩ := List.forall_mem_cons.1 hcs
    exact ⟨hc, hrest, hnext, hbelow⟩

end Moment

/-- A moment of a confined script that began on a machine with the registry `g₀`. -/
structure Moment.Nests (env : Environment κ σ) (g₀ : Registry (Callback κ)) (M : Moment κ σ α) : Prop where
  script : M.script.Confined
  stack : M.stack.Confined env
  matched : M.Matched
  registry : g₀.Nested M.registry

namespace Moment.Nests

variable {M M' : Moment κ σ α}

theorem start {s : Script κ σ α} (hs : s.Confined) (hb : b.machine.registry.running = []) :
    (Moment.start s b).Nests env b.machine.registry :=
  ⟨hs, trivial, matched_start hb, .of_idle hb⟩

theorem confined_advance (hg₀ : g₀.Confined env) (h : M.Nests env g₀) (hM : M.advance env = some M') :
    M'.script.Confined ∧ M'.stack.Confined env := by
  obtain ⟨r, s, stack, b⟩ := M
  obtain ⟨hs, hstack, -, hnested⟩ := h
  cases s with
  | done x =>
    cases stack with
    | base => cases hM
    | telling o cs next below =>
      cases hM
      obtain ⟨hcs, hnext, hbelow⟩ := hstack
      exact confined_tell hcs hnext hbelow
    | checking g next below => cases hstack
    | stepping m next below => cases hstack
  | look next =>
    cases hM
    exact ⟨hs b.machine b.world, hstack⟩
  | act a next =>
    cases hM
    exact ⟨hs.2, hstack⟩
  | call d next =>
    cases d with
    | loop m => exact absurd rfl (hs.1 m)
    | serve o =>
      cases hM
      rcases eq_or_ne (b.machine.registry.callbacks o.slot) [] with hc | hc
      · rw [serve_of_nil hc]
        exact ⟨hs.2 (), hstack⟩
      · rw [serve_of_ne_nil hc]
        exact confined_tell (hg₀.of_waiting hnested.waiting o) (hs.2 ()) hstack

theorem advance (hg₀ : g₀.Confined env) (h : M.Nests env g₀) (hM : M.advance env = some M') : M'.Nests env g₀ := by
  obtain ⟨hscript, hstack⟩ := h.confined_advance hg₀ hM
  refine ⟨hscript, hstack, h.matched.advance hM, ?_⟩
  rw [registry_advance hM]
  exact h.registry.changed (change_ne_add h.script) fun t => callbacks_of_enter

theorem reaches (hg₀ : g₀.Confined env) (h : M.Nests env g₀) (hM : M.Reaches env M') : M'.Nests env g₀ := by
  induction hM with
  | refl => exact h
  | tail _ hM ih => exact ih.advance hg₀ hM

theorem nodup_serving (h : M.Nests env g₀) : (M.stack.serving.map Occasion.slot).Nodup := by
  rw [← h.matched.slots_eq]
  exact h.registry.distinct

theorem length_serving_le (h : M.Nests env g₀) : M.stack.serving.length ≤ g₀.slots.card := by
  have hlength := congrArg List.length h.matched.slots_eq
  rw [List.length_map, List.length_map] at hlength
  rw [← hlength]
  exact h.registry.length_running_le

end Moment.Nests

/-- When a callback begins to run, its event is served innermost. -/
theorem serving_of_told (env : Environment κ σ) {M : Moment κ σ α} {c : Callback κ} (h : M.told? = some (o, c)) :
    ∃ M' outer, M.advance env = some M' ∧ M'.stack.serving = o :: outer := by
  obtain ⟨r, s, stack, b⟩ := M
  cases s with
  | look next => cases h
  | act a next => cases h
  | call d next =>
    cases d with
    | loop m => cases h
    | serve o' =>
      refine ⟨_, stack.serving, rfl, ?_⟩
      unfold Moment.told? at h
      unfold Moment.serve
      cases hc : b.machine.registry.callbacks o'.slot with
      | nil => simp only [hc] at h; cases h
      | cons c' rest =>
        simp only [hc] at h
        cases h
        rfl
  | done x =>
    cases stack with
    | base => cases h
    | checking g next below => cases h
    | stepping m next below => cases h
    | telling o' cs next below =>
      cases cs with
      | nil => cases h
      | cons c' rest =>
        cases h
        exact ⟨_, below.serving, rfl, rfl⟩

/-! ## Accesses and steps -/

/-- Take a machine whose callbacks register nothing and start no runs, but may access memory, step and change
the machine as they like. Each read, write and step of it comes to an end. If no callback runs at first, then
at each moment the events in progress belong to different slots, and there are no more of them than slots that
had callbacks at first. So when a callback begins to run, no event further out on the stack belongs to its
slot: neither the callback itself nor another one of its slot is running. -/
theorem callbacks_nest_finitely (env : Environment κ σ) (b : Bench κ σ)
    (hconfined : ∀ o c, .custom c ∈ b.machine.registry.callbacks o.slot → (env.respond c o).Confined)
    (op : Operation κ) (hop : ∀ r, op ≠ .run r) :
    (∃ x b', op.script.Yields env b x b') ∧
    (b.machine.registry.running = [] → ∀ M, (Moment.start op.script b).Reaches env M →
      (M.stack.serving.map Occasion.slot).Nodup ∧
      M.stack.serving.length ≤ b.machine.registry.slots.card ∧
      ∀ o c, M.told? = some (o, c) → ∃ M' outer, M.advance env = some M' ∧ M'.stack.serving = o :: outer ∧
        o.slot ∉ outer.map Occasion.slot) := by
  have hb : b.machine.registry.Confined env := .of_custom hconfined
  have hscript : (op.script : Script κ σ Reply).Confined := Operation.confined hop
  refine ⟨?_, fun hidle M hM => ?_⟩
  · obtain ⟨x, b', hy, -⟩ := hscript.exists_yields hb
    exact ⟨x, b', hy⟩
  · have hnests : M.Nests env b.machine.registry := (Moment.Nests.start hscript hidle).reaches hb hM
    refine ⟨hnests.nodup_serving, hnests.length_serving_le, fun o c ht => ?_⟩
    obtain ⟨M', outer, hM', houter⟩ := serving_of_told env ht
    have hslots := (hnests.advance hb hM').nodup_serving
    rw [houter] at hslots
    exact ⟨M', outer, hM', houter, (List.nodup_cons.1 hslots).1⟩

/-- Callbacks in a circle: what one of them does is watched by the others. -/
def circling : Environment Nat Unit where
  respond
    | 0, _ => do
      Script.write 0x31 1
      Script.write 0x30 2
    | 1, _ => do
      Script.write 0x30 3
      let _ ← Script.step
    | _, _ => do
      let v ← Script.read 0x30
      Script.write 0x31 v
  holds _ := return true

theorem circling_confined (c : Nat) (o : Occasion) : (circling.respond c o).Confined := by
  match c with
  | 0 => exact Script.Only.bind (Script.write_confined _ _) fun _ => Script.write_confined _ _
  | 1 => exact Script.Only.bind (Script.write_confined _ _) fun _ => Script.step_confined.bind fun _ => .pure _
  | _ + 2 => exact Script.Only.bind (Script.read_confined _) fun _ => Script.write_confined _ _

/-- A machine on which callbacks wait in a circle of four slots. -/
def circlingBench : Bench Nat Unit where
  machine := { chip := (Chip.new Pacer.period1MHz {}).load #[0x00]
               registry := { waiting := [(.write 0x30, .custom 0), (.write 0x31, .custom 1), (.visit 0, .custom 2),
                 (.read 0x30, .custom 3)] } }
  world := ()

/-- The moments of a write to the first cell of the circle. -/
def circled (k : Nat) : Moment Nat Unit Reply :=
  (Moment.start (Operation.write 0x30 5).script circlingBench).after circling k

theorem circled_advance : ∀ k < 14, (circled k).advance circling = some (circled (k + 1)) := by
  have hsome : ∀ k < 14, ((circled k).advance circling).isSome := by decide +kernel
  exact fun k hk => Moment.advance_after circling (hsome k hk)

/-- The write comes to an end. On its way all four slots run at once, so the bound is met. -/
theorem circle_ends : (∃ x b', (Operation.write 0x30 5).script.Yields circling circlingBench x b') ∧
    circlingBench.machine.registry.slots.card = 4 ∧ (circled 14).stack.serving.length = 4 ∧
    ((circled 14).stack.serving.map Occasion.slot).Nodup := by
  obtain ⟨hends, hnests⟩ := callbacks_nest_finitely circling circlingBench (fun o c _ => circling_confined c o)
    (.write 0x30 5) (fun r h => by cases h)
  have hdeep : (circled 14).stack.serving.length = 4 := by decide +kernel
  obtain ⟨hnodup, -, -⟩ := hnests rfl (circled 14) (reaches_of_moments circled_advance 14 le_rfl)
  exact ⟨hends, by decide +kernel, hdeep, hnodup⟩

end Micro8051
