/-
What the hooks of an access are told. Whatever they do, an access runs the hooks that its slot has when it
begins, one after the other, and an access to the same cell in the midst of them finds only what was registered
since (`RunsHooks`).

An access serves a single event, and each moment of it comes before the event is served, inside one of the
callbacks, or after all of them (`Moment.Serves`). Inside, the slot holds what has been registered since.
-/
import Micro8051.Proofs.Bench.Accesses
import Micro8051.Proofs.Moment.Inside
import Micro8051.Proofs.Moment.Returning

namespace Micro8051

variable {κ σ α : Type} {env : Environment κ σ} {o : Occasion} {n : Nat}

/-! ## Callbacks told by a script itself -/

/-- The callback that begins to run as `M'` comes after `M`, with its event, if nothing else is served then. -/
def Moment.own (M M' : Moment κ σ α) : List (Occasion × Callback κ) :=
  if M'.stack.serving.length = 1 then M.told?.toList else []

/-- The callbacks that a script itself has told of an event in its first moments: nothing else was served at the
time. -/
def toldItself (M : Nat → Moment κ σ α) : Nat → List (Occasion × Callback κ)
  | 0 => []
  | k + 1 => toldItself M k ++ (M k).own (M (k + 1))

/-- The callbacks `cs` are told of the event `o` by a script itself, each once and in order. What others run in the
slot meanwhile was registered since. -/
structure RunsHooks (M : Nat → Moment κ σ α) (n : Nat) (o : Occasion) (cs : List (Callback κ)) : Prop where
  order : ∀ k ≤ n, toldItself M k <+: cs.map fun c => (o, c)
  all : ∀ k ≤ n, ∀ x b', M k = ⟨.whole, .done x, .base, b'⟩ → toldItself M k = cs.map fun c => (o, c)
  waiting : ∀ k ≤ n, (M k).stack.serving ≠ [] →
    ((M k).registry.callbacks o.slot).Sublist (registered M o.slot k)
  nested : ∀ k < n, ∀ o' c, (M k).told? = some (o', c) → o'.slot = o.slot →
    (M (k + 1)).stack.serving.length ≠ 1 → c ∈ registered M o.slot k

/-! ## From moment to moment -/

/-- The script changes the chip, if anything, and makes no calls. -/
def Script.Quiet (s : Script κ σ α) : Prop := s.Only (fun a => ∃ f, a = .edit f) fun _ => False

/-- The script at hand serves the event `o` once, for the callbacks `cs`; of those, `done` have been told. The
registry is what goes on inside the callbacks comes to, empty when nothing does. -/
inductive Moment.Serves (o : Occasion) (cs : List (Callback κ)) :
    (done : List (Occasion × Callback κ)) → Registry (Callback κ) → Moment κ σ α → Prop
  | opening {look : Machine κ → σ → Script κ σ α} {next : Unit → Script κ σ α} {b : Bench κ σ}
      (hlook : look b.machine b.world = .call (.serve o) next) (hcs : b.machine.registry.callbacks o.slot = cs)
      (hnext : (next ()).Quiet) : Serves o cs [] {} ⟨.whole, .look look, .base, b⟩
  | before {next : Unit → Script κ σ α} {b : Bench κ σ} (hcs : b.machine.registry.callbacks o.slot = cs)
      (hnext : (next ()).Quiet) : Serves o cs [] {} ⟨.whole, .call (.serve o) next, .base, b⟩
  | inside {done : List (Occasion × Callback κ)} {rest : List (Callback κ)} {next : Script κ σ α}
      {g : Registry (Callback κ)} {outer : List (Slot × List (Callback κ))} {M : Moment κ σ α}
      (hcs : done ++ rest.map (fun c => (o, c)) = cs.map fun c => (o, c))
      (h : M.Inside (.telling (r := .whole) o rest next .base) g outer) (hnext : next.Quiet) : Serves o cs done g M
  | after {s : Script κ σ α} {b : Bench κ σ} (hs : s.Quiet) :
      Serves o cs (cs.map fun c => (o, c)) {} ⟨.whole, s, .base, b⟩

namespace Moment

theorem own_of_ne {M M' : Moment κ σ α} (h : M'.stack.serving.length ≠ 1) : M.own M' = [] := if_neg h

@[simp] theorem own_base (M : Moment κ σ α) (s : Script κ σ α) (b : Bench κ σ) : M.own ⟨.whole, s, .base, b⟩ = [] :=
  own_of_ne Nat.zero_ne_one

theorem own_of_none {M M' : Moment κ σ α} (h : M.told? = none) : M.own M' = [] := by
  unfold own
  rw [h]
  exact ite_self _

theorem own_of_told {M M' : Moment κ σ α} {c : Callback κ} (h : M.told? = some (o, c))
    (hserving : M'.stack.serving.length = 1) : M.own M' = [(o, c)] := by
  unfold own
  rw [h, if_pos hserving]
  rfl

end Moment

namespace Moment.Serves

variable {cs : List (Callback κ)} {done : List (Occasion × Callback κ)} {g : Registry (Callback κ)}
  {M M' : Moment κ σ α}

theorem isPrefix (h : M.Serves o cs done g) : done <+: cs.map fun c => (o, c) := by
  cases h with
  | opening _ _ _ => exact List.nil_prefix
  | before _ _ => exact List.nil_prefix
  | inside hcs _ _ => exact ⟨_, hcs⟩
  | after _ => exact List.prefix_refl _

theorem all {x : α} {b' : Bench κ σ} (h : (⟨.whole, .done x, .base, b'⟩ : Moment κ σ α).Serves o cs done g) :
    done = cs.map fun c => (o, c) := by
  cases h with
  | inside _ h _ => exact absurd h.length_serving (by simp [Stack.serving])
  | after _ => rfl

theorem callbacks_sublist (h : M.Serves o cs done g) (hserving : M.stack.serving ≠ []) (t : Slot) :
    (M.registry.callbacks t).Sublist (g.held t) := by
  cases h with
  | opening _ _ _ => exact absurd rfl hserving
  | before _ _ => exact absurd rfl hserving
  | after _ => exact absurd rfl hserving
  | inside _ h _ =>
    rw [h.registry, Registry.callbacks_onto]
    exact List.sublist_append_right _ _

/-- After a callback of its own the script tells the next one, or it goes on after the last. -/
theorem own_advance {rest : List (Callback κ)} {next : Script κ σ α} {outer : List (Slot × List (Callback κ))}
    {x : Unit} {b : Bench κ σ} (hcs : done ++ rest.map (fun c => (o, c)) = cs.map fun c => (o, c))
    (hM : M = ⟨.callback, .done x, .telling (r := .whole) o rest next .base, b⟩)
    (h : M.Inside (.telling (r := .whole) o rest next .base) g outer) (hrun : g.running = []) (hnext : next.Quiet)
    (hM' : M.advance env = some M') :
    ∃ g', M'.Serves o cs (done ++ M.own M') g' ∧ (g'.held o.slot).Sublist (g.held o.slot) := by
  subst hM
  cases rest with
  | nil =>
    cases hM'
    obtain rfl : done = cs.map fun c => (o, c) := by simpa using hcs
    refine ⟨{}, ?_, List.nil_sublist _⟩
    rw [Moment.tell, own_base, List.append_nil]
    exact .after hnext
  | cons c rest =>
    cases hM'
    have hinside : (tell (r := .whole) env o (c :: rest) next .base b).Inside
        (.telling (r := .whole) o rest next .base) g outer := by
      refine ⟨?_, h.registry⟩
      rw [hrun]
      exact .refl
    refine ⟨g, .inside ?_ hinside hnext, List.Sublist.refl _⟩
    rw [List.append_assoc]
    exact hcs

/-- The event is served: its callbacks are taken out and the first one is told, unless there is none. -/
theorem before_advance {next : Unit → Script κ σ α} {b : Bench κ σ} (hcs : b.machine.registry.callbacks o.slot = cs)
    (hnext : (next ()).Quiet) (hM : (⟨.whole, .call (.serve o) next, .base, b⟩ : Moment κ σ α).advance env = some M') :
    ∃ g', M'.Serves o cs ((⟨.whole, .call (.serve o) next, .base, b⟩ : Moment κ σ α).own M') g' ∧
      g'.held o.slot = [] := by
  obtain rfl : Moment.serve (r := .whole) env o (next ()) .base b = M' := Option.some.inj hM
  cases cs with
  | nil =>
    refine ⟨{}, ?_, rfl⟩
    rw [serve_of_nil hcs, own_base]
    exact .after hnext
  | cons c rest =>
    have htold : (⟨.whole, .call (.serve o) next, .base, b⟩ : Moment κ σ α).told? = some (o, c) := by
      simp only [told?, hcs]
    refine ⟨⟨(b.machine.registry.enter o.slot).waiting, []⟩, ?_, ?_⟩
    · rw [serve_of_ne_nil (by simp [hcs]), hcs, own_of_told htold rfl]
      exact .inside rfl ⟨.refl, rfl⟩ hnext
    · exact (Registry.callbacks_enter b.machine.registry o.slot o.slot).trans (if_pos rfl)

/-- What the script has told itself after the next moment, and what is held for the slot inside. -/
theorem advance (h : M.Serves o cs done g) (hM : M.advance env = some M') :
    ∃ g', M'.Serves o cs (done ++ M.own M') g' ∧
      (g'.held o.slot).Sublist (g.held o.slot ++ M.change.added o.slot) := by
  cases h with
  | @opening look next b hlook hcs hnext =>
    cases hM
    refine ⟨{}, ?_, List.nil_sublist _⟩
    rw [own_base, hlook]
    exact .before hcs hnext
  | @before next b hcs hnext =>
    obtain ⟨g', hserves, hheld⟩ := before_advance hcs hnext hM
    exact ⟨g', hserves, hheld ▸ List.nil_sublist _⟩
  | @inside _ rest next _ outer _ hcs h hnext =>
    by_cases hend : ∃ x b, M = ⟨.callback, .done x, .telling (r := .whole) o rest next .base, b⟩ ∧ g.running = []
    · obtain ⟨x, b, hx, hrun⟩ := hend
      obtain ⟨g', hserves, hsub⟩ := own_advance hcs hx h hrun hnext hM
      exact ⟨g', hserves, hsub.trans (List.sublist_append_left _ _)⟩
    · refine ⟨g.changed M.change, ?_, Registry.held_changed_sublist g M.change o.slot⟩
      have hown : M.own M' = [] := by
        cases ht : M.told? with
        | none => exact own_of_none ht
        | some e => exact own_of_ne (Nat.ne_of_gt ((h.told hM ht).resolve_right hend).2)
      rw [hown, List.append_nil]
      exact .inside hcs ((h.advance hM).resolve_right hend) hnext
  | @after s b hs =>
    refine ⟨{}, ?_, List.nil_sublist _⟩
    cases s with
    | done x => cases hM
    | look next =>
      cases hM
      rw [own_base, List.append_nil]
      exact .after (hs _ _)
    | act a next =>
      cases hM
      rw [own_base, List.append_nil]
      exact .after hs.2
    | call c next => exact hs.1.elim

/-- A callback that is told, but not by the script itself, is one that its slot holds inside. -/
theorem mem_held (h : M.Serves o cs done g) (hM : M.advance env = some M') {o' : Occasion} {c : Callback κ}
    (ht : M.told? = some (o', c)) (hown : M'.stack.serving.length ≠ 1) : c ∈ g.held o'.slot := by
  cases h with
  | opening hlook hcs hnext => cases ht
  | @before next b hcs hnext =>
    obtain rfl : Moment.serve (r := .whole) env o (next ()) .base b = M' := Option.some.inj hM
    cases cs with
    | nil => simp [told?, hcs] at ht
    | cons c' rest =>
      rw [serve_of_ne_nil (by simp [hcs]), hcs] at hown
      exact absurd rfl hown
  | @inside _ rest next _ outer _ hcs h hnext =>
    rcases h.told hM ht with ⟨hc, -⟩ | ⟨x, b, rfl, -⟩
    · exact hc
    · cases rest with
      | nil => cases ht
      | cons c' rest =>
        cases hM
        exact absurd rfl hown
  | @after s b hs =>
    cases s with
    | done x => cases hM
    | look next => cases ht
    | act a next => cases ht
    | call c next => exact hs.1.elim

end Moment.Serves

/-! ## Scripts that serve an event -/

section Sequence

variable {M : Nat → Moment κ σ α} {cs : List (Callback κ)}

theorem serves_of_moments (h0 : (M 0).Serves o cs [] {}) (hrun : ∀ k < n, (M k).advance env = some (M (k + 1))) :
    ∀ k ≤ n, ∃ g, (M k).Serves o cs (toldItself M k) g ∧ (g.held o.slot).Sublist (registered M o.slot k)
  | 0, _ => ⟨{}, h0, List.nil_sublist _⟩
  | k + 1, hk => by
    obtain ⟨g, hg, hsub⟩ := serves_of_moments h0 hrun k (by omega)
    obtain ⟨g', hg', hsub'⟩ := hg.advance (hrun k hk)
    exact ⟨g', hg', hsub'.trans (hsub.append_right _)⟩

theorem runsHooks_of_serves (h0 : (M 0).Serves o cs [] {}) (hrun : ∀ k < n, (M k).advance env = some (M (k + 1))) :
    RunsHooks M n o cs where
  order k hk := by
    obtain ⟨g, hg, -⟩ := serves_of_moments h0 hrun k hk
    exact hg.isPrefix
  all k hk x b' hend := by
    obtain ⟨g, hg, -⟩ := serves_of_moments h0 hrun k hk
    rw [hend] at hg
    exact hg.all
  waiting k hk hserving := by
    obtain ⟨g, hg, hsub⟩ := serves_of_moments h0 hrun k hk
    exact (hg.callbacks_sublist hserving _).trans hsub
  nested k hk o' c ht hslot hown := by
    obtain ⟨g, hg, hsub⟩ := serves_of_moments h0 hrun k (by omega)
    exact hsub.subset (hslot ▸ hg.mem_held (hrun k hk) ht hown)

end Sequence

/-! ## Accesses -/

/-- A script that makes an access, told of as `o`, comes to an end if the callbacks return, satisfies `P` when it
does, and runs the hooks that its slot has at first. -/
structure Script.HookedAccess (env : Environment κ σ) (s : Script κ σ α) (b : Bench κ σ) (o : Occasion)
    (P : α → Bench κ σ → Prop) : Prop where
  returns : (Moment.start s b).Returning env → ∃ x b', s.Yields env b x b'
  result : ∀ x b', s.Yields env b x b' → P x b'
  hooks : ∀ (M : Nat → Moment κ σ α) n, M 0 = .start s b → (∀ k < n, (M k).advance env = some (M (k + 1))) →
    RunsHooks M n o (b.machine.registry.callbacks o.slot)

theorem Script.hookedAccess_read (env : Environment κ σ) (b : Bench κ σ) (addr : UInt8) :
    (Script.read addr).HookedAccess env b (.reading addr (b.machine.chip.data.get addr))
      fun v _ => v = b.machine.chip.data.get addr where
  returns h := exists_yields_of_returning (Script.noRuns_suffices.read addr) h
  result _ _ h := (Script.passes_read h).1
  hooks _ _ h0 := runsHooks_of_serves (h0 ▸ .opening rfl rfl trivial)

theorem Script.hookedAccess_write (env : Environment κ σ) (b : Bench κ σ) (addr v : UInt8) :
    (Script.write addr v).HookedAccess env b (.writing addr (b.machine.chip.data.get addr) v)
      fun _ b' => b'.machine.chip.data.get addr = v where
  returns h := exists_yields_of_returning (Script.noRuns_suffices.write addr v) h
  result _ _ h := (Script.passes_write h).2
  hooks _ _ h0 := runsHooks_of_serves (h0 ▸ .opening rfl rfl ⟨⟨_, rfl⟩, trivial⟩)

/-- Take any machine and any cell of it, and callbacks that return but may do anything to the machine. A read of the
cell returns the byte that was there at first, and it runs the read hooks that the cell had at first, each once, in
the order of registration, and tells each of them this byte. A write runs the write hooks that the cell had at first,
each once and in order, tells each of them the byte that was there at first and the new one, and leaves the new one
in the cell. Accesses of the same kind to the cell in the midst of this run none but the hooks registered since. -/
theorem accesses_run_their_hooks (env : Environment κ σ) (b : Bench κ σ) (addr v : UInt8) :
    (Script.read addr).HookedAccess env b (.reading addr (b.machine.chip.data.get addr))
      (fun x _ => x = b.machine.chip.data.get addr) ∧
    (Script.write addr v).HookedAccess env b (.writing addr (b.machine.chip.data.get addr) v)
      fun _ b' => b'.machine.chip.data.get addr = v :=
  ⟨Script.hookedAccess_read env b addr, Script.hookedAccess_write env b addr v⟩

/-- Hooks that meddle with the access that runs them: they change the cell, access it again, register and clear
hooks, reset the machine and step it. -/
def meddling : Environment Nat Unit where
  respond
    | 0, _ => do
      Script.edit fun c => c.setData 0x30 9
      Script.register (.read 0x30) 2
      let _ ← Script.read 0x30
      Script.clearHooks
    | 1, _ => do
      Script.register (.write 0x30) 2
      Script.write 0x30 7
      Script.reset
    | _, _ => do
      let _ ← Script.step
  holds _ := return true

/-- A cell that holds 5 and has two read hooks and two write hooks. -/
def meddledBench : Bench Nat Unit where
  machine := { chip := ((Chip.new Pacer.period1MHz {}).load #[0x00]).setData 0x30 5
               registry := { waiting := [(.read 0x30, .custom 0), (.read 0x30, .custom 2), (.write 0x30, .custom 1),
                 (.write 0x30, .custom 2)] } }
  world := ()

/-- The moments of a read of that cell. -/
def meddledRead (k : Nat) : Moment Nat Unit UInt8 := (Moment.start (Script.read 0x30) meddledBench).after meddling k

/-- The moments of a write to that cell. -/
def meddledWrite (k : Nat) : Moment Nat Unit Unit :=
  (Moment.start (Script.write 0x30 6) meddledBench).after meddling k

theorem meddledRead_advance : ∀ k < 20, (meddledRead k).advance meddling = some (meddledRead (k + 1)) := by
  have hsome : ∀ k < 20, ((meddledRead k).advance meddling).isSome := by decide +kernel
  exact fun k hk => Moment.advance_after meddling (hsome k hk)

theorem meddledWrite_advance : ∀ k < 28, (meddledWrite k).advance meddling = some (meddledWrite (k + 1)) := by
  have hsome : ∀ k < 28, ((meddledWrite k).advance meddling).isSome := by decide +kernel
  exact fun k hk => Moment.advance_after meddling (hsome k hk)

/-- Both accesses come to an end. The read returns what was in the cell at first, though a hook has stored another
byte there, and the write leaves the new byte there, though its hooks have stored another one and have reset the
machine. -/
theorem meddled_accesses_run_their_hooks :
    (∃ b', (Script.read 0x30).Yields meddling meddledBench 5 b') ∧
    toldItself meddledRead 20 = [(.reading 0x30 5, .custom 0), (.reading 0x30 5, .custom 2)] ∧
    (∃ b', (Script.write 0x30 6).Yields meddling meddledBench () b' ∧ b'.machine.chip.data.get 0x30 = 6) ∧
    toldItself meddledWrite 28 = [(.writing 0x30 5 6, .custom 1), (.writing 0x30 5 6, .custom 2)] := by
  obtain ⟨hread, hwrite⟩ := accesses_run_their_hooks meddling meddledBench 0x30 6
  have hrend : ((meddledRead 20).advance meddling).isNone := by decide +kernel
  have hwend : ((meddledWrite 28).advance meddling).isNone := by decide +kernel
  have hreturns : ∀ k < 20, (meddledRead k).returnsWithin meddling 4 = true := by decide +kernel
  have hwreturns : ∀ k < 28, (meddledWrite k).returnsWithin meddling 4 = true := by decide +kernel
  obtain ⟨x, b', hx⟩ := hread.returns (Moment.returning_of_after (Option.isNone_iff_eq_none.1 hrend) hreturns)
  obtain ⟨_, b'', hy⟩ := hwrite.returns (Moment.returning_of_after (Option.isNone_iff_eq_none.1 hwend) hwreturns)
  obtain ⟨_, _, hr⟩ := exists_done_of_advance (Option.isNone_iff_eq_none.1 hrend)
  obtain ⟨_, _, hw⟩ := exists_done_of_advance (Option.isNone_iff_eq_none.1 hwend)
  have hcell : meddledBench.machine.chip.data.get 0x30 = 5 := by decide +kernel
  obtain rfl : x = 5 := (hread.result x b' hx).trans hcell
  refine ⟨⟨b', hx⟩, ?_, ⟨b'', hy, hwrite.result _ _ hy⟩, ?_⟩
  · have h := (hread.hooks meddledRead 20 rfl meddledRead_advance).all 20 le_rfl _ _ hr
    rw [hcell] at h
    exact h
  · have h := (hwrite.hooks meddledWrite 28 rfl meddledWrite_advance).all 28 le_rfl _ _ hw
    rw [hcell] at h
    exact h

end Micro8051
