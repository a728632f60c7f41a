/-
Runs with a limit. The limit is on the instructions that run, so it bounds the steps of a run but for those
whose instruction is dropped because a breakpoint moved the program counter. Callbacks must return, and leave
the count of instructions to the run.
-/
import Micro8051.Proofs.Bench.Only
import Micro8051.Proofs.Run.Failure
import Micro8051.Proofs.Run.Pacing

namespace Micro8051

variable {κ σ α : Type} {env : Environment κ σ} {b b' b₁ : Bench κ σ} {o : Occasion} {start limit : UInt64}

/-! ## Callbacks that leave the count -/

/-- A change that leaves the number of instructions that have run. -/
def Act.Steady : Act κ σ → Prop
  | .edit f => ∀ c, (f c).executed = c.executed
  | _ => True

/-- A script that does not change the number of instructions that have run by itself, and starts no run. -/
def Script.Steady (s : Script κ σ α) : Prop := s.Only Act.Steady fun c => ∀ m, c ≠ .loop m

/-- Callbacks that return wherever they are told of an event, set no count, and make no steps or runs. -/
structure Environment.Steady (env : Environment κ σ) : Prop where
  returns : ∀ c o b, ∃ b', (env.respond c o).Yields env b () b'
  steady : ∀ c o, (env.respond c o).Steady

theorem Act.Steady.executed {a : Act κ σ} (h : a.Steady) (b : Bench κ σ) :
    (a.apply b).machine.chip.executed = b.machine.chip.executed := by
  cases a with
  | edit f => exact h b.machine.chip
  | _ => rfl

theorem Script.steady_suffices : Script.Suffices (Act.Steady (κ := κ) (σ := σ)) fun c => ∀ m, c ≠ .loop m where
  serve _ _ h := by cases h
  report _ := trivial
  setData _ _ _ := rfl
  setXdata _ _ _ := rfl
  jump _ _ := rfl

/-- What leaves the count by itself leaves it on the whole, whatever it is told of meanwhile. -/
theorem Environment.Only.executed (h : env.Only Act.Steady) {s : Script κ σ α} (hs : s.Steady) {a : α}
    (hy : s.Yields env b a b') : b'.machine.chip.executed = b.machine.chip.executed :=
  h.keeps (I := fun b₁ => b₁.machine.chip.executed = b.machine.chip.executed) Script.steady_suffices
    (fun _ ha b₁ hb₁ => (ha.executed b₁).trans hb₁) (fun _ _ hb₁ => hb₁) hs hy rfl

namespace Environment.Steady

theorem exists_yields_respond (h : env.Steady) (c : Callback κ) (o : Occasion) (b : Bench κ σ) :
    ∃ b', (c.respond env o).Yields env b () b' := by
  cases c with
  | custom c => exact h.returns c o b
  | latch r => cases o <;> exact ⟨_, 0, rfl⟩

theorem exists_told (h : env.Steady) (cs : List (Callback κ)) (b : Bench κ σ) : ∃ b', Told env o cs b b' := by
  induction cs generalizing b with
  | nil => exact ⟨b, told_nil.2 rfl⟩
  | cons c rest ih =>
    obtain ⟨b₁, hy⟩ := h.exists_yields_respond c o b
    obtain ⟨b', ht⟩ := ih b₁
    exact ⟨b', told_cons.2 ⟨b₁, hy, ht⟩⟩

theorem exists_yields_serve (h : env.Steady) (o : Occasion) (b : Bench κ σ) :
    ∃ b', (Script.serve o).Yields env b () b' := by
  rcases eq_or_ne (b.machine.registry.callbacks o.slot) [] with hc | hc
  · exact ⟨b, Script.yields_serve_of_nil hc⟩
  · obtain ⟨b₁, ht⟩ := h.exists_told (o := o) (b.machine.registry.callbacks o.slot)
      { b with machine := b.machine.onRegistry fun g => g.enter o.slot }
    exact ⟨_, Script.yields_serve_of_told hc ht⟩

/-- Steady scripts come to an end, and no more instructions have run by then. -/
theorem exists_yields (h : env.Steady) {s : Script κ σ α} (hs : s.Steady) (b : Bench κ σ) :
    ∃ a b', s.Yields env b a b' ∧ b'.machine.chip.executed = b.machine.chip.executed := by
  have hends : ∃ a b', s.Yields env b a b' ∧ True := by
    refine hs.exists_yields (I := fun _ => True) (fun _ _ _ _ => trivial) ?_ trivial
    intro c hc b₁ _
    cases c with
    | serve o =>
      obtain ⟨b₂, hy⟩ := h.exists_yields_serve o b₁
      exact ⟨(), b₂, hy, trivial⟩
    | loop m => exact absurd rfl (hc m)
  obtain ⟨a, b', hy, -⟩ := hends
  exact ⟨a, b', hy, Environment.Only.executed h.steady hs hy⟩

end Environment.Steady

/-! ## Steps that are dropped -/

/-- The step that begins where `v` is seen drops its instruction: the breakpoints move the program counter. -/
def Drops (env : Environment κ σ) (v : Machine κ × σ) : Prop :=
  ∃ d b b₁, fetch v.1.chip.code v.1.chip.pc = .ok d ∧ b.seen = v ∧
    (Script.visit v.1.chip.pc).Yields env b () b₁ ∧ b₁.machine.chip.pc ≠ v.1.chip.pc

/-- Whether the instruction is dropped is told by one visit, as visits do not depend on what is not seen. -/
theorem drops_seen {d : Decoded} (hf : fetch b.machine.chip.code b.machine.chip.pc = .ok d)
    (hv : (Script.visit b.machine.chip.pc).Yields env b () b₁) :
    Drops env b.seen ↔ b₁.machine.chip.pc ≠ b.machine.chip.pc := by
  constructor
  · rintro ⟨-, b₂, b₃, -, hseen, hv', hne⟩
    obtain ⟨b₄, hv'', hseen'⟩ := hv'.under env.schedule hseen
    obtain ⟨-, rfl⟩ := hv.unique hv''
    have hchip := congrArg (fun v : Machine κ × σ => v.1.chip.pc) hseen'
    exact hchip ▸ hne
  · intro hne
    exact ⟨d, b, b₁, hf, rfl, hv, hne⟩

/-- Without callbacks for its address a step is not dropped. -/
theorem not_drops (hb : b.machine.registry.callbacks (.visit b.machine.chip.pc) = []) : ¬ Drops env b.seen := by
  rintro ⟨-, b₂, b₃, -, hseen, hv, hne⟩
  have hm : b₂.machine = b.machine := (seen_eq.1 hseen).1
  obtain ⟨-, rfl⟩ := hv.unique (Script.yields_visit_of_nil (hm ▸ hb))
  exact hne (congrArg (fun m : Machine κ => m.chip.pc) hm)

/-- A step fails, or it is dropped, or one more instruction has run after it. -/
theorem Environment.Steady.step_cases (h : env.Steady) (b : Bench κ σ) :
    (∃ fault, Script.step.Yields env b (.error fault) b) ∨
    ∃ b', Script.step.Yields env b (.ok ()) b' ∧
      (Drops env b.seen ∧ b'.machine.chip.executed = b.machine.chip.executed ∨
        ¬ Drops env b.seen ∧ b'.machine.chip.executed = b.machine.chip.executed + 1) := by
  cases hf : fetch b.machine.chip.code b.machine.chip.pc with
  | error fault => exact .inl ⟨fault, Script.yields_step_of_fault hf⟩
  | ok d =>
    refine .inr ?_
    obtain ⟨_, b₁, hv, hcount⟩ := h.exists_yields (Script.steady_suffices.visit b.machine.chip.pc) b
    have hdrops := drops_seen hf hv
    rcases eq_or_ne b₁.machine.chip.pc b.machine.chip.pc with hpc | hpc
    · obtain ⟨_, b₂, he, hcount'⟩ := h.exists_yields (Script.steady_suffices.execute d)
        ((Act.report (.executing b.machine.chip.pc d.row.mnemonic)).apply b₁)
      refine ⟨_, Script.yields_step_of_execute hf hv hpc he, .inr ⟨fun hd => hdrops.1 hd hpc, ?_⟩⟩
      exact congrArg (· + 1) (hcount'.trans hcount)
    · exact ⟨_, Script.yields_step_of_drop hf hv hpc, .inl ⟨hdrops.2 hpc, hcount⟩⟩

/-- A step that leaves the count where it is, and does not fail, is dropped. -/
theorem Environment.Steady.drops_of_executed (h : env.Steady) (hs : Script.step.Yields env b (.ok ()) b')
    (he : b'.machine.chip.executed = b.machine.chip.executed) : Drops env b.seen := by
  obtain ⟨fault, hs'⟩ | ⟨b₁, hs', ⟨hdrop, -⟩ | ⟨-, hcount⟩⟩ := h.step_cases b
  · cases (hs.unique hs').1
  · exact hdrop
  · obtain ⟨-, rfl⟩ := hs.unique hs'
    rw [he] at hcount
    simp at hcount

/-! ## Rounds -/

theorem turned_below_of_lt (hp : ¬ b.stopPending) (hleft : b.machine.chip.executed - start < limit) :
    Turned env (.unpaced (.below start limit)) b .step b := by
  refine turned_unpaced (v := true) hp ?_
  exact (Script.yields_chip (f := fun c => decide (c.executed - start < limit))).2 ⟨decide_eq_true hleft, rfl⟩

/-- A round finishes the run, or it takes a step where the run has instructions left. -/
theorem turned_below (env : Environment κ σ) (start limit : UInt64) (b : Bench κ σ) :
    (∃ b₁, Turned env (.unpaced (.below start limit)) b .finish b₁) ∨
      Turned env (.unpaced (.below start limit)) b .step b ∧ b.machine.chip.executed - start < limit := by
  by_cases hp : b.stopPending
  · exact .inl ⟨_, turned_finish hp⟩
  by_cases hleft : b.machine.chip.executed - start < limit
  · exact .inr ⟨turned_below_of_lt hp hleft, hleft⟩
  · refine .inl ⟨b, turned_unpaced (v := false) hp ?_⟩
    exact (Script.yields_chip (f := fun c => decide (c.executed - start < limit))).2 ⟨decide_eq_false hleft, rfl⟩

/-- Runs with a limit skip no round. -/
theorem Turned.not_skip (h : Turned env (.unpaced (.below start limit)) b .skip b₁) : False := by
  obtain ⟨b₂, h'⟩ | ⟨h', -⟩ := turned_below env start limit b
  · cases (h.unique h').1
  · cases (h.unique h').1

theorem Turned.below_of_step (h : Turned env (.unpaced (.below start limit)) b .step b₁) :
    b₁ = b ∧ b.machine.chip.executed - start < limit := by
  obtain ⟨b₂, h'⟩ | ⟨h', hleft⟩ := turned_below env start limit b
  · cases (h.unique h').1
  · exact ⟨(h.unique h').2, hleft⟩

/-- The count is modulo `2^64`, but below a limit it does not wrap around. -/
theorem toNat_executed_succ {n : UInt64} (h : n - start < limit) :
    (n - start).toNat < limit.toNat ∧ (n + 1 - start).toNat = (n - start).toNat + 1 := by
  have hlt : (n - start).toNat < limit.toNat := UInt64.lt_iff_toNat_lt.1 h
  refine ⟨hlt, ?_⟩
  have hlimit := limit.toNat_lt
  rw [UInt64.toNat_sub] at hlt ⊢
  rw [UInt64.toNat_sub, UInt64.toNat_add]
  have hone : (1 : UInt64).toNat = 1 := rfl
  omega

/-! ## Courses -/

open scoped Classical in
/-- The steps of a course and the instructions that ran before it are within the limit, but for the steps
that are dropped. -/
theorem length_course_le (h : env.Steady) {steps : List (Machine κ × σ)}
    {x : Option (Except Fault Unit × Machine κ × σ)} (hc : Course env (.unpaced (.below start limit)) b steps x)
    (hb : (b.machine.chip.executed - start).toNat ≤ limit.toNat) :
    steps.length + (b.machine.chip.executed - start).toNat ≤
      steps.countP (fun v => Drops env v) + limit.toNat := by
  unfold Course at hc
  induction hc with
  | cut b => simpa using hb
  | skip ht _ _ => exact ht.not_skip.elim
  | finish ht => simpa using hb
  | begun ht =>
    obtain ⟨rfl, hleft⟩ := ht.below_of_step
    have hlt := (toNat_executed_succ hleft).1
    rw [List.length_singleton]
    omega
  | fail ht hf =>
    obtain ⟨rfl, hleft⟩ := ht.below_of_step
    have hlt := (toNat_executed_succ hleft).1
    rw [List.length_singleton]
    omega
  | @step b b₁ b₂ steps x ht hs _ ih =>
    obtain ⟨rfl, hleft⟩ := ht.below_of_step
    obtain ⟨hlt, hsucc⟩ := toNat_executed_succ hleft
    obtain ⟨fault, hs'⟩ | ⟨b₃, hs', hcount⟩ := h.step_cases b₁
    · cases (hs.unique hs').1
    obtain ⟨-, rfl⟩ := hs.unique hs'
    rw [List.length_cons]
    rcases hcount with ⟨hdrop, hcount⟩ | ⟨hrun, hcount⟩
    · -- a dropped step adds to both sides
      rw [List.countP_cons, if_pos (decide_eq_true hdrop)]
      rw [hcount] at ih
      have := ih hb
      omega
    · rw [List.countP_cons, if_neg (by simpa using hrun)]
      rw [hcount, hsucc] at ih
      have := ih (by omega)
      omega

/-- A run with a limit comes to an end, or it has courses of any number of steps. -/
theorem exists_course (h : env.Steady) (start limit : UInt64) (n : Nat) (b : Bench κ σ) :
    (∃ steps x, Course env (.unpaced (.below start limit)) b steps (some x)) ∨
      ∃ steps, steps.length = n ∧ Course env (.unpaced (.below start limit)) b steps none := by
  induction n generalizing b with
  | zero => exact .inr ⟨[], rfl, .cut b⟩
  | succ n ih =>
    obtain ⟨b₁, ht⟩ | ⟨ht, -⟩ := turned_below env start limit b
    · exact .inl ⟨[], _, .finish ht⟩
    obtain ⟨fault, hs⟩ | ⟨b₁, hs, -⟩ := h.step_cases b
    · exact .inl ⟨_, _, .fail ht hs⟩
    obtain ⟨steps, x, hc⟩ | ⟨steps, hlength, hc⟩ := ih b₁
    · exact .inl ⟨_, x, .step ht hs hc⟩
    · exact .inr ⟨b.seen :: steps, by rw [List.length_cons, hlength], .step ht hs hc⟩

theorem executed_dropRequests (b : Bench κ σ) : b.dropRequests.machine.chip.executed = b.machine.chip.executed := rfl

theorem runLimited_runsIn (limit : UInt64) (b : Bench κ σ) :
    (Script.runLimited limit).RunsIn env (.unpaced (.below b.machine.chip.executed limit)) b :=
  fun r v => unpacedRun_runsIn (.below b.machine.chip.executed limit) r v

open scoped Classical in
/-- Take callbacks that return and leave the count of instructions to the run, though they may move the
program counter. A run with a limit takes no more steps than the limit says, but for those that are dropped,
whether it comes to an end or not. So it comes to an end unless the number of its dropped steps grows without
bound. -/
theorem limited_run_bounded (env : Environment κ σ) (h : env.Steady) (b : Bench κ σ) (limit : UInt64) :
    (Script.runLimited limit).RunsIn env (.unpaced (.below b.machine.chip.executed limit)) b ∧
    (∀ steps x, Course env (.unpaced (.below b.machine.chip.executed limit)) b.dropRequests steps x →
      steps.length ≤ steps.countP (fun v => Drops env v) + limit.toNat) ∧
    ((∃ n, ∀ steps x, Course env (.unpaced (.below b.machine.chip.executed limit)) b.dropRequests steps x →
        steps.countP (fun v => Drops env v) ≤ n) →
      ∃ r b', (Script.runLimited limit).Yields env b r b') := by
  have hstart : (b.dropRequests.machine.chip.executed - b.machine.chip.executed).toNat = 0 := by
    rw [executed_dropRequests, UInt64.sub_self]
    rfl
  have hbound : ∀ steps x, Course env (.unpaced (.below b.machine.chip.executed limit)) b.dropRequests steps x →
      steps.length ≤ steps.countP (fun v => Drops env v) + limit.toNat := by
    intro steps x hc
    have hlength := length_course_le h hc (by omega)
    omega
  refine ⟨runLimited_runsIn limit b, hbound, ?_⟩
  rintro ⟨n, hn⟩
  -- a course of more steps than both bounds allow does not exist
  obtain ⟨steps, ⟨r, v⟩, hc⟩ | ⟨steps, hlength, hc⟩ :=
    exists_course h b.machine.chip.executed limit (n + limit.toNat + 1) b.dropRequests
  · obtain ⟨b', hy, -⟩ := (runLimited_runsIn limit b r v).2 (existsUnique_course.2 ⟨steps, hc⟩)
    exact ⟨r, b', hy⟩
  · have hsteps := hbound steps none hc
    have hdropped := hn steps none hc
    omega

/-! ## Breakpoints that jump -/

/-- Breakpoints that move the program counter. -/
def jumping : Environment UInt16 Unit where
  respond target _ := Script.edit fun c => c.jump target
  holds _ := return true

theorem jumping_steady : jumping.Steady where
  returns _ _ _ := ⟨_, 0, rfl⟩
  steady _ _ := .perform fun _ => rfl

/-- A machine whose program is twice `NOP`, with breakpoints that jump from one address to another. -/
def jumpingBench (jumps : List (UInt16 × UInt16)) : Bench UInt16 Unit where
  machine := { chip := (Chip.new Pacer.period1MHz {}).load #[0x00, 0x00]
               registry := { waiting := jumps.map fun j => (.visit j.1, .custom j.2) } }
  world := ()

/-- A jump takes a step of its own, in which no instruction runs. -/
theorem yields_step_jumping {b : Bench UInt16 Unit} {d : Decoded} (target : UInt16)
    (hf : fetch b.machine.chip.code b.machine.chip.pc = .ok d)
    (hc : b.machine.registry.callbacks (.visit b.machine.chip.pc) = [.custom target])
    (hne : target ≠ b.machine.chip.pc) :
    ∃ b', Script.step.Yields jumping b (.ok ()) b' ∧ b'.machine =
      ⟨b.machine.chip.jump target, (b.machine.registry.enter (.visit b.machine.chip.pc)).leave⟩ := by
  let b₁ : Bench UInt16 Unit :=
    { (Act.report (.visited b.machine.chip.pc (b.machine.registry.count (.visit b.machine.chip.pc)))).apply b with
      machine := b.machine.onRegistry fun g => g.enter (.visit b.machine.chip.pc) }
  have htold : Told jumping (.visiting b.machine.chip.pc) (b.machine.registry.callbacks (.visit b.machine.chip.pc)) b₁
      ((Act.edit fun c => c.jump target).apply b₁) := by
    rw [hc]
    exact told_cons.2 ⟨_, Script.yields_perform.2 rfl, told_nil.2 rfl⟩
  have hvisit := Script.yields_visit_of_told (by rw [hc]; exact List.cons_ne_nil _ _) htold
  exact ⟨_, Script.yields_step_of_drop hf hvisit hne, rfl⟩

/-- Two breakpoints that jump to each other bring the machine back to where it was. -/
theorem yields_steps_jumping {b : Bench UInt16 Unit} {d d' : Decoded} (hpc : b.machine.chip.pc = 0)
    (hregistry : b.machine.registry = { waiting := [(.visit 1, .custom 0), (.visit 0, .custom 1)] })
    (hf : fetch b.machine.chip.code 0 = .ok d) (hf' : fetch b.machine.chip.code 1 = .ok d') :
    ∃ b₁ b₂, Script.step.Yields jumping b (.ok ()) b₁ ∧ b₁.machine.chip = b.machine.chip.jump 1 ∧
      Script.step.Yields jumping b₁ (.ok ()) b₂ ∧ b₂.seen = b.seen := by
  obtain ⟨b₁, hs, hm⟩ := yields_step_jumping (b := b) 1 (by rw [hpc]; exact hf)
    (by rw [hpc, hregistry]; rfl) (by rw [hpc]; decide)
  obtain ⟨b₂, hs', hm'⟩ := yields_step_jumping (b := b₁) 0
    (by rw [hm]; exact hf') (by rw [hm, hpc, hregistry]; rfl) (by rw [hm]; exact (by decide : (0 : UInt16) ≠ 1))
  refine ⟨b₁, b₂, hs, congrArg Machine.chip hm, hs', Prod.ext ?_ rfl⟩
  have hchip : (b.machine.chip.jump 1).jump 0 = b.machine.chip := by
    rw [← hpc]
    rfl
  have hback : ((b.machine.registry.enter (.visit 0)).leave.enter (.visit 1)).leave = b.machine.registry := by
    rw [hregistry]
    rfl
  calc b₂.machine = ⟨(b.machine.chip.jump 1).jump 0,
        ((b.machine.registry.enter (.visit 0)).leave.enter (.visit 1)).leave⟩ := by rw [hm', hm, hpc]; rfl
    _ = b.machine := by rw [hchip, hback]

/-- A run with a limit has its first step. -/
theorem turned_first (b : Bench κ σ) :
    Turned env (.unpaced (.below b.machine.chip.executed 1)) b.dropRequests .step b.dropRequests := by
  refine turned_below_of_lt (fun hp => by cases hp) ?_
  rw [executed_dropRequests, UInt64.sub_self]
  decide

/-- A jump uses up nothing of the limit. -/
theorem turned_jumped {target : UInt16} (hchip : b₁.machine.chip = b.dropRequests.machine.chip.jump target) :
    Turned env (.unpaced (.below b.machine.chip.executed 1)) b₁ .step b₁ := by
  refine turned_below_of_lt (fun hp => ?_) ?_
  · rw [Bench.stopPending, hchip] at hp
    cases hp
  · rw [hchip, Chip.jump, executed_dropRequests, UInt64.sub_self]
    decide

/-- A run with a limit that jumps in a circle has no end: its course would go on with itself. -/
theorem not_yields_runLimited_jumping (r : Except Fault Unit) (b' : Bench UInt16 Unit) :
    ¬ (Script.runLimited 1).Yields jumping (jumpingBench [(1, 0), (0, 1)]) r b' := by
  intro hy
  obtain ⟨steps, hc, -⟩ := (runLimited_runsIn 1 _ r _).1 ⟨b', hy, rfl⟩
  obtain ⟨b₁, b₂, hs, hchip, hs', hseen⟩ :=
    yields_steps_jumping (b := (jumpingBench [(1, 0), (0, 1)]).dropRequests) rfl rfl rfl rfl
  have hlonger := CourseOf.step (turned_first _) hs (.step (turned_jumped hchip) hs' ((Course.congr hseen).2 hc))
  have hlength := congrArg List.length (hc.unique hlonger).1
  rw [List.length_cons, List.length_cons] at hlength
  omega

/-- A breakpoint that jumps, and is alone, makes the run drop its first step. -/
theorem yields_step_redirected : ∃ b₁, Script.step.Yields jumping (jumpingBench [(0, 1)]).dropRequests (.ok ()) b₁ ∧
    b₁.machine.chip = (jumpingBench [(0, 1)]).dropRequests.machine.chip.jump 1 ∧
    b₁.machine.registry.callbacks (.visit 1) = [] := by
  obtain ⟨b₁, hs, hm⟩ := yields_step_jumping (b := (jumpingBench [(0, 1)]).dropRequests) 1 rfl rfl (by decide)
  exact ⟨b₁, hs, congrArg Machine.chip hm, hm ▸ rfl⟩

/-- The limit does not bound the steps. With a limit of one, a breakpoint that jumps makes a run take two steps,
and two breakpoints that jump to each other keep it running for ever. -/
theorem limit_exceeded : jumping.Steady ∧
    (∃ steps, Course jumping (.unpaced (.below (jumpingBench [(0, 1)]).machine.chip.executed 1))
      (jumpingBench [(0, 1)]).dropRequests steps none ∧ steps.length = 2) ∧
    ∀ r b', ¬ (Script.runLimited 1).Yields jumping (jumpingBench [(1, 0), (0, 1)]) r b' := by
  refine ⟨jumping_steady, ?_, not_yields_runLimited_jumping⟩
  obtain ⟨b₁, hs, hchip, -⟩ := yields_step_redirected
  exact ⟨_, .step (turned_first _) hs (.begun (turned_jumped hchip)), rfl⟩

/-- The second step is not dropped, and it is the last one. -/
theorem exists_course_redirected : ∃ v x, ¬ Drops jumping v ∧
    Course jumping (.unpaced (.below (jumpingBench [(0, 1)]).machine.chip.executed 1))
      (jumpingBench [(0, 1)]).dropRequests [(jumpingBench [(0, 1)]).dropRequests.seen, v] (some x) := by
  obtain ⟨b₁, hs, hchip, hnone⟩ := yields_step_redirected
  have hpc : b₁.machine.chip.pc = 1 := by rw [hchip, Chip.jump]
  have hexecuted : b₁.machine.chip.executed = (jumpingBench [(0, 1)]).machine.chip.executed := by
    rw [hchip, Chip.jump, executed_dropRequests]
  have hkept : ¬ Drops jumping b₁.seen := not_drops (hpc ▸ hnone)
  obtain ⟨fault, hs'⟩ | ⟨b₂, hs', ⟨hdrop, -⟩ | ⟨-, hcount⟩⟩ := jumping_steady.step_cases b₁
  · have hf : ∃ d, fetch b₁.machine.chip.code b₁.machine.chip.pc = .ok d := by
      rw [hchip]
      exact ⟨_, rfl⟩
    cases Script.ok_of_yields_step hf.choose_spec hs'
  · exact absurd hdrop hkept
  obtain ⟨b₃, hfinish⟩ | ⟨-, hleft⟩ :=
    turned_below jumping (jumpingBench [(0, 1)]).machine.chip.executed 1 b₂
  · exact ⟨b₁.seen, _, hkept, .step (turned_first _) hs (.step (turned_jumped hchip) hs' (.finish hfinish))⟩
  · rw [hcount, hexecuted] at hleft
    exact absurd hleft (by decide)

/-- The run drops a step, takes no more than two, and returns. -/
theorem redirected_run_bounded : Drops jumping (jumpingBench [(0, 1)]).dropRequests.seen ∧
    (∀ steps x, Course jumping (.unpaced (.below (jumpingBench [(0, 1)]).machine.chip.executed 1))
      (jumpingBench [(0, 1)]).dropRequests steps x → steps.length ≤ 2) ∧
    ∃ r b', (Script.runLimited 1).Yields jumping (jumpingBench [(0, 1)]) r b' := by
  classical
  obtain ⟨b₁, hs, hchip, -⟩ := yields_step_redirected
  have hdropped := jumping_steady.drops_of_executed hs (by rw [hchip, Chip.jump])
  obtain ⟨v, x, hkept, hcourse⟩ := exists_course_redirected
  obtain ⟨-, hbound, hreturns⟩ := limited_run_bounded jumping jumping_steady (jumpingBench [(0, 1)]) 1
  -- any course is a beginning of the one that ends, in which one step is dropped
  have hone : ∀ steps x, Course jumping (.unpaced (.below (jumpingBench [(0, 1)]).machine.chip.executed 1))
      (jumpingBench [(0, 1)]).dropRequests steps x → steps.countP (fun v => Drops jumping v) ≤ 1 := by
    intro steps y hc
    calc steps.countP (fun v => Drops jumping v)
        ≤ [(jumpingBench [(0, 1)]).dropRequests.seen, v].countP (fun v => Drops jumping v) :=
          (hc.begins hcourse).1.sublist.countP_le
      _ = 1 := by simp only [List.countP_cons, List.countP_nil, hdropped, hkept, decide_true, decide_false]; rfl
  refine ⟨hdropped, fun steps x hc => ?_, hreturns ⟨1, hone⟩⟩
  have hlength := hbound steps x hc
  have hdrops := hone steps x hc
  have hlimit : (1 : UInt64).toNat = 1 := rfl
  omega

end Micro8051
