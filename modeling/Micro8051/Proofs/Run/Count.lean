/-
What runs with a limit count. The count of instructions advances by one for each instruction that is executed and
stays for steps that fail or drop theirs, and a run stops at its limit exactly. So a run with a limit can be split in
two at any number of instructions (`limited_run_counts`). The count is modulo `2^64` and may wrap around on the way.
-/
import Micro8051.Proofs.Run.Allowance

namespace Micro8051

variable {κ σ : Type} {env : Environment κ σ} {b b' b₁ : Bench κ σ} {r : Except Fault Unit} {start limit : UInt64}

/-! ## Steps -/

/-- The step that begins on `b` executes its instruction: there is one, and no breakpoint moves the program counter
away from it. -/
def Executes (env : Environment κ σ) (b : Bench κ σ) : Prop :=
  ∃ d b₁, fetch b.machine.chip.code b.machine.chip.pc = .ok d ∧
    (Script.visit b.machine.chip.pc).Yields env b () b₁ ∧ b₁.machine.chip.pc = b.machine.chip.pc

namespace Script

/-- A step that does not fail executes its instruction and counts it, or drops it. -/
theorem yields_step_ok (h : step.Yields env b (.ok ()) b') :
    ∃ d b₁, fetch b.machine.chip.code b.machine.chip.pc = .ok d ∧ (visit b.machine.chip.pc).Yields env b () b₁ ∧
      ((b₁.machine.chip.pc = b.machine.chip.pc ∧ ∃ b₂,
        (execute d).Yields env ((Act.report (.executing b.machine.chip.pc d.row.mnemonic)).apply b₁) () b₂ ∧
        (Act.edit Chip.count).apply b₂ = b') ∨
      (b₁.machine.chip.pc ≠ b.machine.chip.pc ∧
        (Act.report (.dropped b.machine.chip.pc d.row.mnemonic b₁.machine.chip.pc)).apply b₁ = b')) := by
  unfold step at h
  obtain ⟨_, _, hpc, h⟩ := yields_bind.1 h
  obtain ⟨rfl, rfl⟩ := yields_chip.1 hpc
  obtain ⟨fetched, _, hd, h⟩ := yields_bind.1 h
  obtain ⟨rfl, rfl⟩ := yields_chip.1 hd
  cases hf : fetch b.machine.chip.code b.machine.chip.pc with
  | error fault =>
    rw [hf] at h
    cases (yields_pure.1 h).1
  | ok d =>
    simp only [hf] at h
    obtain ⟨_, b₁, hv, h⟩ := yields_bind.1 h
    obtain ⟨_, _, hnow, h⟩ := yields_bind.1 h
    obtain ⟨rfl, rfl⟩ := yields_chip.1 hnow
    refine ⟨d, b₁, rfl, hv, ?_⟩
    -- what the breakpoints have left in the program counter decides
    split at h
    · rename_i hpc
      obtain ⟨_, _, hr, h⟩ := yields_bind.1 h
      obtain rfl := yields_perform.1 hr
      obtain ⟨_, b₂, he, h⟩ := yields_bind.1 h
      obtain ⟨_, _, hc, h⟩ := yields_bind.1 h
      obtain rfl := yields_perform.1 hc
      exact .inl ⟨hpc, b₂, he, (yields_pure.1 h).2⟩
    · rename_i hpc
      obtain ⟨_, _, hr, h⟩ := yields_bind.1 h
      obtain rfl := yields_perform.1 hr
      exact .inr ⟨hpc, (yields_pure.1 h).2⟩

end Script

theorem not_executes_of_error {fault : Fault} (h : Script.step.Yields env b (.error fault) b') :
    b' = b ∧ ¬ Executes env b := by
  obtain ⟨hf, rfl⟩ := Script.yields_step_error_iff.1 h
  refine ⟨rfl, ?_⟩
  rintro ⟨d, -, hd, -⟩
  rw [hf] at hd
  cases hd

/-- A step counts its instruction exactly if it executes it. -/
theorem Environment.Only.step_counts (h : env.Only Act.Steady) (hs : Script.step.Yields env b (.ok ()) b') :
    (Executes env b ∧ b'.machine.chip.executed = b.machine.chip.executed + 1) ∨
      (¬ Executes env b ∧ b'.machine.chip.executed = b.machine.chip.executed) := by
  obtain ⟨d, b₁, hf, hv, ⟨hpc, b₂, he, rfl⟩ | ⟨hpc, rfl⟩⟩ := Script.yields_step_ok hs
  · have hvisited := h.executed (Script.steady_suffices.visit _) hv
    have hexecuted := h.executed (Script.steady_suffices.execute d) he
    exact .inl ⟨⟨d, b₁, hf, hv, hpc⟩, congrArg (· + 1) (hexecuted.trans hvisited)⟩
  · have hvisited := h.executed (Script.steady_suffices.visit _) hv
    refine .inr ⟨?_, hvisited⟩
    rintro ⟨-, b₂, -, hv', hpc'⟩
    obtain ⟨-, rfl⟩ := hv.unique hv'
    exact hpc hpc'

/-! ## Rounds -/

/-- A run with a limit ends because it was requested to, or because as many instructions have run. -/
theorem Turned.below_of_finish (h : Turned env (.unpaced (.below start limit)) b .finish b₁) :
    (b.stopPending ∧ b₁ = b.dropStop) ∨
      (¬ b.stopPending ∧ b₁ = b ∧ ¬ b.machine.chip.executed - start < limit) := by
  by_cases hp : b.stopPending
  · exact .inl ⟨hp, (h.unique (turned_finish hp)).2⟩
  by_cases hleft : b.machine.chip.executed - start < limit
  · cases (h.unique (turned_below_of_lt hp hleft)).1
  · refine .inr ⟨hp, ?_, hleft⟩
    have hfinish : Turned env (.unpaced (.below start limit)) b .finish b :=
      turned_unpaced (v := false) hp ((Script.yields_chip (f := fun c => decide (c.executed - start < limit))).2
        ⟨decide_eq_false hleft, rfl⟩)
    exact (h.unique hfinish).2

open scoped Classical in
/-- The rounds of a run count the instructions that its steps execute, up to the limit and no further. -/
theorem count_rounds (h : env.Only Act.Steady) {steps : List (Bench κ σ)}
    (hr : Rounds env (.unpaced (.below start limit)) b steps r b')
    (hb : (b.machine.chip.executed - start).toNat ≤ limit.toNat) :
    (b'.machine.chip.executed - start).toNat =
        (b.machine.chip.executed - start).toNat + steps.countP (fun s => Executes env s) ∧
      (b'.machine.chip.executed - start).toNat ≤ limit.toNat := by
  -- the count may wrap around on the way, but its distance from the start does not
  unfold Rounds at hr
  induction hr with
  | skip ht _ _ => exact ht.not_skip.elim
  | finish ht =>
    obtain ⟨-, rfl⟩ | ⟨-, rfl, -⟩ := ht.below_of_finish
    · exact ⟨rfl, hb⟩
    · exact ⟨rfl, hb⟩
  | fail ht hf =>
    obtain ⟨rfl, -⟩ := ht.below_of_step
    obtain ⟨rfl, hnot⟩ := not_executes_of_error hf
    rw [List.countP_cons, if_neg (by simpa using hnot)]
    exact ⟨rfl, hb⟩
  | step ht hs _ ih =>
    obtain ⟨rfl, hleft⟩ := ht.below_of_step
    obtain ⟨hlt, hsucc⟩ := toNat_executed_succ hleft
    obtain ⟨hexec, hcount⟩ | ⟨hexec, hcount⟩ := h.step_counts hs
    · obtain ⟨hsum, hle⟩ := ih (by rw [hcount, hsucc]; omega)
      rw [hcount, hsucc] at hsum
      rw [List.countP_cons, if_pos (decide_eq_true hexec)]
      exact ⟨by omega, hle⟩
    · obtain ⟨hsum, hle⟩ := ih (by rw [hcount]; exact hb)
      rw [hcount] at hsum
      rw [List.countP_cons, if_neg (by simpa using hexec)]
      exact ⟨by omega, hle⟩

/-- A run that does not fail comes to its limit, unless a request to stop is left by one of its steps. -/
theorem limit_of_rounds {steps : List (Bench κ σ)} (hr : Rounds env (.unpaced (.below start limit)) b steps r b')
    (hok : r = .ok ()) (hp : ¬ b.stopPending) : ¬ b'.machine.chip.executed - start < limit ∨
      ∃ s ∈ steps, ∃ e, Script.step.Yields env s (.ok ()) e ∧ e.stopPending := by
  unfold Rounds at hr
  induction hr with
  | skip ht _ _ => exact ht.not_skip.elim
  | fail ht hf => cases hok
  | finish ht =>
    obtain ⟨hp', -⟩ | ⟨-, rfl, hleft⟩ := ht.below_of_finish
    · exact absurd hp' hp
    · exact .inl hleft
  | @step b b₁ b₂ b' steps r ht hs _ ih =>
    by_cases hp₂ : b₂.stopPending
    · exact .inr ⟨b₁, List.mem_cons_self, b₂, hs, hp₂⟩
    · exact (ih hok hp₂).imp_right fun ⟨s, hmem, hs⟩ => ⟨s, List.mem_cons_of_mem _ hmem, hs⟩

/-! ## Runs in two parts -/

/-- A change that does not request a stop. -/
def Act.Onward : Act κ σ → Prop
  | .edit f => ∀ c, (f c).pacer.stopPending → c.pacer.stopPending
  | _ => True

theorem Act.Onward.stopPending {a : Act κ σ} (h : a.Onward) (b : Bench κ σ) :
    (a.apply b).stopPending → b.stopPending := by
  cases a with
  | edit f => exact h b.machine.chip
  | _ => exact id

theorem Script.onward_suffices : Script.Suffices (Act.Onward (κ := κ) (σ := σ)) fun c => ∀ m, c ≠ .loop m where
  serve _ _ h := by cases h
  report _ := trivial
  setData _ _ _ := id
  setXdata _ _ _ := id
  jump _ _ := id

/-- Callbacks that leave the count of instructions, request no stop and start no run. -/
structure Environment.Onward (env : Environment κ σ) : Prop where
  steady : env.Only Act.Steady
  onward : env.Only Act.Onward

namespace Environment.Onward

variable (h : env.Onward)
include h

theorem not_stopPending_of_step (hs : Script.step.Yields env b r b') (hp : ¬ b.stopPending) : ¬ b'.stopPending :=
  h.onward.keeps (I := fun b₁ => ¬ b₁.stopPending) Script.onward_suffices
    (fun _ ha b₁ hb₁ hp' => hb₁ (ha.stopPending b₁ hp')) (fun _ _ hb₁ => hb₁)
    (Script.onward_suffices.step (fun _ => id)) hs hp

/-- Within a limit, a step leaves the count within it. -/
theorem step_within (hs : Script.step.Yields env b (.ok ()) b') (hleft : b.machine.chip.executed - start < limit) :
    (b'.machine.chip.executed - start).toNat ≤ limit.toNat := by
  obtain ⟨hlt, hsucc⟩ := toNat_executed_succ hleft
  obtain ⟨-, hcount⟩ | ⟨-, hcount⟩ := h.steady.step_counts hs
  · rw [hcount, hsucc]
    omega
  · rw [hcount]
    omega

end Environment.Onward

/-! ### What rounds come to -/

/-- What the rounds of a run come to: a result, and what is seen at the end. -/
def Comes (env : Environment κ σ) (m : Mode κ) (b : Bench κ σ) (x : Except Fault Unit × Machine κ × σ) : Prop :=
  ∃ steps, Course env m b steps (some x)

section Comes

variable {m : Mode κ} {x : Except Fault Unit × Machine κ × σ}

theorem comes_congr (hseen : b.seen = b₁.seen) : Comes env m b x ↔ Comes env m b₁ x :=
  exists_congr fun _ => Course.congr hseen

theorem runLimited_comes {v : Machine κ × σ} : (∃ b', (Script.runLimited limit).Yields env b r b' ∧ b'.seen = v) ↔
    Comes env (.unpaced (.below b.machine.chip.executed limit)) b.dropRequests (r, v) :=
  (runLimited_runsIn limit b r v).trans existsUnique_course

/-- A run that takes a step comes to what it comes to after the step. -/
theorem comes_after_step {b₂ : Bench κ σ} (ht : Turned env m b .step b₁) (hs : Script.step.Yields env b₁ (.ok ()) b₂) :
    Comes env m b x ↔ Comes env m b₂ x := by
  constructor
  · rintro ⟨steps, hc⟩
    obtain ⟨rest, -, hc'⟩ := hc.after_step ht hs
    exact ⟨rest, hc'⟩
  · rintro ⟨steps, hc⟩
    exact ⟨_, .step ht hs hc⟩

end Comes

/-! ### From one limit to another -/

theorem turned_below_congr {t : Turn} {start' limit' : UInt64}
    (hiff : b.machine.chip.executed - start < limit ↔ b.machine.chip.executed - start' < limit') :
    Turned env (.unpaced (.below start limit)) b t b₁ ↔ Turned env (.unpaced (.below start' limit')) b t b₁ := by
  unfold Turned turnOn
  simp only [Guard.holds, Script.chip, Script.runWith, decide_eq_decide.2 hiff]

/-- Where two limits leave the same runs to go on, courses are the same. -/
theorem Course.relimit (h : env.Only Act.Steady) {start' limit' : UInt64} {I : UInt64 → Prop}
    (hI : ∀ n, I n → (n - start < limit ↔ n - start' < limit')) (hsucc : ∀ n, I n → n - start < limit → I (n + 1))
    {steps : List (Machine κ × σ)} {x : Option (Except Fault Unit × Machine κ × σ)}
    (hc : Course env (.unpaced (.below start limit)) b steps x) (hb : I b.machine.chip.executed) :
    Course env (.unpaced (.below start' limit')) b steps x := by
  unfold Course at hc
  induction hc with
  | cut b => exact .cut b
  | skip ht _ _ => exact ht.not_skip.elim
  | finish ht => exact .finish ((turned_below_congr (hI _ hb)).1 ht)
  | begun ht => exact .begun ((turned_below_congr (hI _ hb)).1 ht)
  | fail ht hf => exact .fail ((turned_below_congr (hI _ hb)).1 ht) hf
  | step ht hs _ ih =>
    obtain ⟨rfl, hleft⟩ := ht.below_of_step
    refine .step ((turned_below_congr (hI _ hb)).1 ht) hs (ih ?_)
    -- a step that is dropped leaves the count where it was
    obtain ⟨-, hcount⟩ | ⟨-, hcount⟩ := h.step_counts hs
    · rw [hcount]
      exact hsucc _ hb hleft
    · rw [hcount]
      exact hb

section Parts

variable {first second : UInt64}

theorem le_add_of_sum_lt (hsum : first.toNat + second.toNat < 2 ^ 64) : first ≤ first + second := by
  rw [UInt64.le_iff_toNat_le, UInt64.toNat_add, Nat.mod_eq_of_lt hsum]
  exact Nat.le_add_right _ _

/-- The limits of two runs in a row and their sum, counted from where the second one begins. -/
theorem below_add_iff (hsum : first.toNat + second.toNat < 2 ^ 64) {n : UInt64}
    (hn : (n - (start + first)).toNat ≤ second.toNat) :
    n - (start + first) < second ↔ n - start < first + second := by
  rw [UInt64.lt_iff_toNat_lt, UInt64.lt_iff_toNat_lt, UInt64.toNat_add, Nat.mod_eq_of_lt hsum]
  have hsplit : n - start = n - (start + first) + first := by grind
  rw [hsplit, UInt64.toNat_add, Nat.mod_eq_of_lt (by omega)]
  omega

theorem comes_below_add (h : env.Only Act.Steady) (hsum : first.toNat + second.toNat < 2 ^ 64)
    (hb : b.machine.chip.executed = start + first) {x : Except Fault Unit × Machine κ × σ} :
    Comes env (.unpaced (.below (start + first) second)) b x ↔
      Comes env (.unpaced (.below start (first + second))) b x := by
  have hzero : (b.machine.chip.executed - (start + first)).toNat ≤ second.toNat := by
    rw [hb, UInt64.sub_self]
    exact Nat.zero_le _
  have hsucc (n : UInt64) (hn : n - (start + first) < second) : (n + 1 - (start + first)).toNat ≤ second.toNat := by
    have hlt := toNat_executed_succ hn
    omega
  constructor
  · rintro ⟨steps, hc⟩
    exact ⟨steps, hc.relimit h (fun n => below_add_iff hsum) (fun n _ => hsucc n) hzero⟩
  · rintro ⟨steps, hc⟩
    exact ⟨steps, hc.relimit h (fun n hn => (below_add_iff hsum hn).symm)
      (fun n hn hlt => hsucc n ((below_add_iff hsum hn).2 hlt)) hzero⟩

/-- The rounds up to a smaller limit are the first ones up to a larger limit. -/
theorem Environment.Onward.first_rounds (h : env.Onward) (hle : first ≤ limit) {steps : List (Bench κ σ)}
    (hr : Rounds env (.unpaced (.below start first)) b steps r b') (hp : ¬ b.stopPending)
    (hb : (b.machine.chip.executed - start).toNat ≤ first.toNat) :
    match r with
    | .ok _ => ¬ b'.stopPending ∧ b'.machine.chip.executed = start + first ∧
      ∀ x, Comes env (.unpaced (.below start limit)) b x ↔ Comes env (.unpaced (.below start limit)) b' x
    | .error fault => Comes env (.unpaced (.below start limit)) b (.error fault, b'.seen) := by
  unfold Rounds at hr
  induction hr with
  | skip ht _ _ => exact ht.not_skip.elim
  | finish ht =>
    obtain ⟨hp', -⟩ | ⟨-, rfl, hleft⟩ := ht.below_of_finish
    · exact absurd hp' hp
    · -- nothing but the limit can have ended the run
      refine ⟨hp, ?_, fun _ => Iff.rfl⟩
      rw [UInt64.lt_iff_toNat_lt] at hleft
      have hfirst := UInt64.toNat_inj.1 (le_antisymm hb (not_lt.1 hleft))
      rw [← hfirst]
      grind
  | fail ht hf =>
    obtain ⟨rfl, hleft⟩ := ht.below_of_step
    exact ⟨_, .fail (turned_below_of_lt hp (UInt64.lt_of_lt_of_le hleft hle)) hf⟩
  | @step b b₁ b₂ b' steps r ht hs _ ih =>
    obtain ⟨rfl, hleft⟩ := ht.below_of_step
    have hafter (x : Except Fault Unit × Machine κ × σ) :=
      comes_after_step (x := x) (turned_below_of_lt hp (UInt64.lt_of_lt_of_le hleft hle)) hs
    have hrest := ih (h.not_stopPending_of_step hs hp) (h.step_within hs hleft)
    cases r with
    | ok u => exact ⟨hrest.1, hrest.2.1, fun x => (hafter x).trans (hrest.2.2 x)⟩
    | error fault => exact (hafter _).2 hrest

/-- A run that comes to an end with a larger limit does so with a smaller one. -/
theorem exists_comes_of_le (hle : first ≤ limit) {x : Except Fault Unit × Machine κ × σ}
    (hc : Comes env (.unpaced (.below start limit)) b x) : ∃ y, Comes env (.unpaced (.below start first)) b y := by
  obtain ⟨steps, hc⟩ := hc
  unfold Course at hc
  generalize ho : some x = o at hc
  induction hc with
  | cut b => cases ho
  | begun ht => cases ho
  | skip ht _ _ => exact ht.not_skip.elim
  | @finish b b₁ ht =>
    obtain ⟨b₂, hf⟩ | ⟨hs, hleft⟩ := turned_below env start first b
    · exact ⟨_, [], .finish hf⟩
    · -- a round that goes on below the smaller limit goes on below the larger one
      obtain ⟨hp, -⟩ | ⟨-, -, hnot⟩ := ht.below_of_finish
      · cases (hs.unique (turned_finish hp)).1
      · exact absurd (UInt64.lt_of_lt_of_le hleft hle) hnot
  | @fail b b₁ b₂ fault ht hf =>
    obtain ⟨rfl, -⟩ := ht.below_of_step
    obtain ⟨b₂, hf'⟩ | ⟨hs, -⟩ := turned_below env start first b₁
    · exact ⟨_, [], .finish hf'⟩
    · exact ⟨_, _, .fail hs hf⟩
  | @step b b₁ b₂ steps o ht hs _ ih =>
    obtain ⟨rfl, -⟩ := ht.below_of_step
    obtain ⟨b₂, hf'⟩ | ⟨hs', -⟩ := turned_below env start first b₁
    · exact ⟨_, [], .finish hf'⟩
    · obtain ⟨y, rest, hc⟩ := ih ho
      exact ⟨y, _, .step hs' hs hc⟩

/-- A run with a limit, and another one after it unless the first one fails. -/
def Script.runLimitedTwice (first second : UInt64) : Script κ σ (Except Fault Unit) := do
  match ← runLimited first with
  | .ok _ => runLimited second
  | .error fault => return .error fault

theorem yields_runLimitedTwice : (Script.runLimitedTwice first second).Yields env b r b' ↔
    (∃ b₁, (Script.runLimited first).Yields env b (.ok ()) b₁ ∧ (Script.runLimited second).Yields env b₁ r b') ∨
      ∃ fault, r = .error fault ∧ (Script.runLimited first).Yields env b (.error fault) b' := by
  unfold Script.runLimitedTwice
  rw [Script.yields_bind]
  constructor
  · rintro ⟨_ | _, b₁, hfirst, hrest⟩
    · obtain ⟨rfl, rfl⟩ := Script.yields_pure.1 hrest
      exact .inr ⟨_, rfl, hfirst⟩
    · exact .inl ⟨b₁, hfirst, hrest⟩
  · rintro (⟨b₁, hfirst, hrest⟩ | ⟨fault, rfl, hfirst⟩)
    · exact ⟨.ok (), b₁, hfirst, hrest⟩
    · exact ⟨.error fault, b', hfirst, Script.yields_pure.2 ⟨rfl, rfl⟩⟩

theorem seen_dropRequests (hp : ¬ b.stopPending) : b.dropRequests.seen = b.seen := by
  have hfalse : b.machine.chip.pacer.stopPending = false := eq_false_of_ne_true hp
  have hpacer : b.machine.chip.pacer.dropStop = b.machine.chip.pacer := by rw [Pacer.dropStop, ← hfalse]
  refine seen_eq.2 ⟨?_, rfl⟩
  show b.machine.onChip (fun c => c.onPacer Pacer.dropStop) = b.machine
  rw [Machine.onChip, Chip.onPacer, hpacer]

/-- After the first of two runs, the second one comes to what a run with the sum of their limits does. -/
theorem Environment.Onward.second_run (h : env.Onward) (hsum : first.toNat + second.toNat < 2 ^ 64)
    (hy : (Script.runLimited first).Yields env b r b₁) :
    match r with
    | .ok _ => ∀ x, Comes env (.unpaced (.below b.machine.chip.executed (first + second))) b.dropRequests x ↔
      Comes env (.unpaced (.below b₁.machine.chip.executed second)) b₁.dropRequests x
    | .error fault => Comes env (.unpaced (.below b.machine.chip.executed (first + second))) b.dropRequests
      (.error fault, b₁.seen) := by
  obtain ⟨b₂, hl, hseen⟩ := yields_loop_iff_course.2 (runLimited_comes.1 ⟨b₁, hy, rfl⟩)
  obtain ⟨steps, hr⟩ := exists_rounds_of_loop hl
  have hle := le_add_of_sum_lt hsum
  have hzero : (b.dropRequests.machine.chip.executed - b.machine.chip.executed).toNat ≤ first.toNat := by
    rw [executed_dropRequests, UInt64.sub_self]
    exact Nat.zero_le _
  have hfirst := h.first_rounds hle hr (fun hp => by cases hp) hzero
  cases r with
  | error fault => exact hseen ▸ hfirst
  | ok u =>
    obtain ⟨hp, hcount, hrest⟩ := hfirst
    intro x
    have hp₁ : ¬ b₁.stopPending := by rwa [← stopPending_congr hseen]
    have hcount₁ : b₁.dropRequests.machine.chip.executed = b.machine.chip.executed + first := by
      rw [executed_dropRequests, ← (seen_eq.1 hseen).1, hcount]
    rw [hrest x, comes_congr (hseen.trans (seen_dropRequests hp₁).symm), ← comes_below_add h.steady hsum hcount₁,
      ← hcount₁, executed_dropRequests]

/-- Two runs with limits, one after the other, come to what one run does with the sum of their limits. -/
theorem Environment.Onward.runLimited_add (h : env.Onward) (hsum : first.toNat + second.toNat < 2 ^ 64)
    (v : Machine κ × σ) : (∃ b', (Script.runLimitedTwice first second).Yields env b r b' ∧ b'.seen = v) ↔
      ∃ b', (Script.runLimited (first + second)).Yields env b r b' ∧ b'.seen = v := by
  have hle := le_add_of_sum_lt hsum
  rw [runLimited_comes]
  constructor
  · rintro ⟨b', hy, rfl⟩
    obtain ⟨b₁, hfirst, hsecond⟩ | ⟨fault, rfl, hfirst⟩ := yields_runLimitedTwice.1 hy
    · exact (h.second_run hsum hfirst _).2 (runLimited_comes.1 ⟨b', hsecond, rfl⟩)
    · exact h.second_run hsum hfirst
  · intro hc
    -- the first run comes to an end because the run with the sum does
    obtain ⟨⟨r₁, v₁⟩, hc₁⟩ := exists_comes_of_le hle hc
    obtain ⟨b₁, hfirst, rfl⟩ := runLimited_comes.2 hc₁
    have hsecond := h.second_run hsum hfirst
    cases r₁ with
    | ok u =>
      obtain ⟨b', hy, rfl⟩ := runLimited_comes.2 ((hsecond _).1 hc)
      exact ⟨b', yields_runLimitedTwice.2 (.inl ⟨b₁, hfirst, hy⟩), rfl⟩
    | error fault =>
      obtain ⟨steps, hc⟩ := hc
      obtain ⟨steps', hc'⟩ := hsecond
      obtain ⟨rfl, rfl⟩ := Prod.mk.inj (hc.unique hc').2
      exact ⟨b₁, yields_runLimitedTwice.2 (.inr ⟨fault, rfl, hfirst⟩), rfl⟩

end Parts

/-! ## The count of a run -/

theorem count_eq_of_toNat {n : UInt64} {j : Nat} (h : (n - start).toNat = j) : n = start + UInt64.ofNat j := by
  have hj : n - start = UInt64.ofNat j := by rw [← h, UInt64.ofNat_toNat]
  grind

open scoped Classical in
/-- Take callbacks that leave the count of instructions to the run, though they may move the program counter. When
a run with a limit returns, its count has advanced by the number of its steps that execute their instruction. This
is no more than the limit, and it is the limit unless the run fails or one of its steps leaves a request to stop.
Callbacks run only while fewer instructions have been executed. And if no callback requests a stop, two runs with
limits, one after the other, come to what one run does with the sum of the limits. -/
theorem limited_run_counts (env : Environment κ σ) (h : env.Only Act.Steady) (b : Bench κ σ) :
    (∀ limit r b', (Script.runLimited limit).Yields env b r b' → ∃ steps b₁,
      Rounds env (.unpaced (.below b.machine.chip.executed limit)) b.dropRequests steps r b₁ ∧ b'.seen = b₁.seen ∧
      b'.machine.chip.executed =
        b.machine.chip.executed + UInt64.ofNat (steps.countP fun s => Executes env s) ∧
      steps.countP (fun s => Executes env s) ≤ limit.toNat ∧
      (r = .ok () → steps.countP (fun s => Executes env s) = limit.toNat ∨
        ∃ s ∈ steps, ∃ e, Script.step.Yields env s (.ok ()) e ∧ e.stopPending)) ∧
    (∀ limit M, (Moment.start (Script.runLimited limit) b).Reaches env M →
      (M.bench.machine.chip.executed - b.machine.chip.executed).toNat ≤ limit.toNat ∧
      (M.told?.isSome ∨ M.stack.serving ≠ [] →
        (M.bench.machine.chip.executed - b.machine.chip.executed).toNat < limit.toNat)) ∧
    (env.Only Act.Onward → ∀ first second : UInt64, first.toNat + second.toNat < 2 ^ 64 → ∀ r v,
      (∃ b', (Script.runLimitedTwice first second).Yields env b r b' ∧ b'.seen = v) ↔
        ∃ b', (Script.runLimited (first + second)).Yields env b r b' ∧ b'.seen = v) := by
  refine ⟨fun limit r b' hy => ?_, fun limit M hM => runLimited_within h hM,
    fun honward first second hsum r v => Environment.Onward.runLimited_add ⟨h, honward⟩ hsum v⟩
  obtain ⟨b₁, hl, hseen⟩ := yields_loop_iff_course.2 (runLimited_comes.1 ⟨b', hy, rfl⟩)
  obtain ⟨steps, hr⟩ := exists_rounds_of_loop hl
  have hzero : (b.dropRequests.machine.chip.executed - b.machine.chip.executed).toNat = 0 := by
    rw [executed_dropRequests, UInt64.sub_self]
    rfl
  obtain ⟨hsum, hle⟩ := count_rounds h hr (by omega)
  rw [hzero, Nat.zero_add] at hsum
  refine ⟨steps, b₁, hr, hseen.symm, ?_, hsum ▸ hle, ?_⟩
  · rw [← (seen_eq.1 hseen).1]
    exact count_eq_of_toNat hsum
  · intro hok
    refine (limit_of_rounds hr hok fun hp => by cases hp).imp_left fun hleft => ?_
    rw [UInt64.lt_iff_toNat_lt] at hleft
    omega

/-- A machine whose count is about to wrap around, with a breakpoint that jumps over its first instruction. -/
def wrappingBench : Bench UInt16 Unit :=
  { jumpingBench [(0, 1)] with
    machine := (jumpingBench [(0, 1)]).machine.onChip fun c => { c with executed := 0xFFFFFFFFFFFFFFFF } }

open scoped Classical in
/-- Up to a limit of one, the first instruction is dropped and the second one is executed. A further run fails, and
so does one run with the sum of the limits. -/
theorem jumping_run_counts :
    (∃ b' steps b₁, (Script.runLimited 1).Yields jumping wrappingBench (.ok ()) b' ∧
      b'.machine.chip.executed = 0 ∧
      Rounds jumping (.unpaced (.below wrappingBench.machine.chip.executed 1)) wrappingBench.dropRequests steps
        (.ok ()) b₁ ∧
      steps.countP (fun s => Executes jumping s) = 1) ∧
    ∃ b', (Script.runLimitedTwice 1 1).Yields jumping wrappingBench (.error (.outOfBounds 2 2)) b' ∧
      ∃ b'', (Script.runLimited 2).Yields jumping wrappingBench (.error (.outOfBounds 2 2)) b'' ∧
        b''.seen = b'.seen := by
  obtain ⟨hcounts, -, hsplit⟩ := limited_run_counts jumping jumping_steady.steady wrappingBench
  have hfirst : ((Script.runLimited 1).run jumping 5 wrappingBench).map
      (fun x => (x.1, x.2.machine.chip.executed)) = some (.ok (), 0) := by
    decide +kernel
  obtain ⟨⟨r, b'⟩, hb', hx⟩ := Option.map_eq_some_iff.1 hfirst
  simp only [Prod.mk.injEq] at hx
  obtain ⟨rfl, hexecuted⟩ := hx
  obtain ⟨steps, b₁, hr, -, hcount, hle, -⟩ := hcounts 1 _ b' ⟨5, hb'⟩
  have hone : steps.countP (fun s => Executes jumping s) = 1 := by
    rcases Nat.le_one_iff_eq_zero_or_eq_one.1 hle with hzero | hone
    · rw [hzero, hexecuted] at hcount
      cases hcount
    · exact hone
  have htwice : ((Script.runLimitedTwice 1 1).run jumping 5 wrappingBench).map Prod.fst =
      some (.error (.outOfBounds 2 2)) := by
    decide +kernel
  obtain ⟨⟨r, b''⟩, hb'', hx⟩ := Option.map_eq_some_iff.1 htwice
  cases hx
  obtain ⟨b₂, hy, hseen⟩ :=
    (hsplit (fun _ _ => ⟨fun _ => id, trivial⟩) 1 1 (by decide) _ _).1 ⟨b'', ⟨5, hb''⟩, rfl⟩
  exact ⟨⟨b', steps, b₁, ⟨5, hb'⟩, hexecuted, hr, hone⟩, b'', ⟨5, hb''⟩, b₂, hy, hseen⟩

end Micro8051
