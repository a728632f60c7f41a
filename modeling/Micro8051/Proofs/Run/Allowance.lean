/-
Moments of runs with a limit. At no moment more instructions have run than the limit says, and a callback that
begins to run or is running finds that fewer have. A step counts its instruction last and calls nothing after
that (`Script.CountsLast`), and the run looks at the count before its next step.
-/
import Micro8051.Proofs.Moment.Registry
import Micro8051.Proofs.Run.Limit

namespace Micro8051

variable {κ σ α β : Type} {env : Environment κ σ} {start limit : UInt64} {r : Role} {b : Bench κ σ}

/-! ## Steps count last -/

namespace Script

/-- A script that leaves the count and makes no calls. -/
def Closing (s : Script κ σ α) : Prop := s.Only Act.Steady fun _ => False

/-- A script that leaves the count but for one instruction, and makes no calls after it has counted that one. -/
def CountsLast : Script κ σ α → Prop
  | .done _ => True
  | .look next => ∀ m w, (next m w).CountsLast
  | .act a next => (a.Steady ∧ next.CountsLast) ∨ (a = .edit Chip.count ∧ next.Closing)
  | .call c next => (∀ m, c ≠ .loop m) ∧ ∀ x, (next x).CountsLast

theorem Steady.bind_countsLast {s : Script κ σ α} {k : α → Script κ σ β} (h : s.Steady)
    (hk : ∀ a, (k a).CountsLast) : (s >>= k).CountsLast := by
  rw [bind_eq_bind]
  induction s with
  | done a => exact hk a
  | look next ih => exact fun m w => ih m w (h m w)
  | act a next ih => exact .inl ⟨h.1, ih h.2⟩
  | call c next ih => exact ⟨h.1, fun x => ih x (h.2 x)⟩

theorem chip_steady (f : Chip → α) : (chip f : Script κ σ α).Steady := Only.chip f

theorem report_steady (x : Record) : (report x : Script κ σ Unit).Steady := Only.perform trivial

theorem step_countsLast : (step : Script κ σ (Except Fault Unit)).CountsLast := by
  refine (chip_steady Chip.pc).bind_countsLast fun pc => (chip_steady _).bind_countsLast fun fetched => ?_
  cases fetched with
  | error fault => trivial
  | ok d =>
    have hvisit : (visit pc : Script κ σ Unit).Steady := steady_suffices.visit pc
    have hexecute : (execute d : Script κ σ Unit).Steady := steady_suffices.execute d
    refine hvisit.bind_countsLast fun _ => (chip_steady Chip.pc).bind_countsLast fun now => ?_
    dsimp only
    split
    · refine (report_steady _).bind_countsLast fun _ => hexecute.bind_countsLast fun _ => ?_
      exact .inr ⟨rfl, trivial⟩
    · exact (report_steady _).bind_countsLast fun _ => trivial

/-- A script that leaves the count and makes no calls but runs in one mode. -/
def Loops (m : Mode κ) (s : Script κ σ α) : Prop := s.Only Act.Steady fun c => c = .loop m

theorem unpacedRun_loops (g : Guard κ) : (unpacedRun g : Script κ σ (Except Fault Unit)).Loops (.unpaced g) := by
  refine ⟨fun _ => rfl, trivial, rfl, fun x => ?_⟩
  cases x with
  | ok u => trivial
  | error fault => exact ⟨trivial, trivial⟩

end Script

/-! ## Phases of a run with a limit -/

/-- A step of a run in mode `m` is in progress that has not counted yet, with the script `s` at hand. -/
inductive Stack.Uncounted (m : Mode κ) : {r : Role} → Script κ σ (r.Result (Except Fault Unit)) →
    Stack κ σ (Except Fault Unit) r → Prop
  | step {s : Script κ σ (Except Fault Unit)} {next : Except Fault Unit → Script κ σ (Except Fault Unit)}
      (hs : s.CountsLast) (hn : ∀ x, (next x).Loops m) :
      Uncounted m (r := .step) s (.stepping (r := .whole) m next .base)
  | telling {r : Role} {o : Occasion} {rest : List (Callback κ)} {s : Script κ σ Unit}
      {next : Script κ σ (r.Result (Except Fault Unit))} {below : Stack κ σ (Except Fault Unit) r} (hs : s.Steady)
      (h : Uncounted m next below) : Uncounted m (r := .callback) s (.telling o rest next below)

/-- No more instructions have run than the limit says. -/
def Bench.Within (start limit : UInt64) (b : Bench κ σ) : Prop :=
  (b.machine.chip.executed - start).toNat ≤ limit.toNat

/-- What is going on in a run with a limit. -/
inductive Moment.Limited (env : Environment κ σ) (start limit : UInt64) : Moment κ σ (Except Fault Unit) → Prop
  | whole {s : Script κ σ (Except Fault Unit)} {b : Bench κ σ} (hs : s.Loops (.unpaced (.below start limit)))
      (hb : b.Within start limit) : Limited env start limit ⟨.whole, s, .base, b⟩
  | checking {next : Except Fault Unit → Script κ σ (Except Fault Unit)} {b : Bench κ σ}
      (hn : ∀ x, (next x).Loops (.unpaced (.below start limit))) (hb : b.Within start limit) : Limited env start limit
        ⟨.condition, (Guard.below start limit).holds env, .checking (r := .whole) (.below start limit) next .base, b⟩
  | checked {next : Except Fault Unit → Script κ σ (Except Fault Unit)} {b : Bench κ σ}
      (hn : ∀ x, (next x).Loops (.unpaced (.below start limit))) (hb : b.Within start limit) : Limited env start limit
        ⟨.condition, .done (decide (b.machine.chip.executed - start < limit)),
          .checking (r := .whole) (.below start limit) next .base, b⟩
  | uncounted {M : Moment κ σ (Except Fault Unit)} (h : M.stack.Uncounted (.unpaced (.below start limit)) M.script)
      (hleft : M.bench.machine.chip.executed - start < limit) : Limited env start limit M
  | counted {s : Script κ σ (Except Fault Unit)} {next : Except Fault Unit → Script κ σ (Except Fault Unit)}
      {b : Bench κ σ} (hs : s.Closing) (hn : ∀ x, (next x).Loops (.unpaced (.below start limit)))
      (hb : b.Within start limit) : Limited env start limit
        ⟨.step, s, .stepping (r := .whole) (.unpaced (.below start limit)) next .base, b⟩

theorem Bench.within_of_lt (h : b.machine.chip.executed - start < limit) : b.Within start limit :=
  (UInt64.lt_iff_toNat_lt.1 h).le

theorem Act.Steady.within {a : Act κ σ} (ha : a.Steady) (h : b.Within start limit) :
    (a.apply b).Within start limit := by
  unfold Bench.Within
  rw [ha.executed]
  exact h

namespace Moment.Limited

variable {M M' : Moment κ σ (Except Fault Unit)}

theorem within (h : M.Limited env start limit) : M.bench.Within start limit := by
  cases h with
  | uncounted _ hleft => exact Bench.within_of_lt hleft
  | whole _ hb => exact hb
  | checking _ hb => exact hb
  | checked _ hb => exact hb
  | counted _ _ hb => exact hb

/-- Callbacks begin and run only while a step is in progress that has not counted yet. -/
theorem left (h : M.Limited env start limit) (hcallback : M.told?.isSome ∨ M.stack.serving ≠ []) :
    M.bench.machine.chip.executed - start < limit := by
  cases h with
  | uncounted _ hleft => exact hleft
  | @whole s b hs =>
    rcases hcallback with ht | hne
    · cases s with
      | done x => cases ht
      | look next => cases ht
      | act a next => cases ht
      | call c next =>
        cases c with
        | serve o => cases hs.1
        | loop m => cases ht
    · exact absurd rfl hne
  | checking => rcases hcallback with ht | hne <;> [cases ht; exact absurd rfl hne]
  | checked => rcases hcallback with ht | hne <;> [cases ht; exact absurd rfl hne]
  | @counted s next b hs =>
    rcases hcallback with ht | hne
    · cases s with
      | done x => cases ht
      | look next => cases ht
      | act a next => cases ht
      | call c next => exact hs.1.elim
    · exact absurd rfl hne

/-! ## From one moment to the next -/

section Advance

variable (henv : env.Only Act.Steady) {o : Occasion} {below : Stack κ σ (Except Fault Unit) r}
  {next : Script κ σ (r.Result (Except Fault Unit))}
include henv

theorem tell {cs : List (Callback κ)} (h : below.Uncounted (.unpaced (.below start limit)) next)
    (hleft : b.machine.chip.executed - start < limit) :
    (Moment.tell env o cs next below b).Limited env start limit := by
  cases cs with
  | nil => exact .uncounted h hleft
  | cons c rest => exact .uncounted (.telling (henv.respond Script.steady_suffices c o) h) hleft

theorem serve (h : below.Uncounted (.unpaced (.below start limit)) next)
    (hleft : b.machine.chip.executed - start < limit) :
    (Moment.serve env o next below b).Limited env start limit := by
  rcases eq_or_ne (b.machine.registry.callbacks o.slot) [] with hc | hc
  · rw [serve_of_nil hc]
    exact .uncounted h hleft
  · rw [serve_of_ne_nil hc]
    exact tell henv h hleft

/-- A step that has not counted yet goes on, or it counts, or it comes to its end without. -/
theorem advance_uncounted (h : M.stack.Uncounted (.unpaced (.below start limit)) M.script)
    (hleft : M.bench.machine.chip.executed - start < limit) (hM : M.advance env = some M') :
    M'.Limited env start limit := by
  obtain ⟨r, s, stack, b⟩ := M
  simp only at h hleft
  cases h with
  | @step s next hs hn =>
    cases s with
    | done x =>
      cases x with
      | ok u => cases hM; exact .whole ⟨rfl, hn⟩ (Bench.within_of_lt hleft)
      | error fault => cases hM; exact .whole (hn _) (Bench.within_of_lt hleft)
    | look next => cases hM; exact .uncounted (.step (hs _ _) hn) hleft
    | act a next =>
      cases hM
      obtain ⟨ha, hs⟩ | ⟨rfl, hs⟩ := hs
      · exact .uncounted (.step hs hn) ((ha.executed b).symm ▸ hleft)
      · refine .counted hs hn ?_
        obtain ⟨hlt, hsucc⟩ := toNat_executed_succ hleft
        exact hsucc.le.trans hlt
    | call c next =>
      cases c with
      | loop m => exact absurd rfl (hs.1 m)
      | serve o => cases hM; exact serve henv (.step (hs.2 ()) hn) hleft
  | @telling r o rest s next below hs h =>
    cases s with
    | done x => cases hM; exact tell henv h hleft
    | look next => cases hM; exact .uncounted (.telling (hs _ _) h) hleft
    | act a next => cases hM; exact .uncounted (.telling hs.2 h) ((hs.1.executed b).symm ▸ hleft)
    | call c next =>
      cases c with
      | loop m => exact absurd rfl (hs.1 m)
      | serve o => cases hM; exact serve henv (.telling (hs.2 ()) h) hleft

theorem advance (h : M.Limited env start limit) (hM : M.advance env = some M') : M'.Limited env start limit := by
  cases h with
  | uncounted h hleft => exact advance_uncounted henv h hleft hM
  | checking hn hb => cases hM; exact .checked hn hb
  | @checked next b hn hb =>
    by_cases hleft : b.machine.chip.executed - start < limit
    · simp only [Moment.advance, resume, decide_eq_true hleft, if_true] at hM
      cases hM
      exact .uncounted (.step Script.step_countsLast hn) hleft
    · simp only [Moment.advance, resume, decide_eq_false hleft] at hM
      cases hM
      exact .whole (hn _) hb
  | @counted s next b hs hn hb =>
    cases s with
    | done x =>
      cases x with
      | ok u => cases hM; exact .whole ⟨rfl, hn⟩ hb
      | error fault => cases hM; exact .whole (hn _) hb
    | look next => cases hM; exact .counted (hs _ _) hn hb
    | act a next => cases hM; exact .counted hs.2 hn (hs.1.within hb)
    | call c next => exact hs.1.elim
  | @whole s b hs hb =>
    cases s with
    | done x => cases hM
    | look next => cases hM; exact .whole (hs _ _) hb
    | act a next => cases hM; exact .whole hs.2 (hs.1.within hb)
    | call c next =>
      -- the only call is the next round, which ends the run or looks at the count
      cases hs.1
      cases hM
      obtain ⟨-, e⟩ | ⟨-, hm, -⟩ | ⟨-, hm, -⟩ | ⟨-, g, hm, e⟩ :=
        round_cases (r := .whole) env (.unpaced (.below start limit)) next .base b
      · rw [e]
        exact .whole (hs.2 _) hb
      · cases hm
      · cases hm
      · cases hm
        rw [e]
        exact .checking hs.2 hb

theorem reaches (h : M.Limited env start limit) (hM : M.Reaches env M') : M'.Limited env start limit := by
  induction hM with
  | refl => exact h
  | tail _ hM ih => exact ih.advance henv hM

end Advance

end Moment.Limited

/-- At no moment of a run with a limit more instructions have run than the limit says, and when callbacks begin to
run or are running, fewer have. -/
theorem runLimited_within (henv : env.Only Act.Steady) {M : Moment κ σ (Except Fault Unit)}
    (hM : (Moment.start (Script.runLimited limit) b).Reaches env M) :
    (M.bench.machine.chip.executed - b.machine.chip.executed).toNat ≤ limit.toNat ∧
      (M.told?.isSome ∨ M.stack.serving ≠ [] →
        (M.bench.machine.chip.executed - b.machine.chip.executed).toNat < limit.toNat) := by
  have hstart : (b.machine.chip.executed - b.machine.chip.executed).toNat ≤ limit.toNat := by
    rw [UInt64.sub_self]
    exact Nat.zero_le _
  obtain rfl | ⟨M₁, hM₁, hM⟩ := hM.cases_head
  · -- nothing is called before the run has looked at the count
    exact ⟨hstart, by rintro (h | h) <;> [cases h; exact absurd rfl h]⟩
  · cases hM₁
    have hlimited := Moment.Limited.reaches henv (.whole (Script.unpacedRun_loops _) hstart) hM
    exact ⟨hlimited.within, fun hcallback => UInt64.lt_iff_toNat_lt.1 (hlimited.left hcallback)⟩

end Micro8051
