/-
What requests to stop do to a run. One made during a step, by whatever runs inside the step, ends the run
before its next step. One made by the condition of the run is not looked at before the step that follows,
if the condition holds: that step is still taken, and fails the run if it fails. A request never reaches
beyond the end of its run.
-/
import Micro8051.Proofs.Run.Pacing
import Micro8051.Proofs.Run.Phases

namespace Micro8051

variable {κ σ α : Type} {env : Environment κ σ} {n i : Nat}

/-! ## Requests -/

/-- The script at hand requests a stop. -/
def Moment.RequestsStop (M : Moment κ σ α) : Prop := ∃ next, M.script = Script.stop >>= fun _ => next

/-- From `M` to `M'` a step of the run begins. -/
def Moment.BeginsStep (M M' : Moment κ σ α) : Prop :=
  M.stack.inProgress ≠ .step ∧ M'.stack.inProgress = .step

/-- After the moment `i`, no step and no condition of the run discards the request that waits. -/
def RequestKept (M : Nat → Moment κ σ α) (i n : Nat) : Prop :=
  ∀ k, i < k → k < n → (M k).stack.inProgress ≠ .whole → (M k).bench.stopPending →
    (M (k + 1)).bench.stopPending

theorem Moment.RequestsStop.stopPending {M M' : Moment κ σ α} (h : M.RequestsStop)
    (hM : M.advance env = some M') : M'.bench.stopPending := by
  obtain ⟨r, s, stack, b⟩ := M
  obtain ⟨(next : Script κ σ (r.Result α)), (rfl : s = Script.stop >>= fun _ => next)⟩ := h
  cases hM
  rfl

theorem Moment.not_beginsStep {M M' : Moment κ σ α} (h : M'.stack.inProgress = .whole) : ¬ M.BeginsStep M' := by
  rintro ⟨-, hstep⟩
  rw [h] at hstep
  cases hstep

/-! ## From a request to the end -/

section Single

variable {M M' : Moment κ σ (Except Fault Unit)}

/-- A request during a step leaves the step with nothing but `ok` to come to. -/
theorem Moment.RequestsStop.executing (h : M.RequestsStop) {p : Phase} (hat : M.At p)
    (hin : M.stack.inProgress = .step) (hM : M.advance env = some M') : M'.At .executing := by
  obtain ⟨r, s, stack, b⟩ := M
  obtain ⟨(next : Script κ σ (r.Result (Except Fault Unit))), (rfl : s = Script.stop >>= fun _ => next)⟩ := h
  cases hM
  cases hat with
  | fetching hs hn => exact .executing (.step hs hn)
  | executing h => exact .executing h.act
  | checking h => cases hin.symm.trans h.inProgress_eq.1
  | _ => cases hin

theorem Moment.RequestsStop.checking (h : M.RequestsStop) {p : Phase} (hat : M.At p)
    (hin : M.stack.inProgress = .condition) (hM : M.advance env = some M') : M'.At .checking := by
  obtain ⟨r, s, stack, b⟩ := M
  obtain ⟨(next : Script κ σ (r.Result (Except Fault Unit))), (rfl : s = Script.stop >>= fun _ => next)⟩ := h
  cases hM
  cases hat with
  | checking h => exact .checking h.act
  | executing h => cases hin.symm.trans h.inProgress_eq.1
  | _ => cases hin

/-- The run is about to stop: it has stopped, or it does so at the end of the step that is in progress. -/
def Moment.Stopping (M : Moment κ σ (Except Fault Unit)) : Prop :=
  M.At (.ended (.ok ())) ∨ M.bench.stopPending ∧ (M.At .executing ∨ M.At .between)

theorem Moment.Stopping.advance (h : M.Stopping) (hM : M.advance env = some M')
    (hkept : M.stack.inProgress ≠ .whole → M.bench.stopPending → M'.bench.stopPending) :
    M'.Stopping ∧ ¬ M.BeginsStep M' := by
  obtain h | ⟨hp, h | h⟩ := h
  · obtain ⟨p, h', rfl⟩ := h.advance hM
    exact ⟨.inl h', not_beginsStep h'.inProgress_eq⟩
  · have hstep : M.stack.inProgress = .step := h.inProgress_eq
    have hp' := hkept (by rw [hstep]; decide) hp
    refine ⟨.inr ⟨hp', ?_⟩, fun hb => hb.1 hstep⟩
    obtain ⟨p, h', rfl | rfl⟩ := h.advance hM
    · exact .inl h'
    · exact .inr h'
  · obtain ⟨p, h', hnext⟩ := h.advance hM
    obtain rfl := hnext hp
    exact ⟨.inl h', not_beginsStep h'.inProgress_eq⟩

theorem Moment.Stopping.reaches (h : M.Stopping) (hwhole : M.stack.inProgress = .whole) :
    ∃ b', M.Reaches env ⟨.whole, .done (.ok ()), .base, b'⟩ := by
  obtain h | ⟨hp, h | h⟩ := h
  · exact h.reaches env
  · rw [h.inProgress_eq] at hwhole
    cases hwhole
  · cases h with
    | @between m next b hn =>
      obtain ⟨p, h', hnext⟩ := Moment.round_at env (m := m) (b := b) hn
      obtain rfl := hnext hp
      obtain ⟨b', hr⟩ := h'.reaches env
      exact ⟨b', .head rfl hr⟩

/-- The step that the run still takes has begun, or it has failed. -/
def Moment.Overrun (M : Moment κ σ (Except Fault Unit)) : Prop :=
  M.bench.stopPending ∧ M.At .fetching ∨ ∃ fault, M.At (.ended (.error fault))

theorem Moment.Overrun.advance (h : M.Overrun) (hM : M.advance env = some M')
    (hkept : M.stack.inProgress ≠ .whole → M.bench.stopPending → M'.bench.stopPending) :
    (M'.Overrun ∨ M'.Stopping) ∧ ¬ M.BeginsStep M' := by
  obtain ⟨hp, h⟩ | ⟨fault, h⟩ := h
  · have hstep : M.stack.inProgress = .step := h.inProgress_eq
    have hp' := hkept (by rw [hstep]; decide) hp
    refine ⟨?_, fun hb => hb.1 hstep⟩
    obtain ⟨p, h', rfl | rfl | rfl | ⟨fault, rfl⟩⟩ := h.advance hM
    · exact .inl (.inl ⟨hp', h'⟩)
    · exact .inr (.inr ⟨hp', .inl h'⟩)
    · exact .inr (.inr ⟨hp', .inr h'⟩)
    · exact .inl (.inr ⟨fault, h'⟩)
  · obtain ⟨p, h', rfl⟩ := h.advance hM
    exact ⟨.inl (.inr ⟨fault, h'⟩), not_beginsStep h'.inProgress_eq⟩

end Single

/-! ## The moments of a run -/

section Moments

variable {M : Nat → Moment κ σ (Except Fault Unit)}

theorem at_of_moments (h0 : (M 0).At .opening) (hrun : ∀ k < n, (M k).advance env = some (M (k + 1))) :
    ∀ k ≤ n, ∃ p, (M k).At p := by
  intro k hk
  induction k with
  | zero => exact ⟨_, h0⟩
  | succ k ih =>
    obtain ⟨p, h⟩ := ih (by omega)
    obtain ⟨p', h', -⟩ := h.advance (hrun k (by omega))
    exact ⟨p', h'⟩

theorem stopping_of_moments (hrun : ∀ k < n, (M k).advance env = some (M (k + 1))) (hkept : RequestKept M i n)
    (h : (M (i + 1)).Stopping) : ∀ k, i < k → k ≤ n → (M k).Stopping := by
  intro k hik hk
  induction k, hik using Nat.le_induction with
  | base => exact h
  | succ k hik ih => exact ((ih (by omega)).advance (hrun k (by omega)) (hkept k hik (by omega))).1

/-- After a request by the condition of the run: the condition is still in progress, or the run is about to
stop, or the one step that it still takes has begun. -/
theorem tripped_of_moments (hrun : ∀ k < n, (M k).advance env = some (M (k + 1))) (hkept : RequestKept M i n)
    (hi : (M i).stack.inProgress = .condition) (hp : (M (i + 1)).bench.stopPending) (h : (M (i + 1)).At .checking) :
    ∀ k, i < k → k ≤ n →
      ((M k).bench.stopPending ∧ (M k).At .checking ∧ ∀ l, i ≤ l → l ≤ k → (M l).stack.inProgress = .condition) ∨
      (M k).Stopping ∨
      (M k).Overrun ∧ ∃ l, i < l ∧ l < k ∧ (M l).BeginsStep (M (l + 1)) := by
  intro k hik hk
  induction k, hik using Nat.le_induction with
  | base =>
    refine .inl ⟨hp, h, fun l hl hl' => ?_⟩
    obtain rfl | rfl : l = i ∨ l = i + 1 := by omega
    · exact hi
    · exact h.inProgress_eq
  | succ k hik ih =>
    have hM := hrun k (by omega)
    have hk' := hkept k hik (by omega)
    obtain ⟨hp, h, hl⟩ | h | ⟨h, l, hl⟩ := ih (by omega)
    · have hcond : (M k).stack.inProgress = .condition := h.inProgress_eq
      have hp' := hk' (by rw [hcond]; decide) hp
      obtain ⟨p, h', rfl | rfl | rfl⟩ := h.advance hM
      · refine .inl ⟨hp', h', fun l h1 h2 => ?_⟩
        obtain h2 | rfl : l ≤ k ∨ l = k + 1 := by omega
        · exact hl l h1 h2
        · exact h'.inProgress_eq
      · refine .inr (.inr ⟨.inl ⟨hp', h'⟩, k, hik, by omega, ?_, h'.inProgress_eq⟩)
        rw [hcond]
        decide
      · exact .inr (.inl (.inl h'))
    · exact .inr (.inl (h.advance hM hk').1)
    · obtain h | h := (h.advance hM hk').1
      · exact .inr (.inr ⟨h, l, by omega, by omega, hl.2.2⟩)
      · exact .inr (.inl h)

end Moments

/-! ## The next run -/

section NextRun

variable {s : Script κ σ (Except Fault Unit)}

/-- A run drops the requests that wait before its first step. -/
theorem Script.IsRun.after_withRequests (hs : s.IsRun) (b : Bench κ σ) (stop : Bool) (source : Option UInt8) :
    ∃ k, (∀ l ≤ k, ((Moment.start s b).after env l).stack.inProgress = .whole) ∧
      (Moment.start s (b.withRequests stop source)).after env k = (Moment.start s b).after env k := by
  cases hs with
  | paced =>
    refine ⟨2, fun l hl => ?_, rfl⟩
    obtain rfl | rfl | rfl : l = 0 ∨ l = 1 ∨ l = 2 := by omega
    all_goals rfl
  | unpaced g =>
    refine ⟨2, fun l hl => ?_, rfl⟩
    obtain rfl | rfl | rfl : l = 0 ∨ l = 1 ∨ l = 2 := by omega
    all_goals rfl
  | limited limit =>
    refine ⟨3, fun l hl => ?_, rfl⟩
    obtain rfl | rfl | rfl | rfl : l = 0 ∨ l = 1 ∨ l = 2 ∨ l = 3 := by omega
    all_goals rfl

theorem Script.IsRun.yields_withRequests (hs : s.IsRun) (b : Bench κ σ) (stop : Bool) (source : Option UInt8)
    {r : Except Fault Unit} {b' : Bench κ σ} : s.Yields env (b.withRequests stop source) r b' ↔ s.Yields env b r b' := by
  cases hs with
  | paced => rw [yields_start, yields_start]; rfl
  | unpaced g => rw [yields_unpacedRun, yields_unpacedRun]; rfl
  | limited limit =>
    unfold runLimited
    simp only [yields_bind, yields_chip, yields_unpacedRun]
    constructor
    · rintro ⟨_, _, ⟨rfl, rfl⟩, h⟩
      exact ⟨_, _, ⟨rfl, rfl⟩, h⟩
    · rintro ⟨_, _, ⟨rfl, rfl⟩, h⟩
      exact ⟨_, _, ⟨rfl, rfl⟩, h⟩

end NextRun

/-! ## Stopping -/

/-- Take the moments of any run, paced or not, with a condition or a limit, and a request to stop at the
moment `i`, made by whatever runs inside a step or the condition of the run, and not discarded there.

Made during a step, it ends the run: that step may come to its end, no other step begins, and the run has
the result `ok`. Made by the condition, it leaves room for one more step, which begins with the end of the
condition if that holds; the run then has the result `ok` unless this step fails.

Whatever requests wait when a run begins, they have no part in it: it goes the same way from its first step
on, and has the same outcomes. -/
theorem stop_ends_run (env : Environment κ σ) {s : Script κ σ (Except Fault Unit)} (hs : s.IsRun) {b : Bench κ σ}
    {M : Nat → Moment κ σ (Except Fault Unit)} (h0 : M 0 = .start s b)
    (hrun : ∀ k < n, (M k).advance env = some (M (k + 1))) (hi : i < n) (hstop : (M i).RequestsStop)
    (hkept : RequestKept M i n) :
    ((M i).stack.inProgress = .step →
      (∀ k, i ≤ k → k < n → ¬ (M k).BeginsStep (M (k + 1))) ∧
      ∀ j, i < j → j ≤ n → (M j).stack.inProgress = .whole → ∃ b', s.Yields env b (.ok ()) b') ∧
    ((M i).stack.inProgress = .condition →
      (∀ k, i ≤ k → k < n → (M k).BeginsStep (M (k + 1)) →
        ∀ l, i ≤ l → l ≤ k → (M l).stack.inProgress = .condition) ∧
      ∀ j, i < j → j ≤ n → (M j).stack.inProgress = .whole → ∃ r b', s.Yields env b r b' ∧
        (r = .ok () ∨ ∃ fault k, r = .error fault ∧ i < k ∧ k < j ∧ (M k).BeginsStep (M (k + 1)))) ∧
    ∀ {s' : Script κ σ (Except Fault Unit)}, s'.IsRun → ∀ (b₁ : Bench κ σ) (stop : Bool) (source : Option UInt8),
      (∃ k, (∀ l ≤ k, ((Moment.start s' b₁).after env l).stack.inProgress = .whole) ∧
        (Moment.start s' (b₁.withRequests stop source)).after env k = (Moment.start s' b₁).after env k) ∧
      ∀ r b₂, s'.Yields env (b₁.withRequests stop source) r b₂ ↔ s'.Yields env b₁ r b₂ := by
  have hphases := at_of_moments (by rw [h0]; exact .opening hs.opens) hrun
  have hreaches := reaches_of_moments hrun
  rw [h0] at hreaches
  obtain ⟨p, hat⟩ := hphases i hi.le
  have hp := hstop.stopPending (hrun i hi)
  refine ⟨fun hin => ?_, fun hin => ?_, fun hs' b₁ stop source =>
    ⟨hs'.after_withRequests b₁ stop source, fun r b₂ => hs'.yields_withRequests b₁ stop source⟩⟩
  · have hnext : (M (i + 1)).Stopping := .inr ⟨hp, .inl (hstop.executing hat hin (hrun i hi))⟩
    have hall := stopping_of_moments hrun hkept hnext
    refine ⟨fun k hik hk => ?_, fun j hij hj hwhole => ?_⟩
    · obtain rfl | hik : i = k ∨ i < k := by omega
      · exact fun hb => hb.1 hin
      · exact ((hall k hik hk.le).advance (hrun k hk) (hkept k hik hk)).2
    · obtain ⟨b', h⟩ := (hall j hij hj).reaches hwhole
      exact ⟨b', yields_iff_reaches.2 ((hreaches j hj).trans h)⟩
  · have hnext := hstop.checking hat hin (hrun i hi)
    have hall := tripped_of_moments hrun hkept hin hp hnext
    refine ⟨fun k hik hk hb => ?_, fun j hij hj hwhole => ?_⟩
    · obtain rfl | hik : i = k ∨ i < k := by omega
      · cases hnext.inProgress_eq.symm.trans hb.2
      · obtain ⟨-, -, hl⟩ | h | ⟨h, -⟩ := hall k hik hk.le
        · exact hl
        · exact absurd hb (h.advance (hrun k hk) (hkept k hik hk)).2
        · exact absurd hb (h.advance (hrun k hk) (hkept k hik hk)).2
    · obtain ⟨-, h, -⟩ | h | ⟨⟨-, h⟩ | ⟨fault, h⟩, k, hik, hk, hb⟩ := hall j hij hj
      · cases h.inProgress_eq.symm.trans hwhole
      · obtain ⟨b', h⟩ := h.reaches hwhole
        exact ⟨_, b', yields_iff_reaches.2 ((hreaches j hj).trans h), .inl rfl⟩
      · cases h.inProgress_eq.symm.trans hwhole
      · obtain ⟨b', h⟩ := h.reaches env
        exact ⟨_, b', yields_iff_reaches.2 ((hreaches j hj).trans h), .inr ⟨fault, k, rfl, hik, hk, hb⟩⟩

/-! ## Requests by a breakpoint and by a condition -/

/-- Callbacks that request a stop twice, and a condition that requests one and holds. -/
def stopper : Environment Nat Unit where
  respond _ _ := do
    Script.stop
    Script.stop
  holds _ := do
    Script.stop
    return true

/-- A machine with a breakpoint at the beginning of its program. -/
def stoppingBench (image : Image) : Bench Nat Unit where
  machine :=
    { chip := (Chip.new Pacer.period1MHz {}).load image
      registry := ({} : Registry (Callback Nat)).add (.visit 0) (.custom 0) }
  world := ()

/-- The moments of a run through two instructions that the breakpoint stops. -/
def stopped (k : Nat) : Moment Nat Unit (Except Fault Unit) :=
  (Moment.start (Script.unpacedRun .always) (stoppingBench #[0, 0])).after stopper k

theorem breakpoint_stops_run :
    (stopped 9).RequestsStop ∧ (stopped 10).RequestsStop ∧ (stopped 9).stack.inProgress = .step ∧
    (∀ k, 9 ≤ k → k < 18 → ¬ (stopped k).BeginsStep (stopped (k + 1))) ∧
    ∃ b', (Script.unpacedRun .always).Yields stopper (stoppingBench #[0, 0]) (.ok ()) b' := by
  have hsome : ∀ k < 18, ((stopped k).advance stopper).isSome := by decide +kernel
  have hkept : ∀ k < 18, (stopped k).stack.inProgress ≠ .whole → (stopped k).bench.stopPending →
      (stopped (k + 1)).bench.stopPending := by
    decide +kernel
  have hstop : (stopped 9).RequestsStop := ⟨_, rfl⟩
  have hstep : (stopped 9).stack.inProgress = .step := by decide +kernel
  obtain ⟨hnone, hends⟩ := (stop_ends_run (M := stopped) stopper (.unpaced .always) rfl
    (fun k hk => Moment.advance_after stopper (hsome k hk)) (by decide) hstop fun k _ hk => hkept k hk).1 hstep
  exact ⟨hstop, ⟨_, rfl⟩, hstep, hnone, hends 18 (by decide) (by decide) (by decide +kernel)⟩

/-- The moments of a run whose condition requests a stop and holds. -/
def tripped (image : Image) (k : Nat) : Moment Nat Unit (Except Fault Unit) :=
  (Moment.start (Script.runWhile 0) (stoppingBench image)).after stopper k

/-- The request is made while the run is in progress, and it is not discarded. Still a step begins after it,
and without a program the run fails. -/
theorem not_stop_before_next_step :
    (∀ image, (tripped image 3).RequestsStop) ∧
    ((tripped #[0, 0] 3).stack.inProgress = .condition ∧ RequestKept (tripped #[0, 0]) 3 19 ∧
      (tripped #[0, 0] 4).BeginsStep (tripped #[0, 0] 5) ∧
      (tripped #[0, 0] 3).bench.machine.chip.executed = 0 ∧ (tripped #[0, 0] 19).bench.machine.chip.executed = 1) ∧
    (tripped #[] 3).stack.inProgress = .condition ∧ RequestKept (tripped #[]) 3 9 ∧
      ∃ b', (Script.runWhile 0).Yields stopper (stoppingBench #[]) (.error (.outOfBounds 0 0)) b' := by
  have hkept : ∀ k < 19, (tripped #[0, 0] k).stack.inProgress ≠ .whole → (tripped #[0, 0] k).bench.stopPending →
      (tripped #[0, 0] (k + 1)).bench.stopPending := by
    decide +kernel
  have hkept' : ∀ k < 9, (tripped #[] k).stack.inProgress ≠ .whole → (tripped #[] k).bench.stopPending →
      (tripped #[] (k + 1)).bench.stopPending := by
    decide +kernel
  exact ⟨fun _ => ⟨_, rfl⟩,
    ⟨by decide +kernel, fun k _ hk => hkept k hk, ⟨by decide +kernel, by decide +kernel⟩, by decide +kernel⟩,
    by decide +kernel, fun k _ hk => hkept' k hk, _, 5, rfl⟩

end Micro8051
