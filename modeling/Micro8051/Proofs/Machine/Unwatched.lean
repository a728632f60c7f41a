/-
Steps of machines without callbacks. A step of such a machine always has an outcome, and what it
does is the step of the chip.
-/
import Mathlib.Logic.Function.Iterate
import Mathlib.Logic.Relation
import Mathlib.Tactic.Choose
import Micro8051.Bench.Quiet
import Micro8051.Proofs.Chip.Frame

namespace Micro8051

variable {κ σ : Type} {env : Environment κ σ} {b b' : Bench κ σ}

/-- A step of the machine, successful or not, leads from `b` to `b'`. -/
def Bench.Next (env : Environment κ σ) (b b' : Bench κ σ) : Prop :=
  ∃ r, Script.step.Yields env b r b'

namespace Bench.Quiet

theorem yields_step (h : b.Quiet) {r : Except Fault Unit} (hs : Script.step.Yields env b r b') :
    b'.Quiet ∧ b'.machine.chip = b.machine.chip.stepped ∧ r = b.machine.chip.step.map fun _ => () := by
  obtain ⟨bound, hs⟩ := hs
  have hs := Script.run_mono env (Nat.le_succ bound) hs
  rw [Script.run, Script.runWith_step (Script.serves_answer env bound) h] at hs
  unfold Chip.stepped Chip.step
  cases hf : fetch b.machine.chip.code b.machine.chip.pc with
  | error fault => rw [hf] at hs; cases hs; exact ⟨h, rfl, rfl⟩
  | ok d => rw [hf] at hs; cases hs; exact ⟨h, rfl, rfl⟩

theorem next (h : b.Quiet) (hn : b.Next env b') :
    b'.Quiet ∧ b'.machine.chip = b.machine.chip.stepped := by
  obtain ⟨r, hs⟩ := hn
  obtain ⟨hq, hc, -⟩ := h.yields_step hs
  exact ⟨hq, hc⟩

/-- A machine without callbacks can always take a step. -/
theorem exists_yields_step (h : b.Quiet) (env : Environment κ σ) : ∃ r b', Script.step.Yields env b r b' := by
  have hs := Script.runWith_step (Script.serves_answer env 0) h
  cases hf : fetch b.machine.chip.code b.machine.chip.pc with
  | error fault => rw [hf] at hs; exact ⟨_, _, 1, hs⟩
  | ok d => rw [hf] at hs; exact ⟨_, _, 1, hs⟩

/-- A step succeeds where there is an instruction. -/
theorem yields_step_ok_of_next (h : b.Quiet) (hn : b.Next env b') {d : Decoded}
    (hd : b.machine.chip.current? = some d) : Script.step.Yields env b (.ok ()) b' := by
  obtain ⟨r, hs⟩ := hn
  obtain ⟨-, -, hr⟩ := h.yields_step hs
  have hok : b.machine.chip.step = .ok (b.machine.chip.execute d).count := by
    rw [Chip.step, Chip.current?_eq_some.1 hd]
  rw [hr, hok] at hs
  exact hs

/-! ## Runs -/

/-- From a machine without callbacks step after step can be taken, whether the steps succeed or not. -/
theorem exists_run (h : b.Quiet) (env : Environment κ σ) :
    ∃ B : Nat → Bench κ σ, B 0 = b ∧ ∀ k, (B k).Next env (B (k + 1)) := by
  have hnext : ∀ b : {b : Bench κ σ // b.Quiet}, ∃ b' : {b : Bench κ σ // b.Quiet}, b.1.Next env b'.1 := by
    rintro ⟨b, hb⟩
    obtain ⟨r, b', hs⟩ := hb.exists_yields_step env
    exact ⟨⟨b', (hb.yields_step hs).1⟩, r, hs⟩
  choose f hf using hnext
  refine ⟨fun k => (f^[k] ⟨b, h⟩).1, rfl, fun k => ?_⟩
  simp only [Function.iterate_succ_apply']
  exact hf _

section Run

variable {B : Nat → Bench κ σ}

/-- A run of a machine without callbacks is the run of its chip. -/
theorem run (h : (B 0).Quiet) (hn : ∀ k, (B k).Next env (B (k + 1))) (k : Nat) :
    (B k).Quiet ∧ (B k).machine.chip = Chip.stepped^[k] (B 0).machine.chip := by
  induction k with
  | zero => exact ⟨h, rfl⟩
  | succ k ih =>
    obtain ⟨hquiet, hchip⟩ := ih.1.next (hn k)
    refine ⟨hquiet, ?_⟩
    rw [Function.iterate_succ_apply', hchip, ih.2]

end Run

end Bench.Quiet

/-! ## Bare machines -/

/-- A chip without callbacks, and without a world and a journal. -/
def Bench.bare (c : Chip) : Bench Unit Unit := { machine := { chip := c }, world := () }

/-- The environment of bare machines. -/
def Environment.idle : Environment Unit Unit := { respond := fun _ _ => pure (), holds := fun _ => pure true }

theorem Bench.next_bare (c : Chip) : (Bench.bare c).Next .idle (Bench.bare c.stepped) := by
  have hs := Script.runWith_step (Script.serves_answer Environment.idle 0) (b := Bench.bare c) rfl
  unfold Chip.stepped Chip.step
  cases hf : fetch c.code c.pc with
  | error fault =>
    simp only [Bench.bare, hf] at hs
    exact ⟨_, 1, hs⟩
  | ok d =>
    simp only [Bench.bare, hf] at hs
    exact ⟨_, 1, hs⟩

theorem Bench.steps_bare (c : Chip) :
    ∀ n, Relation.ReflTransGen (Bench.Next .idle) (Bench.bare c) (Bench.bare (Chip.stepped^[n] c))
  | 0 => .refl
  | n + 1 => by
    rw [Function.iterate_succ_apply']
    exact (Bench.steps_bare c n).tail (Bench.next_bare _)

end Micro8051
