/-
Quiet benches, on which no callback waits. There scripts act on the chip as if nobody watched:
reads, writes, instructions and steps are those of the chip alone.
-/
import Micro8051.Bench.Outcome
import Micro8051.Chip.Step

namespace Micro8051

variable {κ σ : Type}

/-- No callback waits on the bench. -/
def Bench.Quiet (b : Bench κ σ) : Prop := b.machine.registry.waiting = []

/-- The bench with another chip. -/
def Bench.withChip (b : Bench κ σ) (c : Chip) : Bench κ σ :=
  { b with machine := { b.machine with chip := c } }

theorem Bench.Quiet.withChip {b : Bench κ σ} (h : b.Quiet) (c : Chip) : (b.withChip c).Quiet := h

namespace Script

variable {answers : Answers κ σ} {b : Bench κ σ}

/-- The answers leave a quiet bench as it is when they serve an event. -/
def Serves (answers : Answers κ σ) : Prop :=
  ∀ (b : Bench κ σ) (o : Occasion), b.Quiet → answers (.serve o) b = some ((), b)

theorem serves_answer (env : Environment κ σ) (n : Nat) : Serves (answer env (n + 1)) := by
  intro b o h
  have : b.machine.registry.callbacks o.slot = [] := by
    simp only [Registry.callbacks]
    rw [h]
    rfl
  simp [answer, serveOn, this]

theorem runWith_serve (hs : Serves answers) (h : b.Quiet) (o : Occasion) :
    (serve o).runWith answers b = some ((), b) := by
  rw [serve, runWith_ask, hs b o h]

theorem runWith_read (hs : Serves answers) (h : b.Quiet) (addr : UInt8) :
    (read addr).runWith answers b = some (b.machine.chip.data.get addr, b) := by
  simp [read, runWith_bind, runWith_map, runWith_serve hs h]

theorem runWith_write (hs : Serves answers) (h : b.Quiet) (addr v : UInt8) :
    (write addr v).runWith answers b = some ((), b.withChip (b.machine.chip.setData addr v)) := by
  simp [write, runWith_bind, runWith_serve hs h, edit, Act.apply, Bench.withChip, Machine.onChip]

theorem runWith_ofCycles (hs : Serves answers) (h : b.Quiet) {α : Type} (p : Cycles α) :
    (ofCycles p).runWith answers b =
      some ((p.onChip b.machine.chip).1, b.withChip (p.onChip b.machine.chip).2) := by
  induction p generalizing b with
  | done a => rfl
  | read addr next ih =>
    simp only [ofCycles, ← bind_eq_bind, runWith_bind, runWith_read hs h, Option.bind_some]
    exact ih _ h
  | write addr v next ih =>
    simp only [ofCycles, ← bind_eq_bind, runWith_bind, runWith_write hs h, Option.bind_some]
    exact ih (h.withChip _)
  | bank next ih => exact ih _ h
  | readExternal addr next ih => exact ih _ h
  | writeExternal addr v next ih => exact ih (h.withChip (b.machine.chip.setXdata addr v))

theorem runWith_execute (hs : Serves answers) (h : b.Quiet) (d : Decoded) :
    (execute d).runWith answers b = some ((), b.withChip (b.machine.chip.execute d)) := by
  simp only [execute, runWith_bind, runWith_ofCycles hs h]
  rfl

/-- A step of a quiet bench is the step of its chip; the journal has a record of the instruction. -/
theorem runWith_step (hs : Serves answers) (h : b.Quiet) :
    step.runWith answers b =
      match fetch b.machine.chip.code b.machine.chip.pc with
      | .error fault => some (.error fault, b)
      | .ok d => some (.ok (), { b.withChip (b.machine.chip.execute d).count with
          journal := b.journal.add (.executing b.machine.chip.pc d.row.mnemonic) }) := by
  cases hf : fetch b.machine.chip.code b.machine.chip.pc with
  | error fault => simp [step, runWith_bind, hf]
  | ok d =>
    have hv : b.machine.registry.count (.visit b.machine.chip.pc) = 0 := by
      simp only [Registry.count, Registry.callbacks]
      rw [h]
      rfl
    have he (r : Record) := runWith_execute (b := (Act.report r).apply b) hs h d
    simp [step, runWith_bind, runWith_map, hf, visit, hv, runWith_serve hs h, report, edit, he]
    rfl

end Script

end Micro8051
