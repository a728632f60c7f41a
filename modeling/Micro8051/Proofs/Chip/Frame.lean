/-
What programs of bus cycles leave alone on an unwatched chip: everything but the memories, and the
cells of internal memory that no cycle writes. Steps of unwatched chips, failed ones included.
-/
import Micro8051.Chip.Step
import Micro8051.Proofs.Image.Fetch

namespace Micro8051

/-! ## Cells that are not written -/

namespace Cycles

variable {α : Type}

/-- The writes to internal memory that a program makes on an unwatched chip, in order. -/
def stores : Cycles α → Chip → List (UInt8 × UInt8)
  | .done _, _ => []
  | .read addr next, c => (next (c.data.get addr)).stores c
  | .write addr v next, c => (addr, v) :: next.stores (c.setData addr v)
  | .bank next, c => (next c.bank).stores c
  | .readExternal addr next, c => (next (c.xdata.get addr)).stores c
  | .writeExternal addr v next, c => next.stores (c.setXdata addr v)

/-- A cell that a program does not write is unchanged. -/
theorem get_onChip {a : UInt8} (p : Cycles α) (c : Chip) (h : ∀ s ∈ p.stores c, s.1 ≠ a) :
    (p.onChip c).2.data.get a = c.data.get a := by
  induction p generalizing c with
  | done _ => rfl
  | read addr next ih => exact ih _ c h
  | write addr v next ih =>
    rw [stores, List.forall_mem_cons] at h
    exact (ih _ h.2).trans (Memory.get_set_ne _ h.1.symm v)
  | bank next ih => exact ih _ c h
  | readExternal addr next ih => exact ih _ c h
  | writeExternal addr v next ih => exact ih (c.setXdata addr v) h

/-- A program changes the memories only. -/
theorem onChip_frame (p : Cycles α) (c : Chip) :
    (p.onChip c).2 = { c with data := (p.onChip c).2.data, xdata := (p.onChip c).2.xdata } := by
  induction p generalizing c with
  | done _ => rfl
  | read addr next ih => exact ih _ c
  | write addr v next ih => exact ih (c.setData addr v)
  | bank next ih => exact ih _ c
  | readExternal addr next ih => exact ih _ c
  | writeExternal addr v next ih => exact ih (c.setXdata addr v)

theorem code_onChip (p : Cycles α) (c : Chip) : (p.onChip c).2.code = c.code := by
  rw [onChip_frame]

end Cycles

/-! ## Steps -/

namespace Chip

/-- The instruction at the program counter, if there is one. -/
def current? (c : Chip) : Option Decoded := (fetch c.code c.pc).toOption

/-- The chip after a step; a step that fails leaves it as it is. -/
def stepped (c : Chip) : Chip :=
  match c.step with
  | .ok c' => c'
  | .error _ => c

theorem current?_eq_some {c : Chip} {d : Decoded} : c.current? = some d ↔ fetch c.code c.pc = .ok d := by
  unfold current?
  cases fetch c.code c.pc <;> simp [Except.toOption]

theorem stepped_of_current? {c : Chip} {d : Decoded} (h : c.current? = some d) :
    c.stepped = (c.execute d).count := by
  unfold stepped step
  rw [current?_eq_some.1 h]

theorem stepped_of_current?_eq_none {c : Chip} (h : c.current? = none) : c.stepped = c := by
  unfold stepped step
  cases hf : fetch c.code c.pc with
  | error fault => rfl
  | ok d => rw [current?_eq_some.2 hf] at h; cases h

@[simp] theorem data_count_execute (c : Chip) (d : Decoded) :
    (c.execute d).count.data = (d.cycles.onChip c).2.data := rfl

@[simp] theorem pc_count_execute (c : Chip) (d : Decoded) :
    (c.execute d).count.pc = (d.cycles.onChip c).1 := rfl

@[simp] theorem code_count_execute (c : Chip) (d : Decoded) : (c.execute d).count.code = c.code :=
  d.cycles.code_onChip c

end Chip

end Micro8051
