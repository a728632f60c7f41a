/-
What a chip does when nobody watches it: the cycles of an instruction act on its memories directly,
and a step is a function of the chip alone.
-/
import Micro8051.Chip.Basic
import Micro8051.Instr.Cycles

namespace Micro8051

/-- The result of a program of bus cycles on an unwatched chip, and the chip after it. -/
def Cycles.onChip {α : Type} : Cycles α → Chip → α × Chip
  | .done a, c => (a, c)
  | .read addr next, c => (next (c.data.get addr)).onChip c
  | .write addr v next, c => next.onChip (c.setData addr v)
  | .bank next, c => (next c.bank).onChip c
  | .readExternal addr next, c => (next (c.xdata.get addr)).onChip c
  | .writeExternal addr v next, c => next.onChip (c.setXdata addr v)

theorem Cycles.onChip_bind {α β : Type} (p : Cycles α) (k : α → Cycles β) (c : Chip) :
    (p >>= k).onChip c = (k (p.onChip c).1).onChip (p.onChip c).2 := by
  show (p.bind k).onChip c = _
  induction p generalizing c with
  | done a => rfl
  | read a next ih => exact ih _ c
  | write a v next ih => exact ih (c.setData a v)
  | bank next ih => exact ih _ c
  | readExternal a next ih => exact ih _ c
  | writeExternal a v next ih => exact ih (c.setXdata a v)

namespace Chip

/-- The chip after a decoded instruction. -/
def execute (c : Chip) (d : Decoded) : Chip :=
  let (pc, c) := d.cycles.onChip c
  c.jump pc

/-- The chip after one step, or the fault that stands in its way. -/
def step (c : Chip) : Except Fault Chip :=
  match fetch c.code c.pc with
  | .error fault => .error fault
  | .ok d => .ok (c.execute d).count

end Chip

end Micro8051
