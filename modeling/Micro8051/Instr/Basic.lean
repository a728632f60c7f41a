/-
The instructions, over the type `β` of their operand bytes: with `UInt8` for `β` they are complete,
with the name of an operand byte for `β` they are the patterns of the instruction table.
-/
import Micro8051.Register.Working

namespace Micro8051

/-- A byte of internal memory that an instruction reads or writes. -/
inductive Place (β : Type) where
  | acc
  | reg (r : Reg)
  | direct (addr : β)
  /-- The cell whose address is in a working register. -/
  | indirect (r : Reg)
  deriving DecidableEq

/-- Where a moved byte comes from. -/
inductive Source (β : Type) where
  | place (p : Place β)
  | imm (value : β)
  deriving DecidableEq

/-- An instruction. Relative jumps (`sjmp`, `jz`, `jnz`, `djnz`) go by a signed offset from the next
instruction; `djnz` subtracts one first and jumps unless the result is zero. -/
inductive Instr (β : Type) where
  | nop
  | ljmp (hi lo : β)
  /-- Pushes the address of the next instruction and jumps. -/
  | lcall (hi lo : β)
  | ret
  | sjmp (rel : β)
  | jz (rel : β)
  | jnz (rel : β)
  | djnz (p : Place β) (rel : β)
  | inc (p : Place β)
  | dec (p : Place β)
  | incDptr
  | clr
  | mov (dst : Place β) (src : Source β)
  | movDptr (hi lo : β)
  /-- Loads the accumulator from the external cell that the data pointer addresses. -/
  | movxLoad
  /-- Stores the accumulator in the external cell that the data pointer addresses. -/
  | movxStore
  | push (addr : β)
  | pop (addr : β)
  deriving DecidableEq

def Place.map {β γ : Type} (f : β → γ) : Place β → Place γ
  | .acc => .acc
  | .reg r => .reg r
  | .direct a => .direct (f a)
  | .indirect r => .indirect r

def Source.map {β γ : Type} (f : β → γ) : Source β → Source γ
  | .place p => .place (p.map f)
  | .imm v => .imm (f v)

namespace Instr

/-- The instruction with its operand bytes replaced. -/
def map {β γ : Type} (f : β → γ) : Instr β → Instr γ
  | .nop => .nop
  | .ljmp hi lo => .ljmp (f hi) (f lo)
  | .lcall hi lo => .lcall (f hi) (f lo)
  | .ret => .ret
  | .sjmp rel => .sjmp (f rel)
  | .jz rel => .jz (f rel)
  | .jnz rel => .jnz (f rel)
  | .djnz p rel => .djnz (p.map f) (f rel)
  | .inc p => .inc (p.map f)
  | .dec p => .dec (p.map f)
  | .incDptr => .incDptr
  | .clr => .clr
  | .mov dst src => .mov (dst.map f) (src.map f)
  | .movDptr hi lo => .movDptr (f hi) (f lo)
  | .movxLoad => .movxLoad
  | .movxStore => .movxStore
  | .push a => .push (f a)
  | .pop a => .pop (f a)

end Instr

end Micro8051
