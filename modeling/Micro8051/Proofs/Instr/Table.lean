/-
What the rows of the instruction table have in common: the length of a row is the opcode with the
operand bytes that its pattern names, and its mnemonic is the word for what the pattern does.
-/
import Micro8051.Image.Fetch

namespace Micro8051

/-! ## Lengths -/

/-- How many operand bytes a place takes. -/
def Place.length {β : Type} : Place β → Nat
  | .acc => 0
  | .reg _ => 0
  | .direct _ => 1
  | .indirect _ => 0

/-- How many operand bytes a source takes. -/
def Source.length {β : Type} : Source β → Nat
  | .place p => p.length
  | .imm _ => 1

/-- How many bytes an instruction takes, its opcode included. -/
def Instr.length {β : Type} : Instr β → Nat
  | .nop | .ret | .incDptr | .clr | .movxLoad | .movxStore => 1
  | .sjmp _ | .jz _ | .jnz _ | .push _ | .pop _ => 2
  | .ljmp .. | .lcall .. | .movDptr .. => 3
  | .djnz p _ => p.length + 2
  | .inc p | .dec p => p.length + 1
  | .mov dst src => dst.length + src.length + 1

@[simp] theorem Place.length_map {β γ : Type} (f : β → γ) (p : Place β) : (p.map f).length = p.length := by
  cases p <;> rfl

@[simp] theorem Source.length_map {β γ : Type} (f : β → γ) (s : Source β) : (s.map f).length = s.length := by
  cases s with
  | place p => exact p.length_map f
  | imm v => rfl

@[simp] theorem Instr.length_map {β γ : Type} (f : β → γ) (i : Instr β) : (i.map f).length = i.length := by
  cases i <;> simp [map, length]

theorem Row.length_eq {opcode : UInt8} {row : Row} (h : Row.of? opcode = some row) :
    row.length = row.pattern.length :=
  Row.of?_induction (P := fun row => row.length = row.pattern.length) (by decide)
    (by simp [withPointer, Instr.length, Place.length, Source.length])
    (by simp [withRegister, Instr.length, Place.length, Source.length]) h

/-! ## Mnemonics -/

/-- The word for what an instruction does. -/
def Instr.mnemonic {β : Type} : Instr β → String
  | .nop => "NOP"
  | .ljmp .. => "LJMP"
  | .lcall .. => "LCALL"
  | .ret => "RET"
  | .sjmp _ => "SJMP"
  | .jz _ => "JZ"
  | .jnz _ => "JNZ"
  | .djnz .. => "DJNZ"
  | .inc _ | .incDptr => "INC"
  | .dec _ => "DEC"
  | .clr => "CLR"
  | .mov .. | .movDptr .. => "MOV"
  | .movxLoad | .movxStore => "MOVX"
  | .push _ => "PUSH"
  | .pop _ => "POP"

@[simp] theorem Instr.mnemonic_map {β γ : Type} (f : β → γ) (i : Instr β) :
    (i.map f).mnemonic = i.mnemonic := by
  cases i <;> rfl

theorem Row.mnemonic_eq {opcode : UInt8} {row : Row} (h : Row.of? opcode = some row) :
    row.mnemonic = row.pattern.mnemonic :=
  Row.of?_induction (P := fun row => row.mnemonic = row.pattern.mnemonic) (by decide)
    (by simp [withPointer, Instr.mnemonic]) (by simp [withRegister, Instr.mnemonic]) h

end Micro8051
