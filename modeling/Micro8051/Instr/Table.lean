/-
The instruction table: for each opcode that is implemented its length, its mnemonic and what it
does. Status flags other than the bank select bits are not modelled, so instructions that touch
them have no row.
-/
import Micro8051.Instr.Basic

namespace Micro8051

/-- One of the two bytes that can follow an opcode. -/
inductive OperandByte where
  | first
  | second
  deriving DecidableEq

/-- What the table says of an opcode. -/
structure Row where
  opcode : UInt8
  /-- How many bytes the instruction takes, its opcode included. -/
  length : Nat
  mnemonic : String
  /-- The instruction, with the names of its operand bytes. -/
  pattern : Instr OperandByte
  deriving DecidableEq

namespace Row

open OperandByte

/-- The rows of single opcodes. -/
def single : List Row := [
  ⟨0x00, 1, "NOP", .nop⟩,
  ⟨0x02, 3, "LJMP", .ljmp first second⟩,
  ⟨0x04, 1, "INC", .inc .acc⟩,
  ⟨0x05, 2, "INC", .inc (.direct first)⟩,
  ⟨0x12, 3, "LCALL", .lcall first second⟩,
  ⟨0x14, 1, "DEC", .dec .acc⟩,
  ⟨0x15, 2, "DEC", .dec (.direct first)⟩,
  ⟨0x22, 1, "RET", .ret⟩,
  ⟨0x60, 2, "JZ", .jz first⟩,
  ⟨0x70, 2, "JNZ", .jnz first⟩,
  ⟨0x74, 2, "MOV", .mov .acc (.imm first)⟩,
  ⟨0x75, 3, "MOV", .mov (.direct first) (.imm second)⟩,
  ⟨0x80, 2, "SJMP", .sjmp first⟩,
  ⟨0x85, 3, "MOV", .mov (.direct second) (.place (.direct first))⟩,
  ⟨0x90, 3, "MOV", .movDptr first second⟩,
  ⟨0xA3, 1, "INC", .incDptr⟩,
  ⟨0xC0, 2, "PUSH", .push first⟩,
  ⟨0xD0, 2, "POP", .pop first⟩,
  ⟨0xD5, 3, "DJNZ", .djnz (.direct first) second⟩,
  ⟨0xE0, 1, "MOVX", .movxLoad⟩,
  ⟨0xE4, 1, "CLR", .clr⟩,
  ⟨0xE5, 2, "MOV", .mov .acc (.place (.direct first))⟩,
  ⟨0xF0, 1, "MOVX", .movxStore⟩,
  ⟨0xF5, 2, "MOV", .mov (.direct first) (.place .acc)⟩]

/-- The rows of the opcodes whose last bit selects the pointer `R0` or `R1`. -/
def withPointer (n : UInt8) (r : Reg) : List Row := [
  ⟨0x76 + n, 2, "MOV", .mov (.indirect r) (.imm first)⟩,
  ⟨0x86 + n, 2, "MOV", .mov (.direct first) (.place (.indirect r))⟩,
  ⟨0xA6 + n, 2, "MOV", .mov (.indirect r) (.place (.direct first))⟩,
  ⟨0xE6 + n, 1, "MOV", .mov .acc (.place (.indirect r))⟩,
  ⟨0xF6 + n, 1, "MOV", .mov (.indirect r) (.place .acc)⟩]

/-- The rows of the opcodes whose last three bits select a working register. -/
def withRegister (n : UInt8) (r : Reg) : List Row := [
  ⟨0x08 + n, 1, "INC", .inc (.reg r)⟩,
  ⟨0x18 + n, 1, "DEC", .dec (.reg r)⟩,
  ⟨0x78 + n, 2, "MOV", .mov (.reg r) (.imm first)⟩,
  ⟨0x88 + n, 2, "MOV", .mov (.direct first) (.place (.reg r))⟩,
  ⟨0xA8 + n, 2, "MOV", .mov (.reg r) (.place (.direct first))⟩,
  ⟨0xD8 + n, 2, "DJNZ", .djnz (.reg r) first⟩,
  ⟨0xE8 + n, 1, "MOV", .mov .acc (.place (.reg r))⟩,
  ⟨0xF8 + n, 1, "MOV", .mov (.reg r) (.place .acc)⟩]

/-- The row of an opcode, if it is implemented. -/
def of? (opcode : UInt8) : Option Row :=
  (single ++ withPointer (opcode &&& 1) (.ofLowBits (opcode &&& 1).toNat) ++
    withRegister (opcode &&& 7) (.ofLowBits (opcode &&& 7).toNat)).find? fun row =>
      row.opcode == opcode

/-! ## Rows -/

theorem opcode_of_of? {opcode : UInt8} {row : Row} (h : of? opcode = some row) :
    row.opcode = opcode := by
  simpa using List.find?_some h

/-- What holds of every row of the table holds of the row of an opcode. -/
theorem of?_induction {P : Row → Prop} (single : ∀ row ∈ single, P row)
    (pointer : ∀ n r, ∀ row ∈ withPointer n r, P row)
    (register : ∀ n r, ∀ row ∈ withRegister n r, P row) {opcode : UInt8} {row : Row}
    (h : of? opcode = some row) : P row := by
  have hm := List.mem_of_find?_eq_some h
  simp only [List.mem_append] at hm
  rcases hm with (hm | hm) | hm
  · exact single row hm
  · exact pointer _ _ row hm
  · exact register _ _ row hm

/-- An instruction takes one, two or three bytes. -/
theorem length_of_of? {opcode : UInt8} {row : Row} (h : of? opcode = some row) :
    1 ≤ row.length ∧ row.length ≤ 3 :=
  of?_induction (P := fun row => 1 ≤ row.length ∧ row.length ≤ 3) (by decide)
    (by simp [withPointer]) (by simp [withRegister]) h

end Row

end Micro8051
