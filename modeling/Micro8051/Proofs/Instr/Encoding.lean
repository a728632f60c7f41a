/-
Encoding: the bytes of an instruction from what it is. Fetching and encoding are inverse to each other, so no
two rows of the table stand for the same instruction.
-/
import Mathlib.Data.FinEnum
import Mathlib.Tactic
import Micro8051.Proofs.Image.Fetch

namespace Micro8051

/-! ## Rows by register -/

theorem Reg.toByte_ofLowBits_and_one (opcode : UInt8) : (ofLowBits (opcode &&& 1).toNat).toByte = opcode &&& 1 := by
  revert opcode
  decide +kernel

theorem Reg.toByte_ofLowBits_and_seven (opcode : UInt8) : (ofLowBits (opcode &&& 7).toNat).toByte = opcode &&& 7 := by
  revert opcode
  decide +kernel

/-- The row of an opcode is that of a single opcode, or it belongs to the register that the opcode selects. -/
theorem Row.mem_of_of? {opcode : UInt8} {row : Row} (h : of? opcode = some row) :
    row ∈ single ∨ (∃ r : Reg, row ∈ withPointer r.toByte r) ∨ ∃ r : Reg, row ∈ withRegister r.toByte r := by
  have hm := List.mem_of_find?_eq_some h
  simp only [List.mem_append] at hm
  rcases hm with (hm | hm) | hm
  · exact .inl hm
  · exact .inr (.inl ⟨_, by rwa [Reg.toByte_ofLowBits_and_one]⟩)
  · exact .inr (.inr ⟨_, by rwa [Reg.toByte_ofLowBits_and_seven]⟩)

/-! ## Encoding -/

/-- The bytes of an instruction, opcode first, if it has an opcode. -/
def Instr.encode? : Instr UInt8 → Option (List UInt8)
  | .nop => some [0x00]
  | .ljmp hi lo => some [0x02, hi, lo]
  | .lcall hi lo => some [0x12, hi, lo]
  | .ret => some [0x22]
  | .sjmp rel => some [0x80, rel]
  | .jz rel => some [0x60, rel]
  | .jnz rel => some [0x70, rel]
  | .djnz (.reg r) rel => some [0xD8 + r.toByte, rel]
  | .djnz (.direct a) rel => some [0xD5, a, rel]
  | .inc .acc => some [0x04]
  | .inc (.direct a) => some [0x05, a]
  | .inc (.reg r) => some [0x08 + r.toByte]
  | .dec .acc => some [0x14]
  | .dec (.direct a) => some [0x15, a]
  | .dec (.reg r) => some [0x18 + r.toByte]
  | .incDptr => some [0xA3]
  | .clr => some [0xE4]
  | .mov .acc (.imm v) => some [0x74, v]
  | .mov .acc (.place (.direct a)) => some [0xE5, a]
  | .mov .acc (.place (.indirect r)) => some [0xE6 + r.toByte]
  | .mov .acc (.place (.reg r)) => some [0xE8 + r.toByte]
  | .mov (.direct a) (.imm v) => some [0x75, a, v]
  | .mov (.direct a) (.place .acc) => some [0xF5, a]
  | .mov (.direct a) (.place (.direct a')) => some [0x85, a', a]
  | .mov (.direct a) (.place (.indirect r)) => some [0x86 + r.toByte, a]
  | .mov (.direct a) (.place (.reg r)) => some [0x88 + r.toByte, a]
  | .mov (.indirect r) (.imm v) => some [0x76 + r.toByte, v]
  | .mov (.indirect r) (.place .acc) => some [0xF6 + r.toByte]
  | .mov (.indirect r) (.place (.direct a)) => some [0xA6 + r.toByte, a]
  | .mov (.reg r) (.imm v) => some [0x78 + r.toByte, v]
  | .mov (.reg r) (.place .acc) => some [0xF8 + r.toByte]
  | .mov (.reg r) (.place (.direct a)) => some [0xA8 + r.toByte, a]
  | .movDptr hi lo => some [0x90, hi, lo]
  | .movxLoad => some [0xE0]
  | .movxStore => some [0xF0]
  | .push a => some [0xC0, a]
  | .pop a => some [0xD0, a]
  | _ => none

/-- The instructions of a row are encoded with its opcode, followed by as many operand bytes as it says. -/
theorem Row.encode?_pattern {opcode : UInt8} {row : Row} (h : of? opcode = some row) (f : OperandByte → UInt8) :
    (row.pattern.map f).encode? = some (row.opcode :: [f .first, f .second].take (row.length - 1)) := by
  obtain hm | ⟨r, hm⟩ | ⟨r, hm⟩ := mem_of_of? h
  · unfold single at hm
    fin_cases hm <;> rfl
  · unfold withPointer at hm
    fin_cases hm <;> rfl
  · unfold withRegister at hm
    fin_cases hm <;> rfl

/-- What is fetched is encoded as the bytes it was fetched from. -/
theorem encode?_of_fetch {image : Image} {pc : UInt16} {d : Decoded} (h : fetch image pc = .ok d) :
    d.instr.encode? = some d.bytes := by
  obtain ⟨_, _, hr, _⟩ := fetch_eq_ok h
  exact Row.encode?_pattern hr d.operand

/-- Instructions that are encoded alike have the same row. -/
theorem row_eq_of_bytes {image image' : Image} {pc pc' : UInt16} {d d' : Decoded} (h : fetch image pc = .ok d)
    (h' : fetch image' pc' = .ok d') (hb : d.bytes = d'.bytes) : d.row = d'.row := by
  obtain ⟨_, _, hr, _⟩ := fetch_eq_ok h
  obtain ⟨_, _, hr', _⟩ := fetch_eq_ok h'
  have hop : d.row.opcode = d'.row.opcode := (List.cons.inj hb).1
  rw [← Row.opcode_of_of? hr, hop, Row.opcode_of_of? hr', hr'] at hr
  exact (Option.some.inj hr).symm

end Micro8051
