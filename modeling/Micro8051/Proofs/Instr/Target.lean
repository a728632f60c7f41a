/-
Where an instruction leads: to the instruction after it or to its target, a return aside. The target
is the word that ends the text of the operands.
-/
import Micro8051.Instr.Text
import Micro8051.Chip.Step
import Micro8051.Proofs.Image.Fetch
import Micro8051.Proofs.Text.Hex

namespace Micro8051

/-- The target of a jump or a call that ends before `next`. -/
def Instr.target? (next : UInt16) : Instr UInt8 → Option UInt16
  | .ljmp hi lo | .lcall hi lo => some (word hi lo)
  | .sjmp rel | .jz rel | .jnz rel | .djnz _ rel => some (displace next rel)
  | _ => none

/-- The mnemonics of the jumps and of the call. -/
def Instr.branches : List String := ["LJMP", "LCALL", "SJMP", "JZ", "JNZ", "DJNZ"]

variable {next t : UInt16} {i : Instr UInt8}

theorem lastWord?_relativeText (s : String) (next : UInt16) (rel : UInt8) :
    Text.lastWord? (s ++ relativeText next rel) = some (displace next rel) := by
  unfold relativeText
  rw [← String.append_assoc, Text.lastWord?_append_bracket, ← String.append_assoc, Text.lastWord?_append]

/-- The text of the operands of a jump ends with its target. -/
theorem Instr.lastWord?_operandText (h : i.target? next = some t) :
    ∃ s, i.operandText next = some s ∧ Text.lastWord? s = some t := by
  cases i with
  | ljmp hi lo => cases h; exact ⟨_, rfl, Text.lastWord?_append "C:" _⟩
  | lcall hi lo => cases h; exact ⟨_, rfl, Text.lastWord?_append "C:" _⟩
  | sjmp rel => cases h; exact ⟨_, rfl, by simpa using lastWord?_relativeText "" next rel⟩
  | jz rel => cases h; exact ⟨_, rfl, by simpa using lastWord?_relativeText "" next rel⟩
  | jnz rel => cases h; exact ⟨_, rfl, by simpa using lastWord?_relativeText "" next rel⟩
  | djnz p rel => cases h; exact ⟨_, rfl, lastWord?_relativeText _ next rel⟩
  | _ => cases h

theorem Instr.mnemonic_mem_branches : i.mnemonic ∈ branches ↔ (i.target? next).isSome := by
  cases i <;> simp [mnemonic, branches, target?]

/-- After an instruction the program counter is at the next one or at the target. -/
theorem Instr.pc_onChip (next : UInt16) (hi : i ≠ .ret) (c : Chip) :
    ((i.cycles next).onChip c).1 = next ∨ i.target? next = some ((i.cycles next).onChip c).1 := by
  cases i with
  | ret => exact absurd rfl hi
  | ljmp hb lb => exact .inr rfl
  | lcall hb lb => exact .inr rfl
  | sjmp rel => exact .inr rfl
  | jz rel =>
    rcases Decidable.em (c.data.get Sfr.acc = 0) with ha | ha
    · exact .inr (congrArg some (if_pos ha).symm)
    · exact .inl (if_neg ha)
  | jnz rel =>
    rcases Decidable.em (c.data.get Sfr.acc = 0) with ha | ha
    · exact .inl (if_pos ha)
    · exact .inr (congrArg some (if_neg ha).symm)
  | djnz p rel =>
    -- the cycles that change the byte depend on its place; only the byte they return matters
    have hpc : ((Instr.djnz p rel).cycles next).onChip c = _ := Cycles.onChip_bind (p.modify (· - 1)) _ c
    rw [hpc]
    rcases Decidable.em (((p.modify (· - 1)).onChip c).1 = 0) with hv | hv
    · exact .inl (if_pos hv)
    · exact .inr (congrArg some (if_neg hv).symm)
  | inc p => exact .inl (congrArg Prod.fst (Cycles.onChip_bind (p.modify (· + 1)) _ c))
  | dec p => exact .inl (congrArg Prod.fst (Cycles.onChip_bind (p.modify (· - 1)) _ c))
  | mov dst src =>
    -- whatever is read and written, the last cycle is followed by the next address
    left
    unfold cycles
    rw [Cycles.onChip_bind, Cycles.onChip_bind]
    rfl
  | _ => exact .inl rfl

end Micro8051
