/-
Addressing modes. A place is one cell of internal memory, whichever way an instruction names it. So the
instructions that name a working register, a pointer or the accumulator do what those do that give the
address of the same cell, down to the decision whether to jump, also where the cell is the status word, the
pointer itself or a register of another bank.
-/
import Micro8051.Proofs.Instr.Target
import Micro8051.Proofs.Machine.Unwatched
import Micro8051.Proofs.Observers.Harmless

namespace Micro8051

/-! ## Places -/

/-- The cell that a place is on a chip. -/
def Place.cell (c : Chip) : Place UInt8 → UInt8
  | .acc => Sfr.acc
  | .reg r => c.cellOf r
  | .direct a => a
  | .indirect r => c.data.get (c.cellOf r)

/-- The byte that a source has on a chip. -/
def Source.value (c : Chip) : Source UInt8 → UInt8
  | .place p => c.data.get (p.cell c)
  | .imm v => v

theorem Place.onChip_load (p : Place UInt8) (c : Chip) : p.load.onChip c = (c.data.get (p.cell c), c) := by
  cases p <;> rfl

theorem Place.onChip_store (p : Place UInt8) (v : UInt8) (c : Chip) :
    (p.store v).onChip c = ((), c.setData (p.cell c) v) := by
  cases p <;> rfl

theorem Source.onChip_load (s : Source UInt8) (c : Chip) : s.load.onChip c = (s.value c, c) := by
  cases s with
  | place p => exact p.onChip_load c
  | imm v => rfl

/-- A place that is modified is found twice, and it is the same cell both times. -/
theorem Place.onChip_modify (p : Place UInt8) (f : UInt8 → UInt8) (c : Chip) :
    (p.modify f).onChip c = (f (c.data.get (p.cell c)), c.setData (p.cell c) (f (c.data.get (p.cell c)))) := by
  unfold modify
  rw [Cycles.onChip_bind, p.onChip_load, Cycles.onChip_bind, p.onChip_store]
  rfl

/-! ## Effects -/

/-- What an instruction does that changes one cell: which cell, what it holds afterwards, and whether the
instruction jumps. -/
structure Effect where
  cell : UInt8
  value : UInt8
  taken : Bool
  deriving DecidableEq

/-- The effect of an instruction that counts, clears or moves a byte. -/
def Instr.effect? (c : Chip) : Instr UInt8 → Option Effect
  | .djnz p _ => some ⟨p.cell c, c.data.get (p.cell c) - 1, c.data.get (p.cell c) - 1 ≠ 0⟩
  | .inc p => some ⟨p.cell c, c.data.get (p.cell c) + 1, false⟩
  | .dec p => some ⟨p.cell c, c.data.get (p.cell c) - 1, false⟩
  | .clr => some ⟨Sfr.acc, 0, false⟩
  | .mov dst src => some ⟨dst.cell c, src.value c, false⟩
  | _ => none

/-- Where an instruction that jumps by an offset or not at all leaves the program counter. -/
def Decoded.successor (d : Decoded) (taken : Bool) : UInt16 :=
  if taken then (d.instr.target? d.next).getD d.next else d.next

theorem Decoded.onChip_of_effect {d : Decoded} {c : Chip} {e : Effect} (h : d.instr.effect? c = some e) :
    d.cycles.onChip c = (d.successor e.taken, c.setData e.cell e.value) := by
  unfold cycles successor
  generalize d.instr = i at h ⊢
  cases i with
  | djnz p rel =>
    cases h
    rw [Instr.cycles, Cycles.onChip_bind, p.onChip_modify]
    by_cases hv : c.data.get (p.cell c) - 1 = 0
    · simp only [hv]
      rfl
    · simp only [ne_eq, hv, not_false_eq_true, decide_true]
      rfl
  | inc p =>
    cases h
    rw [Instr.cycles, Cycles.onChip_bind, p.onChip_modify]
    rfl
  | dec p =>
    cases h
    rw [Instr.cycles, Cycles.onChip_bind, p.onChip_modify]
    rfl
  | clr =>
    cases h
    rfl
  | mov dst src =>
    cases h
    rw [Instr.cycles, Cycles.onChip_bind, src.onChip_load, Cycles.onChip_bind, dst.onChip_store]
    rfl
  | _ => cases h

/-! ## Instructions and their bytes -/

/-- The operand bytes that follow an opcode; zero where there are none. -/
def OperandByte.ofList (operands : List UInt8) : OperandByte → UInt8
  | .first => operands.getD 0 0
  | .second => operands.getD 1 0

/-- The instruction with the given bytes, its opcode first. -/
def Instr.decode? : List UInt8 → Option (Instr UInt8)
  | [] => none
  | opcode :: operands => (Row.of? opcode).map fun row => row.pattern.map (OperandByte.ofList operands)

/-- A pattern names operand bytes of its row only. -/
theorem Row.map_pattern_congr {opcode : UInt8} {row : Row} (h : of? opcode = some row) {f g : OperandByte → UInt8}
    (h₁ : 1 < row.length → f .first = g .first) (h₂ : 2 < row.length → f .second = g .second) :
    row.pattern.map f = row.pattern.map g := by
  revert h₁ h₂
  refine of?_induction (P := fun row => (1 < row.length → f .first = g .first) →
    (2 < row.length → f .second = g .second) → row.pattern.map f = row.pattern.map g) ?_ ?_ ?_ h
  · simp +contextual [single, Instr.map, Place.map, Source.map]
  · simp +contextual [withPointer, Instr.map, Place.map, Source.map]
  · simp +contextual [withRegister, Instr.map, Place.map, Source.map]

theorem Decoded.decode?_bytes {d : Decoded} (h : Row.of? d.row.opcode = some d.row) :
    Instr.decode? d.bytes = some d.instr := by
  obtain ⟨pc, row, first, second⟩ := d
  simp only [bytes, Instr.decode?, instr] at h ⊢
  rw [h, Option.map_some]
  refine congrArg some (Row.map_pattern_congr h (fun hl => ?_) fun hl => ?_)
  · obtain ⟨n, hn⟩ : ∃ n, row.length - 1 = n + 1 := ⟨row.length - 2, by omega⟩
    rw [hn]
    rfl
  · obtain ⟨n, hn⟩ : ∃ n, row.length - 1 = n + 2 := ⟨row.length - 3, by omega⟩
    rw [hn]
    rfl

/-! ## Direct forms -/

/-- The register that a pointer is. -/
def Reg.pointer (i : Fin 2) : Reg := ⟨i.castLE (by decide)⟩

/-- The second instruction is the first one with the address of the cell in place of a working register, of
what a pointer points at, or of the accumulator. Both are given by their bytes. Of a copy from one address
to another, the address of the source comes first. -/
inductive DirectForm (c : Chip) : List UInt8 → List UInt8 → Prop where
  | incReg (r : Reg) : DirectForm c [0x08 + r.toByte] [0x05, c.cellOf r]
  | decReg (r : Reg) : DirectForm c [0x18 + r.toByte] [0x15, c.cellOf r]
  | djnzReg (r : Reg) (rel : UInt8) : DirectForm c [0xD8 + r.toByte, rel] [0xD5, c.cellOf r, rel]
  | immToReg (r : Reg) (v : UInt8) : DirectForm c [0x78 + r.toByte, v] [0x75, c.cellOf r, v]
  | accToReg (r : Reg) : DirectForm c [0xF8 + r.toByte] [0xF5, c.cellOf r]
  | regToAcc (r : Reg) : DirectForm c [0xE8 + r.toByte] [0xE5, c.cellOf r]
  | directToReg (r : Reg) (a : UInt8) : DirectForm c [0xA8 + r.toByte, a] [0x85, a, c.cellOf r]
  | regToDirect (r : Reg) (a : UInt8) : DirectForm c [0x88 + r.toByte, a] [0x85, c.cellOf r, a]
  | cellToAcc (i : Fin 2) : DirectForm c [0xE6 + (Reg.pointer i).toByte] [0xE5, c.data.get (c.cellOf (.pointer i))]
  | accToCell (i : Fin 2) : DirectForm c [0xF6 + (Reg.pointer i).toByte] [0xF5, c.data.get (c.cellOf (.pointer i))]
  | immToCell (i : Fin 2) (v : UInt8) :
      DirectForm c [0x76 + (Reg.pointer i).toByte, v] [0x75, c.data.get (c.cellOf (.pointer i)), v]
  | directToCell (i : Fin 2) (a : UInt8) :
      DirectForm c [0xA6 + (Reg.pointer i).toByte, a] [0x85, a, c.data.get (c.cellOf (.pointer i))]
  | cellToDirect (i : Fin 2) (a : UInt8) :
      DirectForm c [0x86 + (Reg.pointer i).toByte, a] [0x85, c.data.get (c.cellOf (.pointer i)), a]
  | incAcc : DirectForm c [0x04] [0x05, Sfr.acc]
  | decAcc : DirectForm c [0x14] [0x15, Sfr.acc]
  | clrAcc : DirectForm c [0xE4] [0x75, Sfr.acc, 0]
  | immToAcc (v : UInt8) : DirectForm c [0x74, v] [0x75, Sfr.acc, v]
  | directToAcc (a : UInt8) : DirectForm c [0xE5, a] [0x85, a, Sfr.acc]
  | accToDirect (a : UInt8) : DirectForm c [0xF5, a] [0x85, Sfr.acc, a]

/-- An instruction and its direct form are both implemented and have the same effect. -/
theorem DirectForm.effects {c : Chip} {bytes bytes' : List UInt8} (h : DirectForm c bytes bytes') :
    ∃ i i' e, Instr.decode? bytes = some i ∧ Instr.decode? bytes' = some i' ∧
      i.effect? c = some e ∧ i'.effect? c = some e := by
  cases h
  case incReg r | decReg r | djnzReg r _ | immToReg r _ | accToReg r | regToAcc r | directToReg r _ | regToDirect r _ =>
    obtain ⟨n⟩ := r
    fin_cases n <;> exact ⟨_, _, _, rfl, rfl, rfl, rfl⟩
  case cellToAcc i | accToCell i | immToCell i _ | directToCell i _ | cellToDirect i _ =>
    fin_cases i <;> exact ⟨_, _, _, rfl, rfl, rfl, rfl⟩
  all_goals exact ⟨_, _, _, rfl, rfl, rfl, rfl⟩

/-! ## Executions -/

variable {κ σ : Type} {b : Bench κ σ} {d d' : Decoded}

/-- Executing the instruction leads from `b` to `b₁` and has the effect `e`: it changes the memories in one
cell, and leaves the program counter at the instruction after it or, if it jumps, at its target. -/
structure Decoded.TakesEffect (env : Environment κ σ) (d : Decoded) (b : Bench κ σ) (e : Effect) (b₁ : Bench κ σ) :
    Prop where
  effect : d.instr.effect? b.machine.chip = some e
  yields : (Script.execute d).Yields env b () b₁
  chip : b₁.machine.chip = (b.machine.chip.setData e.cell e.value).jump (d.successor e.taken)

/-- Without hooks an instruction that changes one cell comes to its end. -/
theorem Decoded.takesEffect_of_no_hooks (env : Environment κ σ)
    (hhooks : ∀ s : Slot, s.isHook → b.machine.registry.callbacks s = [])
    {e : Effect} (he : d.instr.effect? b.machine.chip = some e) : ∃ b₁, d.TakesEffect env b e b₁ := by
  obtain ⟨b₁, hy, hc, -⟩ := Script.yields_execute_of_no_hooks env hhooks d
  refine ⟨b₁, he, hy, hc.trans ?_⟩
  rw [Chip.execute, onChip_of_effect he]

/-- On a machine without hooks an instruction and its direct form do the same to the memories and decide
alike whether to jump, each from its own place in the program. -/
theorem direct_form_agrees (env : Environment κ σ)
    (hhooks : ∀ s : Slot, s.isHook → b.machine.registry.callbacks s = [])
    (hd : Row.of? d.row.opcode = some d.row) (hd' : Row.of? d'.row.opcode = some d'.row)
    (h : DirectForm b.machine.chip d.bytes d'.bytes) :
    ∃ e b₁ b₁', d.TakesEffect env b e b₁ ∧ d'.TakesEffect env b e b₁' := by
  obtain ⟨i, i', e, hi, hi', he, he'⟩ := h.effects
  rw [Decoded.decode?_bytes hd] at hi
  rw [Decoded.decode?_bytes hd'] at hi'
  cases hi
  cases hi'
  obtain ⟨b₁, hb₁⟩ := Decoded.takesEffect_of_no_hooks env hhooks he
  obtain ⟨b₁', hb₁'⟩ := Decoded.takesEffect_of_no_hooks env hhooks he'
  exact ⟨e, b₁, b₁', hb₁, hb₁'⟩

/-- A chip whose pointer `R0` of bank 1 points at the status word. -/
def pointingChip : Chip := ((Chip.new Pacer.period1MHz {}).setData Sfr.psw 0x08).setData 0x08 Sfr.psw

/-- Moves the pointer `R0` of bank 1 to where it points. -/
def moveToPointed : Decoded := ⟨0x100, ⟨0xA6, 2, "MOV", .mov (.indirect ⟨0⟩) (.place (.direct .first))⟩, 0x08, 0⟩

/-- Moves the same cell to the status word. -/
def moveToStatus : Decoded :=
  ⟨0x200, ⟨0x85, 3, "MOV", .mov (.direct .second) (.place (.direct .first))⟩, 0x08, Sfr.psw⟩

theorem moveToPointed_agrees : ∃ e b₁ b₁', moveToPointed.TakesEffect .idle (.bare pointingChip) e b₁ ∧
    moveToStatus.TakesEffect .idle (.bare pointingChip) e b₁' := by
  have hpointed : pointingChip.data.get (pointingChip.cellOf (.pointer 0)) = Sfr.psw := by decide +kernel
  have hform := DirectForm.directToCell (c := pointingChip) 0 0x08
  rw [hpointed] at hform
  exact direct_form_agrees .idle (fun _ _ => rfl) (by decide) (by decide) hform

end Micro8051
