/-
What an instruction depends on. On machines whose hooks do not change them, all that an instruction does
with internal memory, and where it leaves the program counter, follows from the bank that is selected, from
the cells whose read hooks run while it is executed, and from the external cell that the data pointer
addresses if the instruction loads it. The rest of the memories has no influence.
-/
import Micro8051.Proofs.Machine.Unwatched
import Micro8051.Proofs.Observers.Harmless

namespace Micro8051

/-! ## Bits that select the bank -/

theorem bankOf_congr {v w : UInt8} (h : v &&& (bankBit0 ||| bankBit1) = w &&& (bankBit0 ||| bankBit1)) :
    bankOf v = bankOf w := by
  have hbit (m : UInt8) (hm : (bankBit0 ||| bankBit1) &&& m = m) : v &&& m = w &&& m := by
    rw [← hm, ← UInt8.and_assoc, h, UInt8.and_assoc]
  unfold bankOf
  rw [hbit bankBit0 rfl, hbit bankBit1 rfl]

/-! ## Executions -/

variable {κ σ κ' σ' : Type} {env : Environment κ σ} {env' : Environment κ' σ'} {K : Slot → Callback κ → Prop}
  {K' : Slot → Callback κ' → Prop} {b : Bench κ σ} {b' : Bench κ' σ'}

/-- Executing the instruction leads from `b` to `b₁` and leaves the program counter at `pc`. On the way hooks
are told of those of the accesses `as` that are to internal memory, one after the other, and the memories
change by what these accesses store. -/
structure Decoded.Executes (env : Environment κ σ) (d : Decoded) (b : Bench κ σ) (as : List Access) (pc : UInt16)
    (b₁ : Bench κ σ) : Prop where
  told : ∃ os, (Script.execute d).Passes env b os () b₁ ∧
    os.filterMap Occasion.access? = as.filter Access.isInternal
  chip : b₁.machine.chip = (as.foldl Access.apply b.machine.chip).jump pc

/-- Instructions come to an end on machines whose hooks do not change them. -/
theorem Harmless.executes (h : Harmless env K) (hb : b.Admits K) (d : Decoded) :
    ∃ b₁, d.Executes env b (d.cycles.accesses b.machine.chip) (d.cycles.onChip b.machine.chip).1 b₁ := by
  obtain ⟨os, b₁, hp, hos, hc, -⟩ := Script.passes_execute_of_harmless h hb d
  refine ⟨b₁, ⟨os, hp, hos⟩, hc.trans ?_⟩
  rw [← Cycles.onChip_eq_foldl_accesses]
  rfl

/-- Two machines whose hooks do not change them make the same accesses when they execute an instruction, and
come to the same program counter, if they agree on the bits that select the bank, on each cell that the
first machine reads before it stores anything there, and, if the instruction loads external memory, on the
cell that the data pointer addresses. -/
theorem execution_depends_on_reads (h : Harmless env K) (hb : b.Admits K) (h' : Harmless env' K') (hb' : b'.Admits K')
    (d : Decoded)
    (hbank : b.machine.chip.data.get Sfr.psw &&& (bankBit0 ||| bankBit1) =
      b'.machine.chip.data.get Sfr.psw &&& (bankBit0 ||| bankBit1))
    (hread : ∀ a ∈ Access.inputs (d.cycles.accesses b.machine.chip),
      b.machine.chip.data.get a = b'.machine.chip.data.get a)
    (hload : d.instr = .movxLoad →
      b.machine.chip.xdata.get b.machine.chip.dptr = b'.machine.chip.xdata.get b.machine.chip.dptr) :
    ∃ pc b₁ b₁', d.Executes env b (d.cycles.accesses b.machine.chip) pc b₁ ∧
      d.Executes env' b' (d.cycles.accesses b.machine.chip) pc b₁' := by
  have hexternal : ∀ a ∈ Access.externalInputs (d.cycles.accesses b.machine.chip),
      b.machine.chip.xdata.get a = b'.machine.chip.xdata.get a := by
    rw [d.externalInputs_accesses]
    split
    · rename_i hi
      rw [List.forall_mem_singleton]
      exact hload hi
    · exact List.forall_mem_nil _
  obtain ⟨ha, hr⟩ := d.cycles.accesses_congr (bankOf_congr hbank) hread hexternal
  obtain ⟨b₁, hx⟩ := h.executes hb d
  obtain ⟨b₁', hx'⟩ := h'.executes hb' d
  rw [ha, hr] at hx'
  exact ⟨_, b₁, b₁', hx, hx'⟩

theorem Callback.idle_records (c : Callback Unit) : c.Records .idle fun _ => () :=
  records_of_custom (fun _ _ b => ⟨b.world, b.journal, ⟨0, rfl⟩, rfl⟩) c

/-- An instruction that reads the stack pointer, stores what it points at there, and reads it again. -/
def popStackPointer : Decoded := ⟨0, ⟨0xD0, 2, "POP", .pop .first⟩, Sfr.sp, 0⟩

/-- A machine with hooks that keep what they are told of. -/
def loggedBench : Bench Unit (List Occasion) where
  machine := { chip := ((Chip.new Pacer.period1MHz {}).setData Sfr.sp 0x30).setData 0x30 5
               registry := { waiting := [(.read Sfr.sp, .custom ()), (.write Sfr.sp, .custom ())] } }
  world := []

/-- A machine with other memories, but for the stack pointer, the cell that it points at and the bank. -/
def otherBench : Bench Unit Unit where
  machine := { chip := { Chip.new Pacer.period1MHz {} with
    data := (((⟨.replicate _ 0xFF⟩ : Internal).set Sfr.sp 0x30).set 0x30 5).set Sfr.psw 0xE7
    xdata := ⟨.replicate _ 0xFF⟩ }
               registry := Machine.latchTraces }
  world := ()

theorem popStackPointer_depends_on_reads : ∃ pc b₁ b₁',
    popStackPointer.Executes logging loggedBench
      [.read 0x81 0x30, .read 0x30 5, .store 0x81 5, .read 0x81 5, .store 0x81 4] pc b₁ ∧
    popStackPointer.Executes .idle otherBench
      [.read 0x81 0x30, .read 0x30 5, .store 0x81 5, .read 0x81 5, .store 0x81 4] pc b₁' := by
  have haccesses : popStackPointer.cycles.accesses loggedBench.machine.chip =
      [.read 0x81 0x30, .read 0x30 5, .store 0x81 5, .read 0x81 5, .store 0x81 4] := by
    decide +kernel
  have hlogging : Harmless logging fun _ _ => True := harmless_of_records fun _ c _ _ => c.logging_records
  have hidle : Harmless Environment.idle fun _ _ => True := harmless_of_records fun _ c _ _ => c.idle_records
  rw [← haccesses]
  refine execution_depends_on_reads hlogging (fun _ _ _ => trivial) hidle (fun _ _ _ => trivial) popStackPointer
    ?_ ?_ ?_
  · decide +kernel
  · rw [haccesses]
    decide +kernel
  · intro hi
    cases hi

end Micro8051
