/-
The accesses to memory that programs of bus cycles make on an unwatched chip. What a program does depends on
the bank that is selected and on what it reads, that is on the cells that it reads before it stores anything
there. Whatever the rest of the memories holds, its accesses and its result are the same
(`Cycles.accesses_congr`), by induction on the program.
-/
import Micro8051.Proofs.Chip.History

namespace Micro8051

/-- An access to a cell of internal or external memory, with the byte that is read or stored. -/
inductive Access where
  | read (addr v : UInt8)
  | store (addr v : UInt8)
  | readExternal (addr : UInt16) (v : UInt8)
  | storeExternal (addr : UInt16) (v : UInt8)
  deriving DecidableEq

namespace Access

/-- Whether hooks are told of the access. -/
def isInternal : Access → Bool
  | read .. => true
  | store .. => true
  | readExternal .. => false
  | storeExternal .. => false

/-- The chip after an access. -/
def apply (c : Chip) : Access → Chip
  | read .. => c
  | store addr v => c.setData addr v
  | readExternal .. => c
  | storeExternal addr v => c.setXdata addr v

/-- The cells of internal memory that are read before anything is stored there. -/
def inputs : List Access → List UInt8
  | [] => []
  | read addr _ :: as => addr :: inputs as
  | store addr _ :: as => (inputs as).filter (· ≠ addr)
  | readExternal .. :: as => inputs as
  | storeExternal .. :: as => inputs as

/-- The cells of external memory that are read before anything is stored there. -/
def externalInputs : List Access → List UInt16
  | [] => []
  | read .. :: as => externalInputs as
  | store .. :: as => externalInputs as
  | readExternal addr _ :: as => addr :: externalInputs as
  | storeExternal addr _ :: as => (externalInputs as).filter (· ≠ addr)

end Access

theorem Memory.get_set_congr {α : Type} [Address α] {m m' : Memory α} {a b : α} {v : UInt8}
    (h : b ≠ a → m.get b = m'.get b) : (m.set a v).get b = (m'.set a v).get b := by
  rcases Classical.em (b = a) with rfl | hne
  · rw [get_set_self, get_set_self]
  · rw [get_set_ne m hne, get_set_ne m' hne, h hne]

namespace Cycles

variable {α : Type}

/-- The accesses of a program on an unwatched chip, in order. -/
def accesses : Cycles α → Chip → List Access
  | .done _, _ => []
  | .read addr next, c => .read addr (c.data.get addr) :: (next (c.data.get addr)).accesses c
  | .write addr v next, c => .store addr v :: next.accesses (c.setData addr v)
  | .bank next, c => (next c.bank).accesses c
  | .readExternal addr next, c => .readExternal addr (c.xdata.get addr) :: (next (c.xdata.get addr)).accesses c
  | .writeExternal addr v next, c => .storeExternal addr v :: next.accesses (c.setXdata addr v)

/-- A program changes the chip by what it stores. -/
theorem onChip_eq_foldl_accesses (p : Cycles α) (c : Chip) :
    (p.onChip c).2 = (p.accesses c).foldl Access.apply c := by
  induction p generalizing c with
  | done _ => rfl
  | read addr next ih => exact ih _ c
  | write addr v next ih => exact ih (c.setData addr v)
  | bank next ih => exact ih _ c
  | readExternal addr next ih => exact ih _ c
  | writeExternal addr v next ih => exact ih (c.setXdata addr v)

/-! ## What a program depends on -/

theorem bank_setData_congr {c c' : Chip} (h : c.bank = c'.bank) (addr v : UInt8) :
    (c.setData addr v).bank = (c'.setData addr v).bank := by
  unfold Chip.bank Chip.setData at *
  rcases Classical.em (Sfr.psw = addr) with rfl | hne
  · rw [Memory.get_set_self, Memory.get_set_self]
  · rw [Memory.get_set_ne _ hne, Memory.get_set_ne _ hne, h]

/-- A program comes to the same accesses and the same result on another chip, if the same bank is selected
there and each cell that the program reads before it stores anything there holds the same. -/
theorem accesses_congr (p : Cycles α) {c c' : Chip} (hbank : c.bank = c'.bank)
    (hdata : ∀ a ∈ Access.inputs (p.accesses c), c.data.get a = c'.data.get a)
    (hxdata : ∀ a ∈ Access.externalInputs (p.accesses c), c.xdata.get a = c'.xdata.get a) :
    p.accesses c' = p.accesses c ∧ (p.onChip c').1 = (p.onChip c).1 := by
  induction p generalizing c c' with
  | done a => exact ⟨rfl, rfl⟩
  | read addr next ih =>
    simp only [accesses, Access.inputs, Access.externalInputs, List.forall_mem_cons] at hdata hxdata
    obtain ⟨ha, hr⟩ := ih _ hbank hdata.2 hxdata
    simp only [accesses, onChip, ← hdata.1]
    exact ⟨congrArg _ ha, hr⟩
  | write addr v next ih =>
    simp only [accesses, Access.inputs, Access.externalInputs, List.mem_filter] at hdata hxdata
    -- what the program reads later is an input, or it is the byte that is stored here
    have hnext : ∀ a ∈ Access.inputs (next.accesses (c.setData addr v)),
        (c.data.set addr v).get a = (c'.data.set addr v).get a :=
      fun a ha => Memory.get_set_congr fun hne => hdata a ⟨ha, by simpa using hne⟩
    obtain ⟨ha, hr⟩ := ih (bank_setData_congr hbank addr v) hnext hxdata
    simp only [accesses, onChip]
    exact ⟨congrArg _ ha, hr⟩
  | bank next ih =>
    simp only [accesses, onChip, ← hbank]
    exact ih _ hbank hdata hxdata
  | readExternal addr next ih =>
    simp only [accesses, Access.inputs, Access.externalInputs, List.forall_mem_cons] at hdata hxdata
    obtain ⟨ha, hr⟩ := ih _ hbank hdata hxdata.2
    simp only [accesses, onChip, ← hxdata.1]
    exact ⟨congrArg _ ha, hr⟩
  | writeExternal addr v next ih =>
    simp only [accesses, Access.inputs, Access.externalInputs, List.mem_filter] at hdata hxdata
    have hnext : ∀ a ∈ Access.externalInputs (next.accesses (c.setXdata addr v)),
        (c.xdata.set addr v).get a = (c'.xdata.set addr v).get a :=
      fun a ha => Memory.get_set_congr fun hne => hxdata a ⟨ha, by simpa using hne⟩
    have hbank' : (c.setXdata addr v).bank = (c'.setXdata addr v).bank := hbank
    obtain ⟨ha, hr⟩ := ih hbank' hdata hnext
    simp only [accesses, onChip]
    exact ⟨congrArg _ ha, hr⟩

end Cycles

/-! ## Instructions -/

/-- Only the load from external memory reads there, and it reads where the data pointer points. -/
theorem Decoded.externalInputs_accesses (d : Decoded) (c : Chip) :
    Access.externalInputs (d.cycles.accesses c) = if d.instr = .movxLoad then [c.dptr] else [] := by
  unfold Decoded.cycles
  cases hi : d.instr with
  | djnz p rel => cases p <;> rfl
  | inc p => cases p <;> rfl
  | dec p => cases p <;> rfl
  | mov dst src =>
    cases src with
    | imm v => cases dst <;> rfl
    | place p => cases dst <;> cases p <;> rfl
  | _ => rfl

end Micro8051
