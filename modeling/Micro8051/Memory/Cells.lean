/-
Memories of one-byte cells, addressed by the values of a fixed-width type. A cell reads back what
was last stored in it, no store touches another cell, and two memories with the same cells are
equal.
-/
namespace Micro8051

/-- A type whose values are the addresses of a memory, numbered without gaps from 0. -/
class Address (α : Type) where
  size : Nat
  index : α → Fin size
  ofIndex : Fin size → α
  ofIndex_index : ∀ a, ofIndex (index a) = a
  index_ofIndex : ∀ i, index (ofIndex i) = i

instance : Address UInt8 := ⟨256, UInt8.toFin, UInt8.ofFin, fun _ => rfl, fun _ => rfl⟩

instance : Address UInt16 := ⟨65536, UInt16.toFin, UInt16.ofFin, fun _ => rfl, fun _ => rfl⟩

theorem Address.index_inj {α : Type} [Address α] {a b : α} : index a = index b ↔ a = b :=
  ⟨fun h => by rw [← ofIndex_index a, h, ofIndex_index], fun h => h ▸ rfl⟩

/-- A memory with one byte for each address of type `α`. -/
structure Memory (α : Type) [Address α] where
  cells : Vector UInt8 (Address.size α)
  deriving DecidableEq

/-- Internal data memory: 256 cells, the working registers, the stack and the special function
registers among them. -/
abbrev Internal := Memory UInt8

/-- External data memory: 65536 cells. -/
abbrev External := Memory UInt16

namespace Memory

variable {α : Type} [Address α]

def zero : Memory α := ⟨Vector.replicate _ 0⟩

@[inline] def get (m : Memory α) (a : α) : UInt8 := m.cells[Address.index a]

@[inline] def set (m : Memory α) (a : α) (v : UInt8) : Memory α := ⟨m.cells.set (Address.index a) v⟩

def bytes (m : Memory α) : Array UInt8 := m.cells.toArray

/-! ## Cells -/

@[simp] theorem get_zero (a : α) : (zero : Memory α).get a = 0 := by
  simp [get, zero]

@[simp] theorem get_set_self (m : Memory α) (a : α) (v : UInt8) : (m.set a v).get a = v := by
  simp [get, set]

@[simp] theorem get_set_ne (m : Memory α) {a b : α} (h : b ≠ a) (v : UInt8) :
    (m.set a v).get b = m.get b := by
  have hne : (Address.index a).val ≠ (Address.index b).val := fun e =>
    h (Address.index_inj.1 (Fin.ext e.symm))
  simp [get, set, Vector.getElem_set_ne _ _ hne]

theorem get_set [DecidableEq α] (m : Memory α) (a b : α) (v : UInt8) :
    (m.set a v).get b = if b = a then v else m.get b := by
  split
  · next h => rw [h, get_set_self]
  · next h => exact get_set_ne m h v

theorem ext_get {m m' : Memory α} (h : ∀ a, m.get a = m'.get a) : m = m' := by
  obtain ⟨c⟩ := m
  obtain ⟨c'⟩ := m'
  refine congrArg Memory.mk (Vector.ext fun i hi => ?_)
  have := h (Address.ofIndex ⟨i, hi⟩)
  simpa only [get, Address.index_ofIndex, Fin.getElem_fin] using this

theorem size_bytes (m : Memory α) : m.bytes.size = Address.size α := by
  simp [bytes]

end Memory

end Micro8051
