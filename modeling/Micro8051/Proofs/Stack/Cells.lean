/-
The cells above a base address, as a stack of bytes. The stack grows upwards and wraps at the end of
internal memory; as long as it stays below 256 bytes, its slots are different cells.
-/
import Micro8051.Proofs.Chip.Frame
import Mathlib.Tactic

namespace Micro8051

/-- The cell that the stack pointer addresses after `n` pushes from `base`. -/
def slot (base : UInt8) (n : Nat) : UInt8 := base + UInt8.ofNat n

theorem toNat_slot (base : UInt8) (n : Nat) : (slot base n).toNat = (base.toNat + n) % 256 := by
  simp [slot, UInt8.toNat_add, UInt8.toNat_ofNat']

@[simp] theorem slot_zero (base : UInt8) : slot base 0 = base := by
  simp [slot]

theorem slot_succ (base : UInt8) (n : Nat) : slot base n + 1 = slot base (n + 1) := by
  apply UInt8.toNat_inj.1
  rw [UInt8.toNat_add, toNat_slot, toNat_slot, show (1 : UInt8).toNat = 1 from rfl]
  omega

theorem slot_succ_sub_one (base : UInt8) (n : Nat) : slot base (n + 1) - 1 = slot base n := by
  rw [← slot_succ]
  exact UInt8.add_sub_cancel (slot base n) 1

theorem slot_inj {base : UInt8} {i j : Nat} (hi : 1 ≤ i) (hj : 1 ≤ j) (hi' : i ≤ 256) (hj' : j ≤ 256)
    (h : slot base i = slot base j) : i = j := by
  have := congrArg UInt8.toNat h
  rw [toNat_slot, toNat_slot] at this
  omega

/-- Slots that avoid a cell are fewer than 256. -/
theorem lt_of_slot_ne {base a : UInt8} {n : Nat} (h : ∀ i, 1 ≤ i → i ≤ n → slot base i ≠ a) : n < 256 := by
  by_contra hn
  -- the number of pushes from `base` that reaches `a`, between 1 and 256
  have ha := a.toNat_lt
  have hb := base.toNat_lt
  refine h ((a.toNat + 255 - base.toNat) % 256 + 1) (by omega) (by omega) ?_
  apply UInt8.toNat_inj.1
  rw [toNat_slot]
  omega

namespace Memory

/-- The `n` cells above `base`, the topmost first. -/
def above (m : Internal) (base : UInt8) : Nat → List UInt8
  | 0 => []
  | n + 1 => m.get (slot base (n + 1)) :: m.above base n

theorem above_congr {m m' : Internal} {base : UInt8} :
    ∀ {n : Nat}, (∀ i, 1 ≤ i → i ≤ n → m'.get (slot base i) = m.get (slot base i)) →
      m'.above base n = m.above base n
  | 0, _ => rfl
  | n + 1, h => by
    rw [above, above, h (n + 1) (by omega) (by omega), above_congr fun i h1 h2 => h i h1 (by omega)]

theorem above_set {m : Internal} {base a : UInt8} {n : Nat} (h : ∀ i, 1 ≤ i → i ≤ n → a ≠ slot base i)
    (v : UInt8) : (m.set a v).above base n = m.above base n :=
  above_congr fun i h1 h2 => get_set_ne m (h i h1 h2).symm v

end Memory

/-- The stack pointer has moved from `base` by as many bytes as the stack `st` has, and the cells
passed hold `st`, its top in the topmost cell. -/
structure Stacked (m : Internal) (base : UInt8) (st : List UInt8) : Prop where
  sp : m.get Sfr.sp = slot base st.length
  cells : m.above base st.length = st

namespace Stacked

variable {m m' : Internal} {base v : UInt8} {st : List UInt8}

theorem nil (m : Internal) : Stacked m (m.get Sfr.sp) [] := ⟨(slot_zero _).symm, rfl⟩

/-- What writes neither the stack pointer nor a cell of the stack leaves the stack alone. -/
theorem frame (h : Stacked m base st) (hsp : m'.get Sfr.sp = m.get Sfr.sp)
    (hc : ∀ i, 1 ≤ i → i ≤ st.length → m'.get (slot base i) = m.get (slot base i)) : Stacked m' base st :=
  ⟨hsp.trans h.sp, (Memory.above_congr hc).trans h.cells⟩

/-- A push moves the stack pointer up and writes where it then points. -/
theorem push (h : Stacked m base st) (v : UInt8)
    (hw : ∀ i, 1 ≤ i → i ≤ st.length + 1 → slot base i ≠ Sfr.sp) :
    Stacked ((m.set Sfr.sp (m.get Sfr.sp + 1)).set (m.get Sfr.sp + 1) v) base (v :: st) := by
  have hlt := lt_of_slot_ne hw
  rw [h.sp, slot_succ]
  constructor
  · rw [Memory.get_set_ne _ (hw _ (by omega) (by omega)).symm, Memory.get_set_self, List.length_cons]
  · rw [List.length_cons, Memory.above, Memory.get_set_self, Memory.above_set, Memory.above_set, h.cells]
    · intro i h1 h2
      exact (hw i h1 (by omega)).symm
    · intro i h1 h2 he
      have := slot_inj (by omega) h1 (by omega) (by omega) he
      omega

/-- The stack pointer addresses the top of the stack. -/
theorem top (h : Stacked m base (v :: st)) : m.get (m.get Sfr.sp) = v := by
  have := h.cells
  rw [List.length_cons, Memory.above, List.cons.injEq] at this
  rw [h.sp]
  exact this.1

/-- What moves the stack pointer down and writes no cell below the top pops the stack. -/
theorem pop (h : Stacked m base (v :: st)) (hsp : m'.get Sfr.sp = m.get Sfr.sp - 1)
    (hc : ∀ i, 1 ≤ i → i ≤ st.length → m'.get (slot base i) = m.get (slot base i)) : Stacked m' base st := by
  have := h.cells
  rw [List.length_cons, Memory.above, List.cons.injEq] at this
  refine ⟨?_, (Memory.above_congr hc).trans this.2⟩
  rw [hsp, h.sp, List.length_cons, slot_succ_sub_one]

end Stacked

end Micro8051
