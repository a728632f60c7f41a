/-
Sixteen-bit words as two bytes, and the displacement of a word by a signed byte.
-/
namespace Micro8051

/-- The word with the given high and low bytes. -/
def word (hi lo : UInt8) : UInt16 := hi.toUInt16 <<< 8 ||| lo.toUInt16

/-- The high byte of a word. -/
def highByte (w : UInt16) : UInt8 := (w >>> 8).toUInt8

/-- The low byte of a word. -/
def lowByte (w : UInt16) : UInt8 := w.toUInt8

/-- The word `w` moved by `offset` read as a signed byte, modulo `2^16`. -/
def displace (w : UInt16) (offset : UInt8) : UInt16 := w + offset.toInt8.toInt16.toUInt16

/-! ## Bytes of a word -/

theorem toNat_word (hi lo : UInt8) : (word hi lo).toNat = 256 * hi.toNat + lo.toNat := by
  have h := hi.toNat_lt
  have l := lo.toNat_lt
  have e : hi.toNat <<< 8 % 2 ^ 16 = hi.toNat <<< 8 := by
    rw [Nat.shiftLeft_eq]; omega
  simp only [word, UInt16.toNat_or, UInt16.toNat_shiftLeft, UInt8.toNat_toUInt16]
  rw [show (8 : UInt16).toNat % 16 = 8 from rfl, e, ← Nat.shiftLeft_add_eq_or_of_lt (by omega),
    Nat.shiftLeft_eq]
  omega

theorem toNat_highByte (w : UInt16) : (highByte w).toNat = w.toNat / 256 := by
  have := w.toNat_lt
  simp only [highByte, UInt16.toNat_toUInt8, UInt16.toNat_shiftRight]
  rw [show (8 : UInt16).toNat % 16 = 8 from rfl, Nat.shiftRight_eq_div_pow]
  omega

theorem toNat_lowByte (w : UInt16) : (lowByte w).toNat = w.toNat % 256 := by
  simp [lowByte]

theorem highByte_word (hi lo : UInt8) : highByte (word hi lo) = hi := by
  have := lo.toNat_lt
  apply UInt8.toNat_inj.1
  rw [toNat_highByte, toNat_word]; omega

theorem lowByte_word (hi lo : UInt8) : lowByte (word hi lo) = lo := by
  have := lo.toNat_lt
  apply UInt8.toNat_inj.1
  rw [toNat_lowByte, toNat_word]; omega

theorem word_highByte_lowByte (w : UInt16) : word (highByte w) (lowByte w) = w := by
  apply UInt16.toNat_inj.1
  rw [toNat_word, toNat_highByte, toNat_lowByte]; omega

end Micro8051
