/-
Fixed-width hexadecimal text, most significant digit first, with upper-case letters.
-/
namespace Micro8051.Text

/-- The hexadecimal digit of a number below 16. -/
def hexDigit (n : Nat) : Char :=
  if n < 10 then Char.ofNat (0x30 + n) else Char.ofNat (0x37 + n)

/-- The last `width` hexadecimal digits of `n`. -/
def hexDigits : (width : Nat) → (n : Nat) → List Char
  | 0, _ => []
  | width + 1, n => hexDigits width (n / 16) ++ [hexDigit (n % 16)]

/-- A byte as two hexadecimal digits. -/
def hexByte (b : UInt8) : String := String.ofList (hexDigits 2 b.toNat)

/-- A word as four hexadecimal digits. -/
def hexWord (w : UInt16) : String := String.ofList (hexDigits 4 w.toNat)

theorem length_hexDigits (width n : Nat) : (hexDigits width n).length = width := by
  induction width generalizing n with
  | zero => rfl
  | succ w ih => simp [hexDigits, ih]

end Micro8051.Text
