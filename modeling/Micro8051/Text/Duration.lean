/-
Durations as text: a count of nanoseconds in the largest unit that leaves a nonzero integer
part, with the exact fraction and no trailing zeros.
-/
namespace Micro8051.Text

/-- A unit of time. -/
structure TimeUnit where
  /-- How many nanoseconds it has. -/
  scale : Nat
  /-- How many decimal places a count of nanoseconds has in this unit. -/
  places : Nat
  symbol : String
  deriving DecidableEq

/-- The units above the nanosecond, the largest first. -/
def TimeUnit.all : List TimeUnit := [⟨1000000000, 9, "s"⟩, ⟨1000000, 6, "ms"⟩, ⟨1000, 3, "µs"⟩]

/-- The unit that a duration of `ns` nanoseconds is written in. -/
def TimeUnit.of (ns : Nat) : TimeUnit :=
  (TimeUnit.all.find? fun u => decide (u.scale ≤ ns)).getD ⟨1, 0, "ns"⟩

/-- The last `width` decimal digits of `n`, most significant first. -/
def decimalDigits : (width : Nat) → (n : Nat) → List Char
  | 0, _ => []
  | width + 1, n => decimalDigits width (n / 10) ++ [Char.ofNat (0x30 + n % 10)]

def dropTrailingZeros (digits : List Char) : List Char :=
  (digits.reverse.dropWhile (· == '0')).reverse

/-- The text of `ns` nanoseconds, such as `1.25µs` or `100ms`. -/
def duration (ns : Nat) : String :=
  let unit := TimeUnit.of ns
  let whole := toString (ns / unit.scale)
  let fraction := dropTrailingZeros (decimalDigits unit.places (ns % unit.scale))
  whole ++ (if fraction.isEmpty then "" else "." ++ String.ofList fraction) ++ unit.symbol

end Micro8051.Text
