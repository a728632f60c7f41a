/-
The text of durations read back. It is exact: the zeros that it leaves out at the end of the fraction are those that
the unit has places for, so every nanosecond can be told from the text.
-/
import Mathlib.Data.List.DropRight
import Mathlib.Data.List.TakeDrop
import Mathlib.Tactic
import Micro8051.Text.Duration

namespace Micro8051.Text

/-! ## Decimal digits -/

/-- The number with the given decimal digits. -/
def decimalNumber (digits : List Char) : Nat := Nat.ofDigitChars 10 digits 0

theorem length_decimalDigits (width n : Nat) : (decimalDigits width n).length = width := by
  induction width generalizing n with
  | zero => rfl
  | succ width ih => rw [decimalDigits, List.length_append, ih, List.length_singleton]

theorem isDigit_of_mem_decimalDigits {width n : Nat} {c : Char} (h : c ∈ decimalDigits width n) :
    c.isDigit = true := by
  induction width generalizing n with
  | zero => cases h
  | succ width ih =>
    rw [decimalDigits, List.mem_append, List.mem_singleton] at h
    rcases h with h | rfl
    · exact ih h
    · have hlt : n % 10 < 10 := Nat.mod_lt n (by decide)
      interval_cases n % 10 <;> rfl

theorem decimalNumber_decimalDigits (width n : Nat) : decimalNumber (decimalDigits width n) = n % 10 ^ width := by
  induction width generalizing n with
  | zero => rw [pow_zero, Nat.mod_one]; rfl
  | succ width ih =>
    have hdigit : (Char.ofNat (0x30 + n % 10)).toNat - '0'.toNat = n % 10 := by
      have hlt : n % 10 < 10 := Nat.mod_lt n (by decide)
      interval_cases n % 10 <;> rfl
    calc decimalNumber (decimalDigits (width + 1) n)
        = 10 * decimalNumber (decimalDigits width (n / 10)) + n % 10 := by
          rw [decimalNumber, decimalDigits, Nat.ofDigitChars_append, Nat.ofDigitChars_cons, Nat.ofDigitChars_nil,
            hdigit, decimalNumber]
      _ = n % 10 ^ (width + 1) := by rw [ih, pow_succ', Nat.mod_mul, Nat.add_comm]

/-! ## Trailing zeros -/

theorem dropTrailingZeros_eq (digits : List Char) : dropTrailingZeros digits = digits.rdropWhile (· == '0') := rfl

/-- What is dropped is zeros. -/
theorem dropTrailingZeros_append (digits : List Char) : ∃ k, digits.length = (dropTrailingZeros digits).length + k ∧
    dropTrailingZeros digits ++ List.replicate k '0' = digits := by
  have hzeros : digits.rtakeWhile (· == '0') = List.replicate (digits.rtakeWhile (· == '0')).length '0' :=
    List.eq_replicate_of_mem fun c hc => by simpa using List.mem_rtakeWhile_imp hc
  have happend : dropTrailingZeros digits ++ digits.rtakeWhile (· == '0') = digits := by
    rw [dropTrailingZeros_eq, List.rdropWhile_append_rtakeWhile]
  exact ⟨_, by rw [← List.length_append, happend], by rw [← hzeros, happend]⟩

theorem isDigit_of_mem_dropTrailingZeros {digits : List Char} (h : ∀ c ∈ digits, c.isDigit = true) :
    ∀ c ∈ dropTrailingZeros digits, c.isDigit = true := by
  have hbegins : dropTrailingZeros digits <+: digits := List.rdropWhile_prefix _ digits
  exact fun c hc => h c (hbegins.subset hc)

/-- The number comes back if each place that is left out counts. -/
theorem decimalNumber_dropTrailingZeros (digits : List Char) :
    decimalNumber (dropTrailingZeros digits) * 10 ^ (digits.length - (dropTrailingZeros digits).length) =
      decimalNumber digits := by
  obtain ⟨k, hlength, happend⟩ := dropTrailingZeros_append digits
  rw [hlength, Nat.add_sub_cancel_left]
  conv_rhs => rw [← happend]
  rw [decimalNumber, decimalNumber, Nat.ofDigitChars_append, Nat.ofDigitChars_replicate_zero, Nat.mul_comm]

/-! ## Units -/

namespace TimeUnit

/-- All units. -/
def units : List TimeUnit := all ++ [⟨1, 0, "ns"⟩]

variable {u : TimeUnit} {ns : Nat}

theorem scale_eq (h : u ∈ units) : u.scale = 10 ^ u.places := by
  revert u
  decide

theorem find?_units (h : 0 < ns) : units.find? (fun u => decide (u.scale ≤ ns)) = some (of ns) := by
  unfold of units
  rw [List.find?_append]
  cases all.find? fun u => decide (u.scale ≤ ns) with
  | none =>
    rw [Option.none_or, Option.getD_none]
    exact List.find?_cons_of_pos (decide_eq_true (p := 1 ≤ ns) h)
  | some u => rfl

theorem of_mem_units (ns : Nat) : of ns ∈ units := by
  rcases Nat.eq_zero_or_pos ns with rfl | h
  · decide
  · exact List.mem_of_find?_eq_some (find?_units h)

/-- The unit of a duration is the largest one that leaves a nonzero integer part. -/
theorem of_largest (h : 0 < ns) : (of ns).scale ≤ ns ∧ ∀ u ∈ units, u.scale ≤ ns → u.scale ≤ (of ns).scale := by
  obtain ⟨hle, before, after, hunits, hbefore⟩ := List.find?_eq_some_iff_append.1 (find?_units h)
  have hsorted : units.Pairwise fun u v => v.scale ≤ u.scale := by decide
  refine ⟨of_decide_eq_true hle, fun u hu hns => ?_⟩
  rw [hunits] at hu hsorted
  rcases List.mem_append.1 hu with hu | hu
  · -- the larger units are too large
    have hlt := hbefore u hu
    simp only [hns, decide_true, Bool.not_true, Bool.false_eq_true] at hlt
  · rcases List.mem_cons.1 hu with rfl | hu
    · exact Nat.le_refl _
    · exact List.rel_of_pairwise_cons (List.pairwise_append.1 hsorted).2.1 hu

/-- A symbol is neither taken for digits nor for a fraction. -/
theorem head?_symbol (h : u ∈ units) : ∀ c ∈ u.symbol.toList.head?, c.isDigit = false ∧ c ≠ '.' := by
  have hall : ∀ u ∈ units, (u.symbol.toList.head?.all fun c => !c.isDigit && c != '.') = true := by decide +kernel
  intro c hc
  have hs := hall u h
  rw [Option.mem_def.1 hc] at hs
  simpa using hs

/-- Units have different symbols. -/
theorem find?_symbol (h : u ∈ units) : units.find? (fun v => v.symbol.toList == u.symbol.toList) = some u := by
  revert u
  decide +kernel

end TimeUnit

/-! ## Durations -/

/-- The digits after a point, if there is one, and the symbol of the unit. -/
def fractionAndSymbol : List Char → List Char × List Char
  | '.' :: rest => rest.span Char.isDigit
  | rest => ([], rest)

/-- The count of nanoseconds that a text gives. -/
def nanoseconds? (s : String) : Option Nat :=
  let (whole, rest) := s.toList.span Char.isDigit
  let (fraction, symbol) := fractionAndSymbol rest
  (TimeUnit.units.find? fun u => u.symbol.toList == symbol).map fun u =>
    decimalNumber whole * u.scale + decimalNumber fraction * 10 ^ (u.places - fraction.length)

/-- The fraction as it stands in the text. -/
def pointed (fraction : List Char) : List Char := if fraction.isEmpty then [] else '.' :: fraction

section Reading

variable {digits rest symbol : List Char}

theorem span_digits (hd : ∀ c ∈ digits, c.isDigit = true) (hr : ∀ c ∈ rest.head?, c.isDigit = false) :
    (digits ++ rest).span Char.isDigit = (digits, rest) := by
  rw [List.span_eq_takeWhile_dropWhile, List.takeWhile_append_of_pos hd, List.dropWhile_append_of_pos hd]
  cases rest with
  | nil => rw [List.takeWhile_nil, List.append_nil, List.dropWhile_nil]
  | cons c cs =>
    have hc : ¬ c.isDigit = true := by simpa using hr c rfl
    rw [List.takeWhile_cons_of_neg hc, List.append_nil, List.dropWhile_cons_of_neg hc]

theorem fractionAndSymbol_pointed (hd : ∀ c ∈ digits, c.isDigit = true)
    (hs : ∀ c ∈ symbol.head?, c.isDigit = false ∧ c ≠ '.') :
    fractionAndSymbol (pointed digits ++ symbol) = (digits, symbol) := by
  cases digits with
  | nil =>
    change fractionAndSymbol symbol = ([], symbol)
    unfold fractionAndSymbol
    split
    · exact absurd rfl (hs '.' rfl).2
    · rfl
  | cons d ds => exact span_digits hd fun c hc => (hs c hc).1

theorem head?_pointed (hs : ∀ c ∈ symbol.head?, c.isDigit = false ∧ c ≠ '.') :
    ∀ c ∈ (pointed digits ++ symbol).head?, c.isDigit = false := by
  cases digits with
  | nil => exact fun c hc => (hs c hc).1
  | cons d ds =>
    rintro c ⟨⟩
    rfl

end Reading

theorem toList_duration (ns : Nat) : (duration ns).toList =
    Nat.toDigits 10 (ns / (TimeUnit.of ns).scale) ++
      (pointed (dropTrailingZeros (decimalDigits (TimeUnit.of ns).places (ns % (TimeUnit.of ns).scale))) ++
        (TimeUnit.of ns).symbol.toList) := by
  have hpoint : ".".toList = ['.'] := rfl
  simp only [duration, pointed, Nat.toString_eq_repr, String.toList_append, Nat.toList_repr, List.append_assoc]
  split
  · rfl
  · rw [String.toList_append, hpoint, String.toList_ofList, List.singleton_append]

/-- The text of a duration gives all of its nanoseconds. -/
theorem nanoseconds?_duration (ns : Nat) : nanoseconds? (duration ns) = some ns := by
  have hu := TimeUnit.of_mem_units ns
  have hsymbol := TimeUnit.head?_symbol hu
  rw [nanoseconds?, toList_duration]
  generalize TimeUnit.of ns = u at hu hsymbol
  have hfraction := isDigit_of_mem_dropTrailingZeros fun c (hc : c ∈ decimalDigits u.places (ns % u.scale)) =>
    isDigit_of_mem_decimalDigits hc
  have hnumber := decimalNumber_dropTrailingZeros (decimalDigits u.places (ns % u.scale))
  rw [length_decimalDigits, decimalNumber_decimalDigits, ← TimeUnit.scale_eq hu, Nat.mod_mod] at hnumber
  rw [span_digits (fun c hc => Nat.isDigit_of_mem_toDigits (by omega) (by omega) hc) (head?_pointed hsymbol)]
  simp only [fractionAndSymbol_pointed hfraction hsymbol, TimeUnit.find?_symbol hu, Option.map_some, hnumber]
  rw [decimalNumber, Nat.ofDigitChars_ten_toDigits, Nat.div_add_mod']

example : duration 1250 = "1.25µs" ∧ nanoseconds? "1.25µs" = some 1250 := by decide +kernel

/-- Different durations have different texts. -/
theorem duration_injective : Function.Injective duration := by
  intro m n h
  have hm := nanoseconds?_duration m
  rw [h, nanoseconds?_duration] at hm
  exact (Option.some.inj hm).symm

end Micro8051.Text
