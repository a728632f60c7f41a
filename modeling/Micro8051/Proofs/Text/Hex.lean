/-
Hexadecimal text read back: the digits of a number give the number, and a word that ends a text,
closing brackets aside, can be found there.
-/
import Mathlib.Data.List.DropRight
import Mathlib.Tactic
import Micro8051.Text.Hex

namespace Micro8051.Text

/-- The number that a hexadecimal digit stands for. -/
def hexValue? (c : Char) : Option Nat :=
  if '0' ≤ c ∧ c ≤ '9' then some (c.toNat - 0x30)
  else if 'A' ≤ c ∧ c ≤ 'F' then some (c.toNat - 0x37)
  else none

/-- The number with the given hexadecimal digits. -/
def hexNumber? (cs : List Char) : Option Nat :=
  cs.foldlM (fun n c => (hexValue? c).map fun v => 16 * n + v) 0

/-- The word in the last four digits of a text, where closing brackets may follow. -/
def lastWord? (s : String) : Option UInt16 :=
  (hexNumber? ((s.toList.rdropWhile (· == ')')).rtake 4)).map UInt16.ofNat

theorem hexValue?_hexDigit {n : Nat} (h : n < 16) : hexValue? (hexDigit n) = some n := by
  interval_cases n <;> rfl

theorem hexDigit_ne_bracket {n : Nat} (h : n < 16) : hexDigit n ≠ ')' := by
  interval_cases n <;> decide

theorem hexNumber?_hexDigits (width n : Nat) : hexNumber? (hexDigits width n) = some (n % 16 ^ width) := by
  induction width generalizing n with
  | zero => simp [hexDigits, hexNumber?, Nat.mod_one]
  | succ width ih =>
    have hd := hexValue?_hexDigit (Nat.mod_lt n (show 16 > 0 by omega))
    rw [hexNumber?, hexDigits, List.foldlM_append, ← hexNumber?, ih]
    simp only [Option.bind_eq_bind, Option.bind_some, List.foldlM_cons, List.foldlM_nil, hd, Option.map_some]
    rw [pow_succ', Nat.mod_mul, Nat.add_comm]
    rfl

/-- The digits at the end of a text are found again, as none of them is a bracket. -/
theorem hexNumber?_rtake_append {width : Nat} (hwidth : 0 < width) (cs : List Char) (n : Nat) :
    hexNumber? (((cs ++ hexDigits width n).rdropWhile (· == ')')).rtake width) = some (n % 16 ^ width) := by
  have hd : (cs ++ hexDigits width n).rdropWhile (· == ')') = cs ++ hexDigits width n := by
    obtain ⟨width, rfl⟩ := Nat.exists_eq_succ_of_ne_zero hwidth.ne'
    rw [hexDigits, ← List.append_assoc, List.rdropWhile_concat_neg]
    simpa using hexDigit_ne_bracket (Nat.mod_lt n (show 16 > 0 by omega))
  rw [hd, List.rtake, List.length_append, length_hexDigits, Nat.add_sub_cancel, List.drop_left,
    hexNumber?_hexDigits]

theorem lastWord?_append (s : String) (w : UInt16) : lastWord? (s ++ hexWord w) = some w := by
  have := w.toNat_lt
  rw [lastWord?, String.toList_append, hexWord, String.toList_ofList, hexNumber?_rtake_append (by decide),
    Nat.mod_eq_of_lt (by omega), Option.map_some, UInt16.ofNat_toNat]

theorem rdropWhile_append_bracket (s : String) :
    (s ++ ")").toList.rdropWhile (· == ')') = s.toList.rdropWhile (· == ')') := by
  rw [String.toList_append]
  exact List.rdropWhile_concat_pos _ _ _ (by decide)

theorem lastWord?_append_bracket (s : String) : lastWord? (s ++ ")") = lastWord? s := by
  rw [lastWord?, rdropWhile_append_bracket, ← lastWord?]

end Micro8051.Text
