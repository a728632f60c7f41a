/-
Texts in lines and columns. A text is split at a character; what was joined by that character is found
again, provided it does not occur inside the parts. Numbers and hexadecimal digits are plain: they have
neither tabs nor line breaks.
-/
import Micro8051.Proofs.Text.Hex

namespace Micro8051.Text

/-! ## Splitting -/

/-- The parts of a text before, between and after the occurrences of a character. -/
def split (c : Char) (s : String) : List String := (s.toList.splitOn c).map String.ofList

/-- The lines of a text. The empty text has none. -/
def lines (s : String) : List String := if s = "" then [] else split '\n' s

/-- What is joined by a character that occurs in none of the parts is split into these parts. -/
theorem split_intercalate {c : Char} {sep : String} {parts : List String} (hsep : sep.toList = [c])
    (hne : parts ≠ []) (hparts : ∀ s ∈ parts, c ∉ s.toList) : split c (sep.intercalate parts) = parts := by
  have hsplit : ([c].intercalate (parts.map String.toList)).splitOn c = parts.map String.toList := by
    refine List.splitOn_intercalate c ?_ (by simpa using hne)
    intro l hl
    obtain ⟨s, hs, rfl⟩ := List.mem_map.1 hl
    exact hparts s hs
  rw [split, String.toList_intercalate, hsep, hsplit, List.map_map]
  exact List.map_id'' (fun s => String.ofList_toList) parts

theorem intercalate_ne_empty {sep : String} {parts : List String} (hne : parts ≠ [])
    (hparts : ∀ s ∈ parts, s ≠ "") : sep.intercalate parts ≠ "" := by
  intro h
  cases parts with
  | nil => exact hne rfl
  | cons s rest =>
    have hs : s ≠ "" := hparts s (List.mem_cons_self ..)
    cases rest with
    | nil => exact hs (by simpa using h)
    | cons t rest =>
      rw [String.intercalate_cons_cons, String.append_assoc, String.append_eq_empty_iff] at h
      exact hs h.1

theorem not_mem_intercalate {c : Char} {sep : String} {parts : List String} (hsep : c ∉ sep.toList)
    (hparts : ∀ s ∈ parts, c ∉ s.toList) : c ∉ (sep.intercalate parts).toList := by
  induction parts with
  | nil => simp
  | cons s rest ih =>
    have hs : c ∉ s.toList := hparts s (List.mem_cons_self ..)
    have hrest := ih fun t ht => hparts t (List.mem_cons_of_mem _ ht)
    cases rest with
    | nil => simpa using hs
    | cons t rest =>
      simp only [String.intercalate_cons_cons, String.toList_append, List.mem_append]
      exact not_or.2 ⟨not_or.2 ⟨hs, hsep⟩, hrest⟩

theorem lines_intercalate {parts : List String} (hne : ∀ s ∈ parts, s ≠ "")
    (hparts : ∀ s ∈ parts, '\n' ∉ s.toList) : lines ("\n".intercalate parts) = parts := by
  unfold lines
  rcases eq_or_ne parts [] with rfl | h
  · rfl
  · rw [if_neg (intercalate_ne_empty h hne)]
    exact split_intercalate rfl h hparts

/-! ## Plain texts -/

/-- The characters that stand between the parts of a text. -/
def separators : List Char := ['\t', '\n', ' ']

/-- The text has neither tabs nor line breaks. -/
def Plain (s : String) : Prop := '\t' ∉ s.toList ∧ '\n' ∉ s.toList

instance (s : String) : Decidable (Plain s) := inferInstanceAs (Decidable (_ ∧ _))

theorem Plain.append {s t : String} (hs : Plain s) (ht : Plain t) : Plain (s ++ t) := by
  unfold Plain
  rw [String.toList_append, List.mem_append, List.mem_append]
  exact ⟨not_or.2 ⟨hs.1, ht.1⟩, not_or.2 ⟨hs.2, ht.2⟩⟩

theorem Plain.intercalate {sep : String} {parts : List String} (hsep : Plain sep) (hparts : ∀ s ∈ parts, Plain s) :
    Plain (sep.intercalate parts) :=
  ⟨not_mem_intercalate hsep.1 fun s hs => (hparts s hs).1, not_mem_intercalate hsep.2 fun s hs => (hparts s hs).2⟩

theorem plain_of_forall {s : String} (h : ∀ c ∈ s.toList, c ∉ separators) : Plain s :=
  ⟨fun hc => h _ hc (by decide), fun hc => h _ hc (by decide)⟩

theorem hexDigit_not_mem_separators {n : Nat} (h : n < 16) : hexDigit n ∉ separators := by
  interval_cases n <;> decide

theorem not_mem_separators_of_mem_hexDigits {width n : Nat} {c : Char} (h : c ∈ hexDigits width n) :
    c ∉ separators := by
  induction width generalizing n with
  | zero => cases h
  | succ width ih =>
    rw [hexDigits, List.mem_append, List.mem_singleton] at h
    rcases h with h | rfl
    · exact ih h
    · exact hexDigit_not_mem_separators (Nat.mod_lt n (by decide))

theorem plain_hexByte (b : UInt8) : Plain (hexByte b) := by
  refine plain_of_forall fun c hc => ?_
  rw [hexByte, String.toList_ofList] at hc
  exact not_mem_separators_of_mem_hexDigits hc

theorem plain_hexWord (w : UInt16) : Plain (hexWord w) := by
  refine plain_of_forall fun c hc => ?_
  rw [hexWord, String.toList_ofList] at hc
  exact not_mem_separators_of_mem_hexDigits hc

theorem plain_toString (n : Nat) : Plain (toString n) := by
  refine plain_of_forall fun c hc hsep => ?_
  rw [show toString n = n.repr from rfl, Nat.toList_repr] at hc
  have hd : c.isDigit := Nat.isDigit_of_mem_toDigits (by omega) (by omega) hc
  have hnone : (separators.all fun c => !c.isDigit) = true := by decide
  have hnd := List.all_eq_true.1 hnone c hsep
  rw [hd] at hnd
  cases hnd

/-! ## Bytes -/

/-- The byte that a text of two hexadecimal digits stands for. -/
def byte? (s : String) : Option UInt8 :=
  if s.length = 2 then (hexNumber? s.toList).map UInt8.ofNat else none

/-- The bytes of a text of hexadecimal bytes with spaces between them. -/
def bytes? (s : String) : Option (List UInt8) := (split ' ' s).mapM byte?

theorem byte?_hexByte (b : UInt8) : byte? (hexByte b) = some b := by
  have hlength : (hexByte b).length = 2 := by
    rw [hexByte, String.length_ofList, length_hexDigits]
  have hlt : b.toNat % 16 ^ 2 = b.toNat := Nat.mod_eq_of_lt b.toNat_lt
  rw [byte?, if_pos hlength, hexByte, String.toList_ofList, hexNumber?_hexDigits, hlt, Option.map_some,
    UInt8.ofNat_toNat]

theorem mapM_byte?_hexByte (bs : List UInt8) : (bs.map hexByte).mapM byte? = some bs := by
  induction bs with
  | nil => rfl
  | cons b bs ih =>
    rw [List.map_cons, List.mapM_cons, byte?_hexByte, ih]
    rfl

theorem bytes?_intercalate {bs : List UInt8} (hne : bs ≠ []) :
    bytes? (" ".intercalate (bs.map hexByte)) = some bs := by
  have hsplit : split ' ' (" ".intercalate (bs.map hexByte)) = bs.map hexByte := by
    refine split_intercalate rfl (by simpa using hne) fun s hs hc => ?_
    obtain ⟨b, -, rfl⟩ := List.mem_map.1 hs
    rw [hexByte, String.toList_ofList] at hc
    exact not_mem_separators_of_mem_hexDigits hc (by decide)
  rw [bytes?, hsplit, mapM_byte?_hexByte]

end Micro8051.Text
