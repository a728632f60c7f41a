/-
The text of operands read back: the parts of a list of operands, the byte that ends a direct or an immediate
operand, and the signed offset of a relative jump.
-/
import Mathlib.Data.FinEnum
import Micro8051.Instr.Text
import Micro8051.Proofs.Text.Columns

namespace Micro8051.Text

/-! ## Lists of operands -/

/-- The operands in a text, which have commas and spaces between them. -/
def operands (s : String) : List String :=
  (split ',' s).map fun part => String.ofList (part.toList.dropWhile (· == ' '))

/-- The text is an operand on its own: it has neither commas nor spaces. -/
def Atomic (s : String) : Prop := ',' ∉ s.toList ∧ ' ' ∉ s.toList

instance (s : String) : Decidable (Atomic s) := inferInstanceAs (Decidable (_ ∧ _))

variable {c : Char} {s t : String}

theorem Atomic.dropWhile_toList (h : Atomic s) : String.ofList (s.toList.dropWhile (· == ' ')) = s := by
  have hd : s.toList.dropWhile (· == ' ') = s.toList := by
    cases hs : s.toList with
    | nil => rfl
    | cons c cs =>
      have hc : c ≠ ' ' := fun e => h.2 (by simp [hs, e])
      rw [List.dropWhile_cons_of_neg (by simpa using hc)]
  rw [hd, String.ofList_toList]

theorem not_mem_append (hs : c ∉ s.toList) (ht : c ∉ t.toList) : c ∉ (s ++ t).toList := by
  rw [String.toList_append, List.mem_append]
  exact not_or.2 ⟨hs, ht⟩

theorem Atomic.append (hs : Atomic s) (ht : Atomic t) : Atomic (s ++ t) :=
  ⟨not_mem_append hs.1 ht.1, not_mem_append hs.2 ht.2⟩

theorem operands_of_atomic (h : Atomic s) : operands s = [s] := by
  have hs : split ',' s = [s] := by
    have hjoin : split ',' (",".intercalate [s]) = [s] :=
      split_intercalate rfl (List.cons_ne_nil s []) (by simpa using h.1)
    rwa [String.intercalate_singleton] at hjoin
  rw [operands, hs, List.map_singleton, h.dropWhile_toList]

theorem operands_append (hs : Atomic s) (ht : Atomic t) : operands (s ++ ", " ++ t) = [s, t] := by
  have hspace : ',' ∉ (" " ++ t).toList := not_mem_append (by decide) ht.1
  have hjoin : s ++ ", " ++ t = ",".intercalate [s, " " ++ t] := by
    rw [String.intercalate_cons_cons, String.intercalate_singleton, show ", " = "," ++ " " from rfl]
    simp only [String.append_assoc]
  have hsplit : split ',' (s ++ ", " ++ t) = [s, " " ++ t] := by
    rw [hjoin]
    exact split_intercalate rfl (List.cons_ne_nil _ _) (by simpa using ⟨hs.1, by simpa using hspace⟩)
  have hdrop : (" " ++ t).toList.dropWhile (· == ' ') = t.toList.dropWhile (· == ' ') := by
    rw [String.toList_append, show " ".toList = [' '] from rfl, List.singleton_append,
      List.dropWhile_cons_of_pos (by decide)]
  rw [operands, hsplit, List.map_cons, List.map_singleton, hs.dropWhile_toList, hdrop, ht.dropWhile_toList]

/-! ## Digits -/

theorem hexDigit_isAlphanum {n : Nat} (h : n < 16) : (hexDigit n).isAlphanum = true := by
  interval_cases n <;> decide

/-- Characters that are neither letters nor digits do not occur among digits. -/
theorem not_mem_hexDigits (hc : c.isAlphanum = false) (width n : Nat) : c ∉ hexDigits width n := by
  induction width generalizing n with
  | zero => exact List.not_mem_nil
  | succ width ih =>
    rw [hexDigits, List.mem_append, List.mem_singleton]
    refine not_or.2 ⟨ih _, ?_⟩
    rintro rfl
    rw [hexDigit_isAlphanum (Nat.mod_lt n (by decide))] at hc
    cases hc

theorem not_mem_hexByte (hc : c.isAlphanum = false) (b : UInt8) : c ∉ (hexByte b).toList := by
  rw [hexByte, String.toList_ofList]
  exact not_mem_hexDigits hc 2 _

theorem not_mem_hexWord (hc : c.isAlphanum = false) (w : UInt16) : c ∉ (hexWord w).toList := by
  rw [hexWord, String.toList_ofList]
  exact not_mem_hexDigits hc 4 _

theorem atomic_hexByte (b : UInt8) : Atomic (hexByte b) :=
  ⟨not_mem_hexByte (by decide) b, not_mem_hexByte (by decide) b⟩

theorem atomic_hexWord (w : UInt16) : Atomic (hexWord w) :=
  ⟨not_mem_hexWord (by decide) w, not_mem_hexWord (by decide) w⟩

theorem not_mem_toString (hc : c.isDigit = false) (n : Nat) : c ∉ (toString n).toList := by
  intro h
  rw [show toString n = n.repr from rfl, Nat.toList_repr] at h
  rw [Nat.isDigit_of_mem_toDigits (by omega) (by omega) h] at hc
  cases hc

/-! ## Bytes -/

/-- The byte in the last two digits of a text, where closing brackets may follow. -/
def lastByte? (s : String) : Option UInt8 :=
  (hexNumber? ((s.toList.rdropWhile (· == ')')).rtake 2)).map UInt8.ofNat

theorem lastByte?_append (s : String) (b : UInt8) : lastByte? (s ++ hexByte b) = some b := by
  have := b.toNat_lt
  rw [lastByte?, String.toList_append, hexByte, String.toList_ofList, hexNumber?_rtake_append (by decide),
    Nat.mod_eq_of_lt (by omega), Option.map_some, UInt8.ofNat_toNat]

theorem lastByte?_append_bracket (s : String) : lastByte? (s ++ ")") = lastByte? s := by
  rw [lastByte?, rdropWhile_append_bracket, ← lastByte?]

theorem lastByte?_directText (addr : UInt8) : lastByte? (directText addr) = some addr := by
  unfold directText
  split
  · rw [lastByte?_append_bracket, lastByte?_append]
  · exact lastByte?_append _ _

theorem lastByte?_immediateText (v : UInt8) : lastByte? (immediateText v) = some v := lastByte?_append _ _

theorem not_mem_name (hc : c.isAlphanum = false) {r : Sfr} {addr : UInt8} (h : Sfr.byAddress? addr = some r) :
    c ∉ r.name.toList := by
  have hall : ∀ r ∈ Sfr.table, r.name.toList.all Char.isAlphanum = true := by decide +kernel
  intro hm
  rw [List.all_eq_true.1 (hall r (List.mem_of_find?_eq_some h)) c hm] at hc
  cases hc

theorem not_mem_directText (hc : c.isAlphanum = false) (hopen : c ≠ '(') (hclose : c ≠ ')') (addr : UInt8) :
    c ∉ (directText addr).toList := by
  have hzero : c ≠ '0' := by rintro rfl; cases hc
  have hx : c ≠ 'x' := by rintro rfl; cases hc
  have hbyte := not_mem_hexByte hc addr
  unfold directText
  split
  · rename_i r hr
    have hname : c ∉ (r.name ++ "(0x").toList := not_mem_append (not_mem_name hc hr) (by simp [hopen, hzero, hx])
    exact not_mem_append (not_mem_append hname hbyte) (by simpa using hclose)
  · exact not_mem_append (by simp [hzero, hx]) hbyte

theorem atomic_directText (addr : UInt8) : Atomic (directText addr) :=
  ⟨not_mem_directText (by decide) (by decide) (by decide) addr,
    not_mem_directText (by decide) (by decide) (by decide) addr⟩

theorem atomic_immediateText (v : UInt8) : Atomic (immediateText v) := .append (by decide) (atomic_hexByte v)

/-! ## Offsets -/

/-- The number with the given decimal digits. -/
def decimal? (cs : List Char) : Option Nat :=
  cs.foldlM (fun n c => if c.isDigit then some (10 * n + (c.toNat - 0x30)) else none) 0

/-- The byte that is a number in decimal, which may have a sign, when it is read as a signed number. -/
def signed? : List Char → Option UInt8
  | '-' :: cs => (decimal? cs).map fun n => (Int8.ofInt (-n)).toUInt8
  | cs => (decimal? cs).map fun n => (Int8.ofInt n).toUInt8

/-- The offset of a relative jump, which stands between the colon and the bracket. -/
def offset? (s : String) : Option UInt8 :=
  match split '(' s with
  | [before, _] => signed? (before.toList.drop 2)
  | _ => none

theorem signed?_signedText (b : UInt8) : signed? (signedText b).toList = some b := by
  revert b
  decide +kernel

theorem not_mem_signedText (hc : c.isDigit = false) (hsign : c ≠ '-') (b : UInt8) :
    c ∉ (signedText b).toList := by
  unfold signedText
  split
  · exact not_mem_toString hc _
  · exact not_mem_append (by simpa using hsign) (not_mem_toString hc _)

theorem atomic_signedText (b : UInt8) : Atomic (signedText b) :=
  ⟨not_mem_signedText (by decide) (by decide) b, not_mem_signedText (by decide) (by decide) b⟩

theorem atomic_relativeText (next : UInt16) (rel : UInt8) : Atomic (relativeText next rel) :=
  ((((show Atomic "C:" by decide).append (atomic_signedText rel)).append (by decide)).append
    (atomic_hexWord _)).append (by decide)

theorem offset?_relativeText (next : UInt16) (rel : UInt8) : offset? (relativeText next rel) = some rel := by
  have hjoin : relativeText next rel =
      "(".intercalate ["C:" ++ signedText rel, hexWord (displace next rel) ++ ")"] := by
    rw [String.intercalate_cons_cons, String.intercalate_singleton, relativeText]
    simp only [String.append_assoc]
  have hsplit : split '(' (relativeText next rel) = ["C:" ++ signedText rel, hexWord (displace next rel) ++ ")"] := by
    rw [hjoin]
    refine split_intercalate rfl (List.cons_ne_nil _ _) fun s hs => ?_
    simp only [List.mem_cons, List.not_mem_nil, or_false] at hs
    rcases hs with rfl | rfl
    · exact not_mem_append (by decide) (not_mem_signedText (by decide) (by decide) rel)
    · exact not_mem_append (not_mem_hexWord (by decide) _) (by decide)
  have hdrop : ("C:" ++ signedText rel).toList.drop 2 = (signedText rel).toList := by
    rw [String.toList_append]
    rfl
  rw [offset?, hsplit]
  simp only
  rw [hdrop, signed?_signedText]

end Micro8051.Text
