/-
The walk of a listing. What it leaves behind from an address to another is a chain of decoded
instructions, each of which begins where the one before it ends (`Listed`). A walk with a result has
such a chain up to the end of the image or of the address space; a walk that fails has one up to the
address of the fault. Conversely such a chain is what the walk finds.
-/
import Mathlib.Tactic
import Micro8051.Image.Line
import Micro8051.Proofs.Image.Fetch

namespace Micro8051

/-- From address `a` to address `e` the image reads as `ls`. Addresses are natural numbers here: the
last instruction may end beyond the end of the address space. -/
inductive Listed (image : Image) : Nat → List Line → Nat → Prop where
  | nil (a : Nat) : Listed image a [] a
  | cons {a e : Nat} {d : Decoded} {ls : List Line} (ha : a < UInt16.size)
      (hf : fetch image (UInt16.ofNat a) = .ok d) (rest : Listed image (a + d.row.length) ls e) :
      Listed image a (d.line :: ls) e

namespace Listed

variable {image : Image} {a e : Nat} {ls : List Line}

/-! ## Ends of a chain -/

theorem le (h : Listed image a ls e) : a ≤ e := by
  induction h with
  | nil a => exact le_rfl
  | cons ha hf rest ih => omega

theorem le_size (h : Listed image a ls e) (ha : a ≤ image.size) : e ≤ image.size := by
  induction h with
  | nil a => exact ha
  | cons hlt hf rest ih =>
    have := (length_of_fetch hf).2.2
    rw [UInt16.toNat_ofNat_of_lt' hlt] at this
    exact ih this

/-- An instruction begins inside the address space, so it ends at most two bytes beyond. -/
theorem le_add_two (h : Listed image a ls e) (ha : a ≤ UInt16.size + 2) : e ≤ UInt16.size + 2 := by
  induction h with
  | nil a => exact ha
  | cons hlt hf rest ih =>
    have := (length_of_fetch hf).2.1
    exact ih (by omega)

theorem length_le (h : Listed image a ls e) : a + ls.length ≤ e := by
  induction h with
  | nil a => exact le_rfl
  | cons hlt hf rest ih =>
    have := (length_of_fetch hf).1
    rw [List.length_cons]
    omega

/-- Two lines never share an address, so there are no more lines than addresses from `a` on. -/
theorem length_le_sub (h : Listed image a ls e) : ls.length ≤ UInt16.size - a := by
  -- beyond the address space there is no line, so the subtraction loses nothing
  induction h with
  | nil a => exact Nat.zero_le _
  | cons hlt hf rest ih =>
    have := (length_of_fetch hf).1
    rw [List.length_cons]
    omega

/-! ## Lines of a chain -/

theorem addr_of_cons {l : Line} (h : Listed image a (l :: ls) e) : l.addr.toNat = a := by
  cases h with
  | cons hlt hf rest => simp only [Decoded.line, pc_of_fetch hf, UInt16.toNat_ofNat_of_lt' hlt]

/-- Each line is the line of the instruction at its address. -/
theorem fetch_of_mem (h : Listed image a ls e) {l : Line} (hl : l ∈ ls) :
    ∃ d, fetch image l.addr = .ok d ∧ l = d.line := by
  induction h with
  | nil a => cases hl
  | @cons a e d ls hlt hf rest ih =>
    rcases List.mem_cons.1 hl with rfl | hl
    · refine ⟨d, ?_, rfl⟩
      rw [Decoded.line, pc_of_fetch hf, hf]
    · exact ih hl

/-- Each line begins where the bytes of the line before it end. -/
theorem adjacent (h : Listed image a ls e) :
    ls.IsChain fun l l' => l'.addr.toNat = l.addr.toNat + l.bytes.length := by
  induction h with
  | nil a => exact .nil
  | @cons a e d ls hlt hf rest ih =>
    cases ls with
    | nil => exact .singleton _
    | cons l ls =>
      refine .cons_cons ?_ ih
      rw [rest.addr_of_cons, Decoded.line, pc_of_fetch hf, length_bytes_of_fetch hf,
        UInt16.toNat_ofNat_of_lt' hlt]

/-- The bytes of the lines are those of the image between the two addresses. -/
theorem bytes (h : Listed image a ls e) : ls.flatMap Line.bytes = (image.toList.drop a).take (e - a) := by
  induction h with
  | nil a => simp
  | @cons a e d ls hlt hf rest ih =>
    have hle := rest.le
    have hb := bytes_of_fetch hf
    rw [UInt16.toNat_ofNat_of_lt' hlt] at hb
    rw [List.flatMap_cons, ih, Decoded.line, hb, ← List.drop_drop, ← List.take_add]
    congr 1
    omega

/-- A chain depends on the bytes of the image before its end only. -/
theorem congr {image' : Image} (h : Listed image a ls e) (hle : e ≤ image'.size)
    (hb : ∀ i < e, image'[i]? = image[i]?) : Listed image' a ls e := by
  induction h with
  | nil a => exact .nil a
  | cons hlt hf rest ih =>
    have := rest.le
    refine .cons hlt (fetch_congr hf ?_ ?_) (ih hle hb)
    · rw [UInt16.toNat_ofNat_of_lt' hlt]
      omega
    · rw [UInt16.toNat_ofNat_of_lt' hlt]
      exact fun i _ hi => hb i (by omega)

end Listed

/-! ## The walk -/

section Walk

variable {image : Image} {addr : UInt16} {done : Array Line}

/-- The walk goes on exactly when the instruction ends inside the address space; the next address is
then where the instruction ends. -/
theorem lt_next_of_fetch {d : Decoded} (h : fetch image addr = .ok d) :
    (addr < d.next ↔ addr.toNat + d.row.length < UInt16.size) ∧
      (addr < d.next → d.next.toNat = addr.toNat + d.row.length) := by
  obtain ⟨h1, h3, -⟩ := length_of_fetch h
  have ha := addr.toNat_lt
  have hn : d.next.toNat = (addr.toNat + d.row.length) % 65536 := by
    rw [Decoded.next, pc_of_fetch h, UInt16.toNat_add, UInt16.toNat_ofNat']
    omega
  rw [UInt16.lt_iff_toNat_lt, hn]
  simp only [UInt16.size]
  constructor
  · omega
  · omega

/-- A walk with a result leaves a chain up to the end of the image or of the address space. -/
theorem Image.linesFrom_eq_ok {r : Array Line} (h : image.linesFrom addr done = .ok r) :
    ∃ ls e, r = done ++ ls.toArray ∧ Listed image addr.toNat ls e ∧ (image.size ≤ e ∨ UInt16.size ≤ e) := by
  induction addr, done using Image.linesFrom.induct image with
  | case1 addr done hlt fault hf =>
    rw [linesFrom, if_pos hlt, hf] at h
    cases h
  | case2 addr done hlt d hf hn ih =>
    rw [linesFrom, if_pos hlt, hf] at h
    simp only [dif_pos hn] at h
    obtain ⟨ls, e, rfl, hl, he⟩ := ih h
    rw [(lt_next_of_fetch hf).2 hn] at hl
    refine ⟨d.line :: ls, e, by simp, .cons addr.toNat_lt ?_ hl, he⟩
    rwa [UInt16.ofNat_toNat]
  | case3 addr done hlt d hf hn =>
    rw [linesFrom, if_pos hlt, hf] at h
    simp only [dif_neg hn] at h
    cases h
    rw [(lt_next_of_fetch hf).1, not_lt] at hn
    refine ⟨[d.line], _, by simp, .cons addr.toNat_lt ?_ (.nil _), .inr hn⟩
    rwa [UInt16.ofNat_toNat]
  | case4 addr done hge =>
    rw [linesFrom, if_neg hge] at h
    cases h
    exact ⟨[], _, by simp, .nil _, .inl (not_lt.1 hge)⟩

/-- A walk that fails leaves a chain up to the address of the fault. -/
theorem Image.linesFrom_eq_error {fault : Fault} (h : image.linesFrom addr done = .error fault) :
    ∃ (ls : List Line) (pc : UInt16), Listed image addr.toNat ls pc.toNat ∧ pc.toNat < image.size ∧
      fetch image pc = .error fault := by
  induction addr, done using Image.linesFrom.induct image with
  | case1 addr done hlt fault' hf =>
    rw [linesFrom, if_pos hlt, hf] at h
    cases h
    exact ⟨[], addr, .nil _, hlt, hf⟩
  | case2 addr done hlt d hf hn ih =>
    rw [linesFrom, if_pos hlt, hf] at h
    simp only [dif_pos hn] at h
    obtain ⟨ls, pc, hl, hpc, he⟩ := ih h
    rw [(lt_next_of_fetch hf).2 hn] at hl
    refine ⟨d.line :: ls, pc, .cons addr.toNat_lt ?_ hl, hpc, he⟩
    rwa [UInt16.ofNat_toNat]
  | case3 addr done hlt d hf hn =>
    rw [linesFrom, if_pos hlt, hf] at h
    simp only [dif_neg hn] at h
    cases h
  | case4 addr done hge =>
    rw [linesFrom, if_neg hge] at h
    cases h

/-- The walk finds each chain that ends at the end of the image or of the address space. -/
theorem Listed.linesFrom_eq {ls : List Line} {a e : Nat} (h : Listed image a ls e)
    (he : image.size ≤ e ∨ UInt16.size ≤ e) (ha : addr.toNat = a) :
    image.linesFrom addr done = .ok (done ++ ls.toArray) := by
  induction h generalizing addr done with
  | nil a =>
    have := addr.toNat_lt
    rw [Image.linesFrom, if_neg (by simp only [UInt16.size] at he; omega)]
    simp
  | @cons a e d ls hlt hf rest ih =>
    subst ha
    rw [UInt16.ofNat_toNat] at hf
    obtain ⟨h1, -, hle⟩ := length_of_fetch hf
    rw [Image.linesFrom, if_pos (by omega), hf]
    by_cases hn : addr < d.next
    · simp only [dif_pos hn]
      rw [ih he ((lt_next_of_fetch hf).2 hn)]
      simp
    · -- the instruction reaches the end of the address space, where no line begins
      simp only [dif_neg hn]
      rw [(lt_next_of_fetch hf).1, not_lt] at hn
      cases rest with
      | nil _ => simp
      | cons hlt' _ _ => omega

/-- A chain that ends where nothing can be fetched makes the walk fail. -/
theorem Listed.linesFrom_eq_error {ls : List Line} {a e : Nat} {fault : Fault} (h : Listed image a ls e)
    (he : e < image.size) (hsize : e < UInt16.size) (hf : fetch image (UInt16.ofNat e) = .error fault)
    (ha : addr.toNat = a) : image.linesFrom addr done = .error fault := by
  induction h generalizing addr done with
  | nil a =>
    subst ha
    rw [UInt16.ofNat_toNat] at hf
    rw [Image.linesFrom, if_pos he, hf]
  | @cons a e d ls hlt hfetch rest ih =>
    subst ha
    rw [UInt16.ofNat_toNat] at hfetch
    have hle := rest.le
    have hn : addr < d.next := (lt_next_of_fetch hfetch).1.2 (by omega)
    rw [Image.linesFrom, if_pos (by omega), hfetch]
    simp only [dif_pos hn]
    exact ih he hsize hf ((lt_next_of_fetch hfetch).2 hn)

/-- Two chains of which one begins where the other ends are one. -/
theorem Listed.append {ls ls' : List Line} {a e e' : Nat} (h : Listed image a ls e)
    (h' : Listed image e ls' e') : Listed image a (ls ++ ls') e' := by
  induction h with
  | nil a => exact h'
  | cons hlt hf rest ih => exact .cons hlt hf (ih h')

end Walk

end Micro8051
