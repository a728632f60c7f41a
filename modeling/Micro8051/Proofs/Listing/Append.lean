/-
The listing of two images in a row: the lines of the first, then those of the second moved behind
it. Of a line that is moved only the address and the printed target of a relative jump are other
ones, since nothing else in the text of an instruction depends on where it stands. If the second
image has a fault, the two in a row have that fault, moved as well.
-/
import Micro8051.Proofs.Listing.Walk
import Micro8051.Proofs.Instr.Target

namespace Micro8051

variable {A B image : Image} {pc next : UInt16} {n : Nat}

/-! ## Moved text -/

/-- The text with the word in the brackets at its end moved by `n`, modulo `2^16`. The rest of the
text, up to the four digits and the closing bracket, stays. -/
def Text.moveTarget (n : Nat) (s : String) : String :=
  match lastWord? s with
  | some t => String.ofList (s.toList.rdrop 5) ++ hexWord (t + UInt16.ofNat n) ++ ")"
  | none => s

theorem Text.moveTarget_append (n : Nat) (s : String) (t : UInt16) :
    moveTarget n (s ++ hexWord t ++ ")") = s ++ hexWord (t + UInt16.ofNat n) ++ ")" := by
  have hlast : lastWord? (s ++ hexWord t ++ ")") = some t := by
    rw [lastWord?_append_bracket, lastWord?_append]
  have hchars : (s ++ hexWord t ++ ")").toList = s.toList ++ (hexDigits 4 t.toNat ++ [')']) := by
    simp [hexWord]
  have hdrop : (s ++ hexWord t ++ ")").toList.rdrop 5 = s.toList := by
    rw [hchars, show 5 = (hexDigits 4 t.toNat ++ [')']).length by simp [length_hexDigits],
      List.rdrop_append_length]
  rw [moveTarget, hlast]
  simp only [hdrop, String.ofList_toList]

/-- The mnemonics of the relative jumps. -/
def Instr.relatives : List String := ["SJMP", "JZ", "JNZ", "DJNZ"]

theorem displace_add (w w' : UInt16) (off : UInt8) : displace (w + w') off = displace w off + w' := by
  unfold displace
  ac_rfl

theorem moveTarget_relativeText (s : String) (next : UInt16) (rel : UInt8) (n : Nat) :
    Text.moveTarget n (s ++ relativeText next rel) = s ++ relativeText (next + UInt16.ofNat n) rel := by
  simp only [relativeText, ← String.append_assoc, Text.moveTarget_append, displace_add]

/-- The text of the operands depends on the address through the target of a relative jump alone. -/
theorem Instr.operandText_add (i : Instr UInt8) (next : UInt16) (n : Nat) :
    i.operandText (next + UInt16.ofNat n) =
      if i.mnemonic ∈ relatives then (i.operandText next).map (Text.moveTarget n)
      else i.operandText next := by
  cases i with
  | sjmp rel | jz rel | jnz rel =>
    exact congrArg some (by simpa using (moveTarget_relativeText "" next rel n).symm)
  | djnz p rel => exact congrArg some (moveTarget_relativeText (p.text ++ ", ") next rel n).symm
  | _ => rfl

/-! ## Moved instructions -/

/-- The instruction `n` addresses further on. -/
def Decoded.shift (n : Nat) (d : Decoded) : Decoded := { d with pc := d.pc + UInt16.ofNat n }

/-- The fault `n` addresses further on, in a program memory that is larger by `n` bytes. -/
def Fault.shift (n : Nat) : Fault → Fault
  | .unimplemented opcode pc => .unimplemented opcode (pc + UInt16.ofNat n)
  | .outOfBounds addr size => .outOfBounds (addr + UInt16.ofNat n) (size + n)

/-- The line of an instruction that is moved by `n`: the same bytes, mnemonic and operands, except
that the target in brackets of a relative jump is moved too. -/
def Line.shift (n : Nat) (l : Line) : Line where
  addr := l.addr + UInt16.ofNat n
  bytes := l.bytes
  mnemonic := l.mnemonic
  operands := if l.mnemonic ∈ Instr.relatives then l.operands.map (Text.moveTarget n) else l.operands

theorem Decoded.next_shift (n : Nat) (d : Decoded) : (d.shift n).next = d.next + UInt16.ofNat n := by
  change d.pc + UInt16.ofNat n + UInt16.ofNat d.row.length = d.pc + UInt16.ofNat d.row.length + UInt16.ofNat n
  ac_rfl

theorem Decoded.line_shift {d : Decoded} (h : fetch image pc = .ok d) (n : Nat) :
    (d.shift n).line = d.line.shift n := by
  have htext : (d.shift n).operandText = d.instr.operandText (d.next + UInt16.ofNat n) := by
    rw [operandText, next_shift]
    rfl
  have hmn : d.row.mnemonic = d.instr.mnemonic := mnemonic_of_fetch h
  rw [line, htext, Instr.operandText_add, ← hmn]
  rfl

theorem toNat_add_ofNat (h : pc.toNat + n < UInt16.size) : (pc + UInt16.ofNat n).toNat = pc.toNat + n := by
  simp only [UInt16.size] at h
  rw [UInt16.toNat_add, UInt16.toNat_ofNat']
  omega

/-! ## Fetching behind another image -/

theorem operand_append (row : Row) (i : Nat) (h : pc.toNat + A.size < UInt16.size) :
    fetch.operand (A ++ B) (pc + UInt16.ofNat A.size) row i = fetch.operand B pc row i := by
  unfold fetch.operand
  rw [toNat_add_ofNat h, Array.getElem?_append_right (by omega),
    show pc.toNat + A.size + i - A.size = pc.toNat + i by omega]

/-- Behind another image the same is fetched, moved by the size of that image. -/
theorem fetch_append (h : pc.toNat + A.size < UInt16.size) :
    fetch (A ++ B) (pc + UInt16.ofNat A.size) =
      match fetch B pc with
      | .ok d => .ok (d.shift A.size)
      | .error fault => .error (fault.shift A.size) := by
  have hsize : (A ++ B).size = B.size + A.size := by rw [Array.size_append, Nat.add_comm]
  have hbyte : (A ++ B)[(pc + UInt16.ofNat A.size).toNat]? = B[pc.toNat]? := by
    rw [toNat_add_ofNat h, Array.getElem?_append_right (by omega), Nat.add_sub_cancel]
  unfold fetch
  rw [hbyte, hsize, toNat_add_ofNat h]
  cases ho : B[pc.toNat]? with
  | none => rfl
  | some opcode =>
    cases hr : Row.of? opcode with
    | none => simp only [hr, Fault.shift]
    | some row =>
      simp only [hr, operand_append row _ h]
      -- the instruction is cut off in both images or in neither
      by_cases hle : pc.toNat + row.length ≤ B.size
      · rw [if_pos hle, if_pos (by omega)]
        rfl
      · rw [if_neg hle, if_neg (by omega)]
        rfl

/-! ## Listings in a row -/

/-- The address after a moved chain has moved with it. -/
theorem Listed.shift {ls : List Line} {a e : Nat} (h : Listed B a ls e) (ha : a ≤ B.size)
    (hsize : A.size + B.size ≤ UInt16.size) :
    Listed (A ++ B) (a + A.size) (ls.map (Line.shift A.size)) (e + A.size) := by
  induction h with
  | nil a => exact .nil _
  | @cons a e d ls hlt hf rest ih =>
    obtain ⟨h1, -, hle⟩ := length_of_fetch hf
    rw [UInt16.toNat_ofNat_of_lt' hlt] at hle
    have hf' : fetch (A ++ B) (UInt16.ofNat (a + A.size)) = .ok (d.shift A.size) := by
      rw [UInt16.ofNat_add, fetch_append (by rw [UInt16.toNat_ofNat_of_lt' hlt]; omega), hf]
    -- the next line begins where the moved instruction ends
    rw [List.map_cons, ← Decoded.line_shift hf]
    refine .cons (by omega) hf' ?_
    rw [show a + A.size + (d.shift A.size).row.length = a + d.row.length + A.size from Nat.add_right_comm ..]
    exact ih hle

/-- The chain of an image that is listed goes on behind it. -/
theorem Listed.of_lines_append {la : Array Line} (hsize : A.size + B.size ≤ UInt16.size)
    (ha : Image.lines A = .ok la) : Listed (A ++ B) 0 la.toList A.size := by
  obtain ⟨ls, e, rfl, hl, he⟩ := Image.linesFrom_eq_ok ha
  have hle : e ≤ A.size := hl.le_size (Nat.zero_le _)
  obtain rfl : e = A.size := by omega
  rw [Array.toList_append, List.nil_append]
  refine hl.congr (by rw [Array.size_append]; omega) fun i hi => ?_
  rw [Array.getElem?_append_left hi]

/-- Each line of an image begins inside the image. -/
theorem Image.addr_lt_of_lines {l : Line} {ls : Array Line} (h : image.lines = .ok ls) (hl : l ∈ ls) :
    l.addr.toNat < image.size := by
  obtain ⟨ls, e, rfl, hlisted, -⟩ := Image.linesFrom_eq_ok h
  obtain ⟨d, hf, -⟩ := hlisted.fetch_of_mem (by simpa using hl)
  obtain ⟨h1, -, hle⟩ := length_of_fetch hf
  omega

/-- Two images in a row are listed one after the other, the second one moved behind the first. No
address that is moved wraps around; a printed target may. -/
theorem lines_append {la : Array Line} (hsize : A.size + B.size ≤ UInt16.size) (ha : Image.lines A = .ok la) :
    match Image.lines B with
    | .ok lb =>
      Image.lines (A ++ B) = .ok (la ++ lb.map (Line.shift A.size)) ∧
        ∀ l ∈ lb, (l.shift A.size).addr.toNat = l.addr.toNat + A.size
    | .error fault =>
      Image.lines (A ++ B) = .error (fault.shift A.size) ∧
        (fault.shift A.size).address.toNat = fault.address.toNat + A.size := by
  have hA : Listed (A ++ B) 0 la.toList A.size := Listed.of_lines_append hsize ha
  cases hB : Image.lines B with
  | ok lb =>
    refine ⟨?_, fun l hl => toNat_add_ofNat (by have := Image.addr_lt_of_lines hB hl; omega)⟩
    obtain ⟨ls, e, rfl, hl, he⟩ := Image.linesFrom_eq_ok hB
    have hle : e ≤ B.size := hl.le_size (Nat.zero_le _)
    obtain rfl : e = B.size := by omega
    have hall := hA.append (by simpa using hl.shift (A := A) (Nat.zero_le _) hsize)
    have hend : (A ++ B).size ≤ B.size + A.size := by rw [Array.size_append]; omega
    rw [Image.lines, hall.linesFrom_eq (.inl hend) rfl]
    simp
  | error fault =>
    obtain ⟨ls, pc, hl, hpc, hf⟩ := Image.linesFrom_eq_error hB
    have hlt : pc.toNat + A.size < UInt16.size := by omega
    have hmoved : fetch (A ++ B) (UInt16.ofNat (pc.toNat + A.size)) = .error (fault.shift A.size) := by
      rw [UInt16.ofNat_add, UInt16.ofNat_toNat, fetch_append hlt, hf]
    have hall := hA.append (by simpa using hl.shift (A := A) (Nat.zero_le _) hsize)
    have haddr := address_of_fetch hf
    refine ⟨hall.linesFrom_eq_error (by rw [Array.size_append]; omega) hlt hmoved rfl, ?_⟩
    subst haddr
    cases fault with
    | unimplemented opcode pc => exact toNat_add_ofNat hlt
    | outOfBounds addr size => exact toNat_add_ofNat hlt

/-- Two instructions of three bytes together. -/
def preamble : Image := #[0x00, 0x74, 0x05]

def preambleLines : Array Line := #[⟨0, [0x00], "NOP", none⟩, ⟨1, [0x74, 0x05], "MOV", some "A, #0x05"⟩]

/-- Behind the preamble: two jumps, one of them to an address below zero; an opcode that is not
implemented; a jump that is cut off. -/
theorem lines_append_preamble :
    Image.lines (preamble ++ #[0xD8, 0xFE, 0x80, 0xF9]) =
      .ok (preambleLines ++ #[⟨3, [0xD8, 0xFE], "DJNZ", some "R0, C:-2(0003)"⟩,
        ⟨5, [0x80, 0xF9], "SJMP", some "C:-7(0000)"⟩]) ∧
    Image.lines (preamble ++ #[0x00, 0xA5]) = .error (.unimplemented 0xA5 4) ∧
    Image.lines (preamble ++ #[0x00, 0x02, 0x00]) = .error (.outOfBounds 4 6) := by
  have hpreamble : Image.lines preamble = .ok preambleLines := by decide +kernel
  have hjumps : Image.lines #[0xD8, 0xFE, 0x80, 0xF9] =
      .ok #[⟨0, [0xD8, 0xFE], "DJNZ", some "R0, C:-2(0000)"⟩, ⟨2, [0x80, 0xF9], "SJMP", some "C:-7(FFFD)"⟩] := by
    decide +kernel
  have hopcode : Image.lines #[0x00, 0xA5] = .error (.unimplemented 0xA5 1) := by decide +kernel
  have hcut : Image.lines #[0x00, 0x02, 0x00] = .error (.outOfBounds 1 3) := by decide +kernel
  have h1 := lines_append (A := preamble) (B := #[0xD8, 0xFE, 0x80, 0xF9]) (by decide) hpreamble
  have h2 := lines_append (A := preamble) (B := #[0x00, 0xA5]) (by decide) hpreamble
  have h3 := lines_append (A := preamble) (B := #[0x00, 0x02, 0x00]) (by decide) hpreamble
  rw [hjumps] at h1
  rw [hopcode] at h2
  rw [hcut] at h3
  exact ⟨h1.1.trans (by decide +kernel), h2.1, h3.1⟩

end Micro8051
