/-
When an instruction is fetched and when a fault is, and what is fetched: the row of the opcode and
the bytes of the image from the address on, as many as the row says.
-/
import Micro8051.Proofs.Instr.Table

namespace Micro8051

variable {image : Image} {pc : UInt16}

theorem fetch_eq_ok {d : Decoded} (h : fetch image pc = .ok d) :
    ∃ opcode, image[pc.toNat]? = some opcode ∧ Row.of? opcode = some d.row ∧
      pc.toNat + d.row.length ≤ image.size ∧ d.pc = pc ∧
      d.first = fetch.operand image pc d.row 1 ∧ d.second = fetch.operand image pc d.row 2 := by
  unfold fetch at h
  split at h
  · cases h
  · rename_i opcode ho
    split at h
    · cases h
    · rename_i row hr
      split at h
      · rename_i hle
        cases h
        exact ⟨opcode, ho, hr, hle, rfl, rfl, rfl⟩
      · cases h

/-- The faults of fetching, in the order in which they are looked for. -/
theorem fetch_eq_error {fault : Fault} (h : fetch image pc = .error fault) :
    (image.size ≤ pc.toNat ∧ fault = .outOfBounds pc image.size) ∨
    (∃ opcode, image[pc.toNat]? = some opcode ∧ Row.of? opcode = none ∧ fault = .unimplemented opcode pc) ∨
    (∃ opcode row, image[pc.toNat]? = some opcode ∧ Row.of? opcode = some row ∧
      image.size < pc.toNat + row.length ∧ fault = .outOfBounds pc image.size) := by
  unfold fetch at h
  split at h
  · rename_i hn
    cases h
    exact .inl ⟨by simpa using hn, rfl⟩
  · rename_i opcode ho
    split at h
    · rename_i hr
      cases h
      exact .inr (.inl ⟨opcode, ho, hr, rfl⟩)
    · rename_i row hr
      split at h
      · cases h
      · rename_i hle
        cases h
        exact .inr (.inr ⟨opcode, row, ho, hr, by omega, rfl⟩)

theorem pc_of_fetch {d : Decoded} (h : fetch image pc = .ok d) : d.pc = pc := by
  obtain ⟨_, _, _, _, hpc, _⟩ := fetch_eq_ok h
  exact hpc

theorem length_of_fetch {d : Decoded} (h : fetch image pc = .ok d) :
    1 ≤ d.row.length ∧ d.row.length ≤ 3 ∧ pc.toNat + d.row.length ≤ image.size := by
  obtain ⟨_, _, hr, hle, _⟩ := fetch_eq_ok h
  exact ⟨(Row.length_of_of? hr).1, (Row.length_of_of? hr).2, hle⟩

theorem length_instr_of_fetch {d : Decoded} (h : fetch image pc = .ok d) : d.row.length = d.instr.length := by
  obtain ⟨_, _, hr, _⟩ := fetch_eq_ok h
  rw [Row.length_eq hr, Decoded.instr, Instr.length_map]

theorem mnemonic_of_fetch {d : Decoded} (h : fetch image pc = .ok d) :
    d.row.mnemonic = d.instr.mnemonic := by
  obtain ⟨_, _, hr, _⟩ := fetch_eq_ok h
  rw [Row.mnemonic_eq hr, Decoded.instr, Instr.mnemonic_map]

/-- The address after an instruction. -/
theorem next_of_fetch {d : Decoded} (h : fetch image pc = .ok d) :
    d.next = pc + UInt16.ofNat d.instr.length := by
  rw [Decoded.next, pc_of_fetch h, length_instr_of_fetch h]

/-! ## Faults -/

theorem fetch_of_size_le (h : image.size ≤ pc.toNat) : fetch image pc = .error (.outOfBounds pc image.size) := by
  unfold fetch
  rw [Array.getElem?_eq_none h]

/-- The address that a fault is about. -/
def Fault.address : Fault → UInt16
  | .unimplemented _ pc => pc
  | .outOfBounds addr _ => addr

/-- A fault is about the address that was fetched from. -/
theorem address_of_fetch {fault : Fault} (h : fetch image pc = .error fault) : fault.address = pc := by
  obtain ⟨-, rfl⟩ | ⟨_, -, -, rfl⟩ | ⟨_, _, -, -, -, rfl⟩ := fetch_eq_error h <;> rfl

/-- Inside the image an instruction is out of bounds only near the end. -/
theorem outOfBounds_of_fetch {addr : UInt16} {size : Nat} (hpc : pc.toNat < image.size)
    (h : fetch image pc = .error (.outOfBounds addr size)) : size = image.size ∧ size < pc.toNat + 3 := by
  obtain ⟨hle, -⟩ | ⟨_, -, -, hf⟩ | ⟨_, row, -, hr, hlt, hf⟩ := fetch_eq_error h
  · omega
  · cases hf
  · cases hf
    have := (Row.length_of_of? hr).2
    exact ⟨rfl, by omega⟩

/-! ## Bytes -/

theorem operand_of_lt {row : Row} {i : Nat} (hi : i < row.length)
    (hle : pc.toNat + row.length ≤ image.size) :
    image[pc.toNat + i]? = some (fetch.operand image pc row i) := by
  rw [fetch.operand, if_pos hi, Array.getElem?_eq_getElem (by omega), Option.getD_some]

/-- The bytes of an instruction are those of the image from its address on. -/
theorem bytes_of_fetch {d : Decoded} (h : fetch image pc = .ok d) :
    d.bytes = (image.toList.drop pc.toNat).take d.row.length := by
  obtain ⟨opcode, ho, hr, hle, -, h1, h2⟩ := fetch_eq_ok h
  obtain ⟨hl1, hl3⟩ := Row.length_of_of? hr
  have hop := Row.opcode_of_of? hr
  apply List.ext_getElem?
  intro i
  rw [List.getElem?_take, List.getElem?_drop, Array.getElem?_toList, Decoded.bytes, h1, h2]
  have ho1 : 1 < d.row.length → image[pc.toNat + 1]? = some (fetch.operand image pc d.row 1) :=
    fun hi => operand_of_lt hi hle
  have ho2 : 2 < d.row.length → image[pc.toNat + 2]? = some (fetch.operand image pc d.row 2) :=
    fun hi => operand_of_lt hi hle
  -- the row says how many of the two operand bytes belong to the instruction
  obtain hl | hl | hl : d.row.length = 1 ∨ d.row.length = 2 ∨ d.row.length = 3 := by omega
  · rw [hl]
    match i with
    | 0 => simp [ho, hop]
    | i + 1 => simp
  · rw [hl] at ho1 ⊢
    match i with
    | 0 => simp [ho, hop]
    | 1 => simp [ho1]
    | i + 2 => rw [if_neg (by omega)]; rfl
  · rw [hl] at ho1 ho2 ⊢
    match i with
    | 0 => simp [ho, hop]
    | 1 => simp [ho1]
    | 2 => simp [ho2]
    | i + 3 => rw [if_neg (by omega)]; rfl

theorem length_bytes_of_fetch {d : Decoded} (h : fetch image pc = .ok d) : d.bytes.length = d.row.length := by
  obtain ⟨-, -, hle⟩ := length_of_fetch h
  rw [bytes_of_fetch h, List.length_take, List.length_drop, Array.length_toList]
  omega

/-- Fetching looks at the bytes of the instruction only. -/
theorem fetch_congr {image' : Image} {d : Decoded} (h : fetch image pc = .ok d)
    (hle : pc.toNat + d.row.length ≤ image'.size)
    (hb : ∀ i, pc.toNat ≤ i → i < pc.toNat + d.row.length → image'[i]? = image[i]?) :
    fetch image' pc = .ok d := by
  obtain ⟨opcode, ho, hr, -, hpc, h1, h2⟩ := fetch_eq_ok h
  have hl := (Row.length_of_of? hr).1
  have hop : ∀ i, fetch.operand image' pc d.row i = fetch.operand image pc d.row i := by
    intro i
    unfold fetch.operand
    split
    · rw [hb _ (by omega) (by omega)]
    · rfl
  unfold fetch
  rw [hb _ (Nat.le_refl _) (by omega), ho]
  simp only [hr, if_pos hle, hop]
  obtain ⟨pc', row, first, second⟩ := d
  simp only at hpc h1 h2
  rw [hpc, h1, h2]

end Micro8051
