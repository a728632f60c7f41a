/-
Fetching and the bytes of an instruction are inverse to each other. An instruction is fetched at an address just
when its bytes stand there in the image, whatever is around them and however close to the last address they are.
So two encodings of which one begins with the other are the same: the image that is the longer one has a single
instruction at its start.
-/
import Micro8051.Proofs.Image.Fetch

namespace Micro8051

variable {image : Image} {pc : UInt16} {opcode : UInt8} {row : Row} {d d' : Decoded}

/-! ## Instructions of the table -/

/-- An instruction of the table, with zero for the operand bytes that it does not have. -/
structure Decoded.Proper (d : Decoded) : Prop where
  row : Row.of? d.row.opcode = some d.row
  first : d.row.length < 2 → d.first = 0
  second : d.row.length < 3 → d.second = 0

namespace Decoded.Proper

theorem length_bytes (h : d.Proper) : d.bytes.length = d.row.length := by
  obtain ⟨hpos, hle⟩ := Row.length_of_of? h.row
  simp only [bytes, List.length_cons, List.length_take, List.length_nil]
  omega

/-- Where an instruction is does not matter to whether it is proper. -/
theorem withPc (h : d.Proper) (pc : UInt16) : Decoded.Proper { d with pc := pc } := ⟨h.row, h.first, h.second⟩

end Decoded.Proper

theorem getElem?_bytes_one (hl : 1 < d.row.length) : d.bytes[1]? = some d.first := by
  obtain ⟨n, hn⟩ : ∃ n, d.row.length - 1 = n + 1 := ⟨d.row.length - 2, by omega⟩
  rw [Decoded.bytes, hn]
  rfl

theorem getElem?_bytes_two (hl : 2 < d.row.length) : d.bytes[2]? = some d.second := by
  obtain ⟨n, hn⟩ : ∃ n, d.row.length - 1 = n + 2 := ⟨d.row.length - 3, by omega⟩
  rw [Decoded.bytes, hn]
  rfl

/-! ## Fetching what is there -/

theorem proper_of_fetch (h : fetch image pc = .ok d) : d.Proper := by
  obtain ⟨opcode, -, hr, -, -, h1, h2⟩ := fetch_eq_ok h
  refine ⟨by rwa [Row.opcode_of_of? hr], fun hl => ?_, fun hl => ?_⟩
  · rw [h1, fetch.operand, if_neg (by omega)]
  · rw [h2, fetch.operand, if_neg (by omega)]

/-- A byte of an instruction that stands in the image is the byte of the image. -/
theorem getElem?_of_begins (hb : d.bytes <+: image.toList.drop pc.toNat) {i : Nat} (hi : i < d.bytes.length) :
    image[pc.toNat + i]? = d.bytes[i]? := by
  obtain ⟨rest, hrest⟩ := hb
  rw [← Array.getElem?_toList, ← List.getElem?_drop, ← hrest, List.getElem?_append_left hi]

/-- An instruction is fetched just where its bytes are. -/
theorem fetch_eq_ok_iff :
    fetch image pc = .ok d ↔ d.pc = pc ∧ d.Proper ∧ d.bytes <+: image.toList.drop pc.toNat := by
  constructor
  · intro h
    refine ⟨pc_of_fetch h, proper_of_fetch h, ?_⟩
    rw [bytes_of_fetch h]
    exact List.take_prefix ..
  · rintro ⟨rfl, hd, hb⟩
    have hlen := hd.length_bytes
    have hpos := (Row.length_of_of? hd.row).1
    have hle : d.pc.toNat + d.row.length ≤ image.size := by
      have hsize : image.toList.length = image.size := Array.length_toList
      have hroom := hb.length_le
      rw [List.length_drop] at hroom
      omega
    have hop : image[d.pc.toNat]? = some d.row.opcode := getElem?_of_begins hb (i := 0) (by omega)
    have h1 : fetch.operand image d.pc d.row 1 = d.first := by
      unfold fetch.operand
      split
      · rename_i hl
        rw [getElem?_of_begins hb (by omega), getElem?_bytes_one hl, Option.getD_some]
      · exact (hd.first (by omega)).symm
    have h2 : fetch.operand image d.pc d.row 2 = d.second := by
      unfold fetch.operand
      split
      · rename_i hl
        rw [getElem?_of_begins hb (by omega), getElem?_bytes_two hl, Option.getD_some]
      · exact (hd.second (by omega)).symm
    unfold fetch
    rw [hop]
    simp only [hd.row, if_pos hle, h1, h2]

/-- The bytes of an instruction are fetched as that instruction, wherever they are put. -/
theorem Decoded.Proper.fetch_between (h : d.Proper) {before : Image} (after : Image) (hsize : before.size ≤ 0xFFFF) :
    fetch (before ++ d.bytes.toArray ++ after) (UInt16.ofNat before.size)
      = .ok { d with pc := UInt16.ofNat before.size } := by
  have hpc : (UInt16.ofNat before.size).toNat = before.size := UInt16.toNat_ofNat_of_lt (Nat.lt_succ_of_le hsize)
  refine fetch_eq_ok_iff.2 ⟨rfl, h.withPc _, ?_⟩
  have hdrop : (before ++ d.bytes.toArray ++ after).toList.drop before.size = d.bytes ++ after.toList := by
    rw [Array.toList_append, Array.toList_append, List.append_assoc, ← Array.length_toList, List.drop_left]
  rw [hpc, hdrop]
  exact List.prefix_append ..

/-- If the bytes of an instruction begin with those of another, the two are the same but for their addresses. -/
theorem Decoded.Proper.eq_of_begins (h : d.Proper) (h' : d'.Proper) (hb : d.bytes <+: d'.bytes) :
    d' = { d with pc := d'.pc } := by
  have hfetch : fetch d'.bytes.toArray 0 = .ok { d with pc := 0 } := fetch_eq_ok_iff.2 ⟨rfl, h.withPc 0, hb⟩
  have hfetch' : fetch d'.bytes.toArray 0 = .ok { d' with pc := 0 } :=
    fetch_eq_ok_iff.2 ⟨rfl, h'.withPc 0, List.prefix_refl _⟩
  have heq : ({ d with pc := 0 } : Decoded) = { d' with pc := 0 } := Except.ok.inj (hfetch.symm.trans hfetch')
  exact (congrArg (fun e : Decoded => { e with pc := d'.pc }) heq).symm

/-! ## Fetching -/

theorem fetch_of_unimplemented (hop : image[pc.toNat]? = some opcode) (hr : Row.of? opcode = none) :
    fetch image pc = .error (.unimplemented opcode pc) := by
  unfold fetch
  simp only [hop, hr]

theorem fetch_of_row (hop : image[pc.toNat]? = some opcode) (hr : Row.of? opcode = some row) :
    fetch image pc =
      if pc.toNat + row.length ≤ image.size then
        .ok ⟨pc, row, fetch.operand image pc row 1, fetch.operand image pc row 2⟩
      else .error (.outOfBounds pc image.size) := by
  unfold fetch
  simp only [hop, hr]

/-- Fetching fails for one of three reasons, in this order, or finds an instruction with the bytes of the image.
The bytes of what it finds are fetched as the same instruction between any other bytes, and begin with the bytes of
no other instruction. -/
theorem fetch_inverts_bytes (image : Image) (pc : UInt16) :
    (image.size ≤ pc.toNat → fetch image pc = .error (.outOfBounds pc image.size)) ∧
    (∀ opcode, image[pc.toNat]? = some opcode →
      (Row.of? opcode = none → fetch image pc = .error (.unimplemented opcode pc)) ∧
      ∀ row, Row.of? opcode = some row →
        (image.size < pc.toNat + row.length → fetch image pc = .error (.outOfBounds pc image.size)) ∧
        (pc.toNat + row.length ≤ image.size →
          ∃ d, fetch image pc = .ok d ∧ d.pc = pc ∧ d.row = row ∧
            d.bytes = (image.toList.drop pc.toNat).take row.length ∧
            (row.length < 2 → d.first = 0) ∧ (row.length < 3 → d.second = 0))) ∧
    ∀ d, fetch image pc = .ok d →
      (∀ before after : Image, before.size ≤ 0xFFFF →
        fetch (before ++ d.bytes.toArray ++ after) (UInt16.ofNat before.size)
          = .ok { d with pc := UInt16.ofNat before.size }) ∧
      ∀ image' pc' d', fetch image' pc' = .ok d' → d'.bytes <+: d.bytes → d'.bytes = d.bytes := by
  refine ⟨fetch_of_size_le, fun opcode hop => ⟨fetch_of_unimplemented hop,
      fun row hr => ⟨fun hlt => ?_, fun hle => ?_⟩⟩,
    fun d hd => ⟨fun before after hsize => ?_, fun image' pc' d' hd' hb => ?_⟩⟩
  · rw [fetch_of_row hop hr, if_neg (by omega)]
  · have hfetch := fetch_of_row hop hr
    rw [if_pos hle] at hfetch
    have hproper := proper_of_fetch hfetch
    exact ⟨_, hfetch, rfl, rfl, bytes_of_fetch hfetch, hproper.first, hproper.second⟩
  · exact (proper_of_fetch hd).fetch_between after hsize
  · have heq := (proper_of_fetch hd').eq_of_begins (proper_of_fetch hd) hb
    rw [heq]
    rfl

/-- A jump at the last address, whose operand bytes are past it, and a byte that is no opcode at the end of an
image. -/
theorem fetch_inverts_bytes_at_brim :
    fetch (Array.replicate 0xFFFF 0 ++ #[0x02, 0x12, 0x34] ++ #[]) 0xFFFF
      = .ok ⟨0xFFFF, ⟨0x02, 3, "LJMP", .ljmp .first .second⟩, 0x12, 0x34⟩ ∧
    fetch #[0x02, 0x12, 0x34, 0xA5] 3 = .error (.unimplemented 0xA5 3) ∧
    fetch #[0x02, 0x12] 0 = .error (.outOfBounds 0 2) ∧ fetch #[0x02, 0x12] 2 = .error (.outOfBounds 2 2) := by
  have hjump : fetch #[0x02, 0x12, 0x34, 0xA5] 0 = .ok ⟨0, ⟨0x02, 3, "LJMP", .ljmp .first .second⟩, 0x12, 0x34⟩ := rfl
  refine ⟨?_, ?_, ?_, ?_⟩
  · have h := ((fetch_inverts_bytes #[0x02, 0x12, 0x34, 0xA5] 0).2.2 _ hjump).1 (Array.replicate 0xFFFF 0) #[]
    rw [Array.size_replicate] at h
    exact h (Nat.le_refl _)
  · exact ((fetch_inverts_bytes #[0x02, 0x12, 0x34, 0xA5] 3).2.1 0xA5 rfl).1 rfl
  · have hrow : Row.of? 0x02 = some ⟨0x02, 3, "LJMP", .ljmp .first .second⟩ := rfl
    exact (((fetch_inverts_bytes #[0x02, 0x12] 0).2.1 0x02 rfl).2 _ hrow).1 (by decide)
  · exact (fetch_inverts_bytes #[0x02, 0x12] 2).1 (by decide)

end Micro8051
