/-
A listing is a partition of the image into instructions, without gaps and without overlaps, or the
first fault of the image. An image beyond the end of the address space is listed up to the
instruction that reaches that end.
-/
import Micro8051.Proofs.Listing.Walk

namespace Micro8051

/-- `ls` is a partition of an image: it starts at address 0, each line is the instruction at its
address, each line begins where the one before it ends, and the bytes of the lines together are the
image. An image of more than `2^16` bytes is cut off after the last instruction that begins in the
address space. -/
structure Partitions (image : Image) (ls : List Line) : Prop where
  first : ∀ l ∈ ls.head?, l.addr = 0
  decoded : ∀ l ∈ ls, ∃ d, fetch image l.addr = .ok d ∧ l = d.line
  adjacent : ls.IsChain fun l l' => l'.addr.toNat = l.addr.toNat + l.bytes.length
  whole : image.size ≤ UInt16.size → ls.flatMap Line.bytes = image.toList
  cut : UInt16.size < image.size → ∃ n, UInt16.size ≤ n ∧ n ≤ UInt16.size + 2 ∧ n ≤ image.size ∧
    ls.flatMap Line.bytes = image.toList.take n
  bounded : ls.length ≤ image.size ∧ ls.length ≤ UInt16.size

/-- The bytes of an image before an address. -/
def Image.before (image : Image) (pc : UInt16) : Image := image.extract 0 pc.toNat

/-- `fault` is the first fault of an image: nothing can be fetched at its address, and all that is
before its address is partitioned into instructions. -/
structure FirstFault (image : Image) (fault : Fault) : Prop where
  inside : fault.address.toNat < image.size
  fetched : fetch image fault.address = .error fault
  before : ∃ ls, Image.lines (image.before fault.address) = .ok ls ∧
    Partitions (image.before fault.address) ls.toList ∧
    ls.toList.flatMap Line.bytes = image.toList.take fault.address.toNat
  short : ∀ addr size, fault = .outOfBounds addr size → size = image.size ∧ size < addr.toNat + 3

variable {image : Image}

/-- A chain from the first address to the end of the image or of the address space is a partition. -/
theorem Listed.partitions {ls : List Line} {e : Nat} (h : Listed image 0 ls e)
    (he : image.size ≤ e ∨ UInt16.size ≤ e) : Partitions image ls where
  first l hl := by
    cases h with
    | nil _ => cases hl
    | cons hlt hf rest =>
      cases hl
      rw [Decoded.line, pc_of_fetch hf]
      rfl
  decoded _ := h.fetch_of_mem
  adjacent := h.adjacent
  whole hs := by
    have := h.le_size (Nat.zero_le _)
    rw [h.bytes, List.drop_zero, Nat.sub_zero, List.take_of_length_le (by rw [Array.length_toList]; omega)]
  cut hs := by
    have := h.le_size (Nat.zero_le _)
    have := h.le_add_two (Nat.zero_le _)
    refine ⟨e, by omega, by omega, by omega, ?_⟩
    rw [h.bytes, List.drop_zero, Nat.sub_zero]
  bounded := by
    have h1 := h.length_le
    have h2 := h.le_size (Nat.zero_le _)
    have h3 := h.length_le_sub
    exact ⟨by omega, by omega⟩

theorem partitions_of_lines {image : Image} {ls : Array Line} (h : Image.lines image = .ok ls) :
    Partitions image ls.toList := by
  obtain ⟨ls, e, rfl, hl, he⟩ := Image.linesFrom_eq_ok h
  simpa using hl.partitions he

/-- What comes before the end of a chain is listed as the chain. -/
theorem Listed.lines_before {ls : List Line} {pc : UInt16} (h : Listed image 0 ls pc.toNat)
    (hpc : pc.toNat ≤ image.size) : Image.lines (image.before pc) = .ok ls.toArray := by
  have hs : (image.before pc).size = pc.toNat := by
    rw [Image.before, Array.size_extract]
    omega
  have hl : Listed (image.before pc) 0 ls pc.toNat := by
    refine h.congr hs.ge fun i hi => ?_
    rw [Image.before, Array.getElem?_extract, if_pos (by omega), Nat.zero_add]
  have hr : Image.linesFrom (image.before pc) 0 #[] = .ok (#[] ++ ls.toArray) :=
    hl.linesFrom_eq (.inl hs.le) rfl
  simpa [Image.lines] using hr

theorem firstFault_of_lines {fault : Fault} (h : Image.lines image = .error fault) :
    FirstFault image fault := by
  obtain ⟨ls, pc, hl, hlt, hf⟩ := Image.linesFrom_eq_error h
  obtain rfl := address_of_fetch hf
  have hx := hl.lines_before hlt.le
  refine ⟨hlt, hf, ⟨_, hx, partitions_of_lines hx, ?_⟩, ?_⟩
  · simpa using hl.bytes
  · rintro addr size rfl
    exact outOfBounds_of_fetch hlt hf

/-- A listing is a partition of the image into instructions, or fails with the first fault. -/
theorem lines_partition_or_fail (image : Image) :
    match Image.lines image with
    | .ok ls => Partitions image ls.toList
    | .error fault => FirstFault image fault := by
  cases h : Image.lines image with
  | ok ls => exact partitions_of_lines h
  | error fault => exact firstFault_of_lines h

end Micro8051
