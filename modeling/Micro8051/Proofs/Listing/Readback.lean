/-
Listings read back. The columns of a line are found again in its text, as no mnemonic and no operand has a
tab or a line break in it, and so are the lines of a listing. With them the image is found again: a listing
loses nothing.
-/
import Micro8051.Proofs.Listing.Partition
import Micro8051.Proofs.Text.Columns

namespace Micro8051

open Text (Plain)

/-! ## Mnemonics and operands -/

theorem Sfr.plain_name {r : Sfr} {addr : UInt8} (h : Sfr.byAddress? addr = some r) : Plain r.name := by
  have hall : ∀ r ∈ Sfr.table, Plain r.name := by decide +kernel
  exact hall r (List.mem_of_find?_eq_some h)

theorem plain_directText (addr : UInt8) : Plain (directText addr) := by
  unfold directText
  split
  · rename_i r hr
    exact (((Sfr.plain_name hr).append (by decide)).append (Text.plain_hexByte addr)).append (by decide)
  · exact .append (by decide) (Text.plain_hexByte addr)

theorem plain_signedText (b : UInt8) : Plain (signedText b) := by
  unfold signedText
  split
  · exact Text.plain_toString _
  · exact .append (by decide) (Text.plain_toString _)

theorem plain_relativeText (next : UInt16) (rel : UInt8) : Plain (relativeText next rel) :=
  ((((show Plain "C:" by decide).append (plain_signedText rel)).append (by decide)).append
    (Text.plain_hexWord _)).append (by decide)

theorem Reg.plain_text (r : Reg) : Plain r.text := .append (by decide) (Text.plain_toString _)

theorem Place.plain_text (p : Place UInt8) : Plain p.text := by
  cases p with
  | acc => decide
  | reg r => exact r.plain_text
  | direct addr => exact plain_directText addr
  | indirect r => exact .append (by decide) r.plain_text

theorem Source.plain_text (s : Source UInt8) : Plain s.text := by
  cases s with
  | place p => exact p.plain_text
  | imm v => exact .append (by decide) (Text.plain_hexByte v)

theorem Instr.plain_operandText {next : UInt16} {i : Instr UInt8} {s : String} (h : i.operandText next = some s) :
    Plain s := by
  have hcomma : Plain ", " := by decide
  cases i with
  | nop => cases h
  | ret => cases h
  | ljmp hi lo => cases h; exact .append (by decide) (Text.plain_hexWord _)
  | lcall hi lo => cases h; exact .append (by decide) (Text.plain_hexWord _)
  | sjmp rel => cases h; exact plain_relativeText next rel
  | jz rel => cases h; exact plain_relativeText next rel
  | jnz rel => cases h; exact plain_relativeText next rel
  | djnz p rel => cases h; exact (p.plain_text.append hcomma).append (plain_relativeText next rel)
  | inc p => cases h; exact p.plain_text
  | dec p => cases h; exact p.plain_text
  | incDptr => cases h; decide
  | clr => cases h; decide
  | mov dst src => cases h; exact (dst.plain_text.append hcomma).append src.plain_text
  | movDptr hi lo => cases h; exact .append (by decide) (Text.plain_hexWord _)
  | movxLoad => cases h; decide
  | movxStore => cases h; decide
  | push addr => cases h; exact plain_directText addr
  | pop addr => cases h; exact plain_directText addr

theorem Instr.plain_mnemonic (i : Instr UInt8) : Plain i.mnemonic := by
  cases i <;> · simp only [mnemonic]; decide

/-! ## Lines -/

/-- The columns of a line. -/
def Line.columns (l : Line) : List String :=
  [Text.hexWord l.addr, " ".intercalate (l.bytes.map Text.hexByte), l.mnemonic] ++ l.operands.toList

/-- The line has bytes, and its mnemonic and its operands are plain. -/
structure Line.Readable (l : Line) : Prop where
  bytes : l.bytes ≠ []
  mnemonic : Plain l.mnemonic
  operands : ∀ s ∈ l.operands, Plain s

theorem Line.text_eq_intercalate (l : Line) : l.text = "\t".intercalate l.columns := by
  unfold text columns
  cases l.operands with
  | none => simp [String.intercalate_cons_cons, String.append_assoc]
  | some s => simp [String.intercalate_cons_cons, String.append_assoc]

namespace Line.Readable

variable {l : Line}

theorem plain_columns (h : l.Readable) : ∀ s ∈ l.columns, Plain s := by
  intro s hs
  simp only [columns, List.mem_append, List.mem_cons, List.not_mem_nil, or_false, Option.mem_toList] at hs
  rcases hs with (rfl | rfl | rfl) | hs
  · exact Text.plain_hexWord _
  · refine .intercalate (by decide) fun s hs => ?_
    obtain ⟨b, -, rfl⟩ := List.mem_map.1 hs
    exact Text.plain_hexByte b
  · exact h.mnemonic
  · exact h.operands s hs

theorem split_text (h : l.Readable) : Text.split '\t' l.text = l.columns := by
  rw [text_eq_intercalate]
  exact Text.split_intercalate rfl (by simp [columns]) fun s hs => (h.plain_columns s hs).1

theorem not_mem_text (h : l.Readable) : '\n' ∉ l.text.toList := by
  rw [text_eq_intercalate]
  exact Text.not_mem_intercalate (by decide) fun s hs => (h.plain_columns s hs).2

end Line.Readable

theorem Line.text_ne_empty (l : Line) : l.text ≠ "" := by
  simp [text, String.append_eq_empty_iff]

theorem readable_of_fetch {image : Image} {pc : UInt16} {d : Decoded} (h : fetch image pc = .ok d) :
    d.line.Readable where
  bytes := List.cons_ne_nil _ _
  mnemonic := by
    rw [Decoded.line, mnemonic_of_fetch h]
    exact d.instr.plain_mnemonic
  operands _ hs := Instr.plain_operandText hs

/-! ## Listings -/

namespace Text

/-- What can be read off a line of a listing: the first column, and the bytes in the second one. -/
def row? (s : String) : Option (String × List UInt8) :=
  match split '\t' s with
  | first :: second :: _ => (bytes? second).map fun bs => (first, bs)
  | _ => none

/-- What can be read off the lines of a listing. -/
def rows? (text : String) : Option (List (String × List UInt8)) := (lines text).mapM row?

end Text

theorem Line.Readable.row?_text {l : Line} (h : l.Readable) :
    Text.row? l.text = some (Text.hexWord l.addr, l.bytes) := by
  rw [Text.row?, h.split_text]
  simp only [columns, List.cons_append, Text.bytes?_intercalate h.bytes, Option.map_some]

theorem mapM_row?_text {ls : List Line} (h : ∀ l ∈ ls, l.Readable) :
    (ls.map Line.text).mapM Text.row? = some (ls.map fun l => (Text.hexWord l.addr, l.bytes)) := by
  induction ls with
  | nil => rfl
  | cons l ls ih =>
    rw [List.map_cons, List.mapM_cons, (h l (List.mem_cons_self ..)).row?_text,
      ih fun l hl => h l (List.mem_cons_of_mem _ hl)]
    rfl

/-- The lines of a listing are found again in its text. -/
theorem rows?_intercalate {ls : List Line} (h : ∀ l ∈ ls, l.Readable) :
    Text.rows? ("\n".intercalate (ls.map Line.text)) = some (ls.map fun l => (Text.hexWord l.addr, l.bytes)) := by
  have hlines : Text.lines ("\n".intercalate (ls.map Line.text)) = ls.map Line.text := by
    refine Text.lines_intercalate (fun s hs => ?_) fun s hs => ?_
    · obtain ⟨l, -, rfl⟩ := List.mem_map.1 hs
      exact l.text_ne_empty
    · obtain ⟨l, hl, rfl⟩ := List.mem_map.1 hs
      exact (h l hl).not_mem_text
  rw [Text.rows?, hlines, mapM_row?_text h]

/-- A line begins where the bytes of the lines before it end. -/
theorem Listed.addr_of_getElem? {image : Image} {a e : Nat} {ls : List Line} (h : Listed image a ls e) {i : Nat}
    {l : Line} (hl : ls[i]? = some l) : l.addr.toNat = a + ((ls.take i).flatMap Line.bytes).length := by
  induction h generalizing i with
  | nil a => cases hl
  | @cons a e d ls hlt hf rest ih =>
    cases i with
    | zero =>
      obtain rfl : d.line = l := by simpa using hl
      exact (Listed.cons hlt hf rest).addr_of_cons
    | succ i =>
      have hbytes : d.line.bytes.length = d.row.length := length_bytes_of_fetch hf
      rw [ih (by simpa using hl), List.take_succ_cons, List.flatMap_cons, List.length_append, hbytes]
      omega

section Listing

variable {image : Image} {text : String}

/-- What is read off a listing: each row begins at the offset that its first column shows, and the bytes of
the rows together are the image. -/
structure ReadsAs (image : Image) (rows : List (String × List UInt8)) : Prop where
  offsets : ∀ i row, rows[i]? = some row → ∃ addr : UInt16, row.1 = Text.hexWord addr ∧
    addr.toNat = ((rows.take i).flatMap Prod.snd).length
  bytes : rows.flatMap Prod.snd = image.toList

theorem exists_rows_of_listing (hsize : image.size ≤ UInt16.size) (h : image.listing = .ok text) :
    ∃ rows, Text.rows? text = some rows ∧ ReadsAs image rows := by
  unfold Image.listing at h
  cases hlines : image.lines with
  | error fault => rw [hlines] at h; cases h
  | ok lines =>
    rw [hlines] at h
    cases h
    have hwhole := (partitions_of_lines hlines).whole hsize
    obtain ⟨ls, e, rfl, hl, -⟩ := Image.linesFrom_eq_ok hlines
    rw [show (#[] ++ ls.toArray : Array Line).toList = ls by simp] at hwhole ⊢
    have hreadable : ∀ l ∈ ls, l.Readable := by
      intro l hm
      obtain ⟨d, hf, rfl⟩ := hl.fetch_of_mem hm
      exact readable_of_fetch hf
    have hbytes (ls : List Line) :
        (ls.map fun l => (Text.hexWord l.addr, l.bytes)).flatMap Prod.snd = ls.flatMap Line.bytes := by
      rw [List.flatMap_map]
    refine ⟨_, rows?_intercalate hreadable, fun i row hrow => ?_, (hbytes ls).trans hwhole⟩
    rw [List.getElem?_map] at hrow
    obtain ⟨l, hm, rfl⟩ := Option.map_eq_some_iff.1 hrow
    refine ⟨l.addr, rfl, ?_⟩
    rw [← List.map_take, hbytes]
    simpa using hl.addr_of_getElem? hm

/-- A listing loses nothing. Read back, its rows show at which offset each of them begins, and their bytes
together are the image. So two images with the same listing are equal, and only the empty image has an empty
listing. -/
theorem listing_loses_nothing (hsize : image.size ≤ UInt16.size) (h : image.listing = .ok text) :
    (∃ rows, Text.rows? text = some rows ∧ ReadsAs image rows) ∧
    (∀ image' : Image, image'.size ≤ UInt16.size → image'.listing = .ok text → image' = image) ∧
    (text = "" ↔ image = #[]) := by
  obtain ⟨rows, hrows, hreads⟩ := exists_rows_of_listing hsize h
  have hunique : ∀ image' : Image, image'.size ≤ UInt16.size → image'.listing = .ok text → image' = image := by
    intro image' hsize' h'
    obtain ⟨rows', hrows', hreads'⟩ := exists_rows_of_listing hsize' h'
    obtain rfl : rows' = rows := Option.some.inj (hrows'.symm.trans hrows)
    exact Array.toList_inj.1 (hreads'.bytes.symm.trans hreads.bytes)
  have hempty : Image.listing #[] = .ok "" := by decide +kernel
  refine ⟨⟨rows, hrows, hreads⟩, hunique, ?_, ?_⟩
  · rintro rfl
    exact (hunique #[] (by decide) hempty).symm
  · rintro rfl
    exact Except.ok.inj (h.symm.trans hempty)

end Listing

/-- A program with an instruction of each length. -/
def blinking : Image := #[0x75, 0x80, 0x55, 0xE4, 0x80, 0xFA]

def blinkingText : String :=
  "0000\t75 80 55\tMOV\tP0(0x80), #0x55\n0003\tE4\tCLR\tA\n0004\t80 FA\tSJMP\tC:-6(0000)"

theorem blinking_read_back :
    blinking.listing = .ok blinkingText ∧
    ReadsAs blinking [("0000", [0x75, 0x80, 0x55]), ("0003", [0xE4]), ("0004", [0x80, 0xFA])] ∧
    ∀ image' : Image, image'.size ≤ UInt16.size → image'.listing = .ok blinkingText → image' = blinking := by
  have hlisting : blinking.listing = .ok blinkingText := by decide +kernel
  have hread : Text.rows? blinkingText =
      some [("0000", [0x75, 0x80, 0x55]), ("0003", [0xE4]), ("0004", [0x80, 0xFA])] := by decide +kernel
  obtain ⟨⟨rows, hrows, hreads⟩, hunique, -⟩ := listing_loses_nothing (by decide) hlisting
  obtain rfl := Option.some.inj (hread.symm.trans hrows)
  exact ⟨hlisting, hreads, hunique⟩

end Micro8051
