/-
Assembly text read back: from its mnemonic and its operands an instruction is found again, wherever it
stands, as the offset of a relative jump is printed beside its target. So the text determines the bytes.
-/
import Micro8051.Proofs.Instr.Encoding
import Micro8051.Proofs.Text.Operands

namespace Micro8051

open Text (Atomic)

/-! ## Places and sources -/

/-- The register with the given digit. -/
def Reg.ofDigit (c : Char) : Reg := ofLowBits (c.toNat - 0x30)

/-- The place that an operand stands for. Only direct addresses have an `x` in them. -/
def Place.ofText? (s : String) : Option (Place UInt8) :=
  if 'x' ∈ s.toList then (Text.lastByte? s).map .direct
  else match s.toList with
    | ['A'] => some .acc
    | ['R', c] => some (.reg (.ofDigit c))
    | ['@', 'R', c] => some (.indirect (.ofDigit c))
    | _ => none

/-- The source that an operand stands for. Only immediate values have a number sign. -/
def Source.ofText? (s : String) : Option (Source UInt8) :=
  if '#' ∈ s.toList then (Text.lastByte? s).map .imm else (Place.ofText? s).map .place

theorem mem_directText (addr : UInt8) : 'x' ∈ (directText addr).toList := by
  unfold directText
  split <;> simp [String.toList_append]

instance {P : Reg → Prop} [DecidablePred P] : Decidable (∀ r, P r) :=
  decidable_of_iff (∀ n : Fin 8, P ⟨n⟩) ⟨fun h r => h r.no, fun h n => h ⟨n⟩⟩

theorem Place.ofText?_text (p : Place UInt8) : ofText? p.text = some p := by
  cases p with
  | acc => rfl
  | reg r => revert r; decide +kernel
  | direct addr => rw [text, ofText?, if_pos (mem_directText addr), Text.lastByte?_directText, Option.map_some]
  | indirect r => revert r; decide +kernel

theorem Place.not_mem_text {c : Char} (hc : c ∈ [',', ' ', '#']) (p : Place UInt8) : c ∉ p.text.toList := by
  have hcases : c = ',' ∨ c = ' ' ∨ c = '#' := by simpa using hc
  cases p with
  | acc => obtain rfl | rfl | rfl := hcases <;> decide
  | reg r => obtain rfl | rfl | rfl := hcases <;> (revert r; decide +kernel)
  | direct addr =>
    obtain rfl | rfl | rfl := hcases <;> exact Text.not_mem_directText (by decide) (by decide) (by decide) addr
  | indirect r => obtain rfl | rfl | rfl := hcases <;> (revert r; decide +kernel)

theorem Place.atomic_text (p : Place UInt8) : Atomic p.text :=
  ⟨p.not_mem_text (by decide), p.not_mem_text (by decide)⟩

theorem Source.ofText?_text (src : Source UInt8) : ofText? src.text = some src := by
  cases src with
  | place p => rw [text, ofText?, if_neg (p.not_mem_text (by decide)), p.ofText?_text, Option.map_some]
  | imm v =>
    have hsign : '#' ∈ (immediateText v).toList := by simp [immediateText, String.toList_append]
    rw [text, ofText?, if_pos hsign, Text.lastByte?_immediateText, Option.map_some]

theorem Source.atomic_text (src : Source UInt8) : Atomic src.text := by
  cases src with
  | place p => exact p.atomic_text
  | imm v => exact Text.atomic_immediateText v

/-! ## Operands -/

/-- The texts of the operands of an instruction that ends before `next`. -/
def Instr.operandTexts (next : UInt16) : Instr UInt8 → List String
  | .nop | .ret => []
  | .ljmp hi lo | .lcall hi lo => ["C:" ++ Text.hexWord (word hi lo)]
  | .sjmp rel | .jz rel | .jnz rel => [relativeText next rel]
  | .djnz p rel => [p.text, relativeText next rel]
  | .inc p | .dec p => [p.text]
  | .incDptr => ["DPTR"]
  | .clr => ["A"]
  | .mov dst src => [dst.text, src.text]
  | .movDptr hi lo => ["DPTR", "#0x" ++ Text.hexWord (word hi lo)]
  | .movxLoad => ["A", "@DPTR"]
  | .movxStore => ["@DPTR", "A"]
  | .push a | .pop a => [directText a]

/-- The operands of a text, none if there is no text. -/
def Text.operandsOf (s : Option String) : List String := (s.map operands).getD []

theorem Text.operandsOf_atomic {s : String} (h : Atomic s) : operandsOf (some s) = [s] := operands_of_atomic h

theorem Text.operandsOf_append {s t : String} (hs : Atomic s) (ht : Atomic t) :
    operandsOf (some (s ++ ", " ++ t)) = [s, t] :=
  operands_append hs ht

theorem operandsOf_operandText (i : Instr UInt8) (next : UInt16) :
    Text.operandsOf (i.operandText next) = i.operandTexts next := by
  have htarget (hi lo : UInt8) : Atomic ("C:" ++ Text.hexWord (word hi lo)) :=
    .append (by decide) (Text.atomic_hexWord _)
  have hrelative := Text.atomic_relativeText next
  cases i with
  | nop => rfl
  | ret => rfl
  | ljmp hi lo => exact Text.operandsOf_atomic (htarget hi lo)
  | lcall hi lo => exact Text.operandsOf_atomic (htarget hi lo)
  | sjmp rel => exact Text.operandsOf_atomic (hrelative rel)
  | jz rel => exact Text.operandsOf_atomic (hrelative rel)
  | jnz rel => exact Text.operandsOf_atomic (hrelative rel)
  | djnz p rel => exact Text.operandsOf_append p.atomic_text (hrelative rel)
  | inc p => exact Text.operandsOf_atomic p.atomic_text
  | dec p => exact Text.operandsOf_atomic p.atomic_text
  | incDptr => exact Text.operandsOf_atomic (by decide)
  | clr => exact Text.operandsOf_atomic (by decide)
  | mov dst src => exact Text.operandsOf_append dst.atomic_text src.atomic_text
  | movDptr hi lo =>
    have hword : Atomic ("#0x" ++ Text.hexWord (word hi lo)) := .append (by decide) (Text.atomic_hexWord _)
    rw [Instr.operandTexts, ← Text.operandsOf_append (by decide) hword, ← String.append_assoc]
    rfl
  | movxLoad => exact Text.operandsOf_append (s := "A") (t := "@DPTR") (by decide) (by decide)
  | movxStore => exact Text.operandsOf_append (s := "@DPTR") (t := "A") (by decide) (by decide)
  | push a => exact Text.operandsOf_atomic (Text.atomic_directText a)
  | pop a => exact Text.operandsOf_atomic (Text.atomic_directText a)

/-! ## Instructions -/

/-- The instruction with the given mnemonic and the given texts of its operands. -/
def Instr.ofTexts? : (mnemonic : String) → (operands : List String) → Option (Instr UInt8)
  | "NOP", [] => some .nop
  | "RET", [] => some .ret
  | "LJMP", [t] => (Text.lastWord? t).map fun w => .ljmp (highByte w) (lowByte w)
  | "LCALL", [t] => (Text.lastWord? t).map fun w => .lcall (highByte w) (lowByte w)
  | "SJMP", [t] => (Text.offset? t).map .sjmp
  | "JZ", [t] => (Text.offset? t).map .jz
  | "JNZ", [t] => (Text.offset? t).map .jnz
  | "DJNZ", [p, t] => (Place.ofText? p).bind fun p => (Text.offset? t).map (.djnz p)
  | "INC", [p] => if p = "DPTR" then some .incDptr else (Place.ofText? p).map .inc
  | "DEC", [p] => (Place.ofText? p).map .dec
  | "CLR", [_] => some .clr
  | "MOV", [dst, src] =>
    if dst = "DPTR" then (Text.lastWord? src).map fun w => .movDptr (highByte w) (lowByte w)
    else (Place.ofText? dst).bind fun dst => (Source.ofText? src).map (.mov dst)
  | "MOVX", [dst, _] => some (if dst = "A" then .movxLoad else .movxStore)
  | "PUSH", [a] => (Text.lastByte? a).map .push
  | "POP", [a] => (Text.lastByte? a).map .pop
  | _, _ => none

theorem Place.text_ne_dptr (p : Place UInt8) : p.text ≠ "DPTR" := by
  intro h
  have hp := p.ofText?_text
  rw [h] at hp
  cases hp

theorem Instr.ofTexts?_operandTexts (i : Instr UInt8) (next : UInt16) :
    ofTexts? i.mnemonic (i.operandTexts next) = some i := by
  have hword (s : String) (hi lo : UInt8) (f : UInt8 → UInt8 → Instr UInt8) :
      (Text.lastWord? (s ++ Text.hexWord (word hi lo))).map (fun w => f (highByte w) (lowByte w)) = some (f hi lo) := by
    rw [Text.lastWord?_append, Option.map_some, highByte_word, lowByte_word]
  have hrelative (rel : UInt8) (f : UInt8 → Instr UInt8) :
      (Text.offset? (relativeText next rel)).map f = some (f rel) := by
    rw [Text.offset?_relativeText, Option.map_some]
  have hplace (p : Place UInt8) (f : Place UInt8 → Instr UInt8) : (Place.ofText? p.text).map f = some (f p) := by
    rw [p.ofText?_text, Option.map_some]
  have hdirect (a : UInt8) (f : UInt8 → Instr UInt8) : (Text.lastByte? (directText a)).map f = some (f a) := by
    rw [Text.lastByte?_directText, Option.map_some]
  cases i with
  | nop => rfl
  | ret => rfl
  | ljmp hi lo => exact hword "C:" hi lo .ljmp
  | lcall hi lo => exact hword "C:" hi lo .lcall
  | sjmp rel => exact hrelative rel .sjmp
  | jz rel => exact hrelative rel .jz
  | jnz rel => exact hrelative rel .jnz
  | djnz p rel =>
    simp only [mnemonic, operandTexts, ofTexts?]
    rw [p.ofText?_text, Option.bind_some, hrelative]
  | inc p => exact (if_neg p.text_ne_dptr).trans (hplace p .inc)
  | dec p => exact hplace p .dec
  | incDptr => rfl
  | clr => rfl
  | mov dst src =>
    simp only [mnemonic, operandTexts, ofTexts?]
    rw [if_neg dst.text_ne_dptr, dst.ofText?_text, Option.bind_some, src.ofText?_text, Option.map_some]
  | movDptr hi lo => exact hword "#0x" hi lo .movDptr
  | movxLoad => rfl
  | movxStore => rfl
  | push a => exact hdirect a .push
  | pop a => exact hdirect a .pop

/-- An instruction is found again in its text, wherever it stands. -/
theorem Instr.ofTexts?_operandText (i : Instr UInt8) (next : UInt16) :
    ofTexts? i.mnemonic (Text.operandsOf (i.operandText next)) = some i := by
  rw [operandsOf_operandText, ofTexts?_operandTexts]

/-! ## Encodings -/

section Fetch

variable {image image' : Image} {pc pc' : UInt16} {d d' : Decoded}

/-- The text of an instruction determines its encoding: two instructions with the same mnemonic and the same
operands have the same opcode, the same length and the same operand bytes, wherever they were fetched from. -/
theorem encoding_of_text (h : fetch image pc = .ok d) (h' : fetch image' pc' = .ok d')
    (hm : d.row.mnemonic = d'.row.mnemonic) (ho : d.operandText = d'.operandText) :
    d.row = d'.row ∧ d.bytes = d'.bytes := by
  have hi : d.instr = d'.instr := by
    apply Option.some.inj
    rw [← d.instr.ofTexts?_operandText d.next, ← d'.instr.ofTexts?_operandText d'.next, ← mnemonic_of_fetch h,
      ← mnemonic_of_fetch h', hm]
    exact congrArg (fun s => Instr.ofTexts? _ (Text.operandsOf s)) ho
  have hb : d.bytes = d'.bytes := by
    apply Option.some.inj
    rw [← encode?_of_fetch h, ← encode?_of_fetch h', hi]
  exact ⟨row_eq_of_bytes h h' hb, hb⟩

end Fetch

/-- A copy from one direct address to another, whose operand bytes stand in the other order in the text. -/
def copyAt (pc : UInt16) : Decoded where
  pc := pc
  row := ⟨0x85, 3, "MOV", .mov (.direct .second) (.place (.direct .first))⟩
  first := 0x80
  second := 0x90

theorem encoding_of_text_copy :
    fetch #[0x85, 0x80, 0x90] 0 = .ok (copyAt 0) ∧ fetch #[0x00, 0x85, 0x80, 0x90] 1 = .ok (copyAt 1) ∧
    (copyAt 0).operandText = some "P1(0x90), P0(0x80)" ∧ (copyAt 1).operandText = some "P1(0x90), P0(0x80)" ∧
    (copyAt 0).row = (copyAt 1).row ∧ (copyAt 0).bytes = (copyAt 1).bytes := by
  have h : fetch #[0x85, 0x80, 0x90] 0 = .ok (copyAt 0) := by decide +kernel
  have h' : fetch #[0x00, 0x85, 0x80, 0x90] 1 = .ok (copyAt 1) := by decide +kernel
  have ht : (copyAt 0).operandText = some "P1(0x90), P0(0x80)" := by decide +kernel
  have ht' : (copyAt 1).operandText = some "P1(0x90), P0(0x80)" := by decide +kernel
  exact ⟨h, h', ht, ht', encoding_of_text h h' rfl (ht.trans ht'.symm)⟩

end Micro8051
