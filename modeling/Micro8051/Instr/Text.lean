/-
Instructions as assembly text. The text of the operands depends on the address of the instruction
only through the targets of relative jumps.
-/
import Micro8051.Register.Special
import Micro8051.Instr.Decoded
import Micro8051.Text.Hex
import Micro8051.Word

namespace Micro8051

/-! ## Operands -/

/-- A direct address, with the name of the special function register there, if it has one. -/
def directText (addr : UInt8) : String :=
  match Sfr.byAddress? addr with
  | some r => r.name ++ "(0x" ++ Text.hexByte addr ++ ")"
  | none => "0x" ++ Text.hexByte addr

/-- A byte read as a signed number, in decimal. -/
def signedText (b : UInt8) : String :=
  if b < 0x80 then toString b.toNat else "-" ++ toString (256 - b.toNat)

/-- A relative jump: its signed offset and its target. -/
def relativeText (next : UInt16) (rel : UInt8) : String :=
  "C:" ++ signedText rel ++ "(" ++ Text.hexWord (displace next rel) ++ ")"

def immediateText (v : UInt8) : String := "#0x" ++ Text.hexByte v

def Place.text : Place UInt8 → String
  | .acc => "A"
  | .reg r => r.text
  | .direct a => directText a
  | .indirect r => "@" ++ r.text

def Source.text : Source UInt8 → String
  | .place p => p.text
  | .imm v => immediateText v

/-- The operands of an instruction that ends before `next`, if it has any. -/
def Instr.operandText (next : UInt16) : Instr UInt8 → Option String
  | .nop | .ret => none
  | .ljmp hi lo | .lcall hi lo => some ("C:" ++ Text.hexWord (word hi lo))
  | .sjmp rel | .jz rel | .jnz rel => some (relativeText next rel)
  | .djnz p rel => some (p.text ++ ", " ++ relativeText next rel)
  | .inc p | .dec p => some p.text
  | .incDptr => some "DPTR"
  | .clr => some "A"
  | .mov dst src => some (dst.text ++ ", " ++ src.text)
  | .movDptr hi lo => some ("DPTR, #0x" ++ Text.hexWord (word hi lo))
  | .movxLoad => some "A, @DPTR"
  | .movxStore => some "@DPTR, A"
  | .push a | .pop a => some (directText a)

/-- The operands of a decoded instruction, if it has any. -/
def Decoded.operandText (d : Decoded) : Option String := d.instr.operandText d.next

/-! ## Forms -/

/-- The word for the kind of a place in the name of a form, and the register in it. -/
def Place.form {β : Type} : Place β → String × String
  | .acc => ("A", "")
  | .reg r => ("Reg", "(" ++ r.summary ++ ")")
  | .direct _ => ("Direct", "")
  | .indirect r => ("Ind", "(" ++ r.summary ++ ")")

/-- The word for the kind of a source in the name of a form, and the register in it. -/
def Source.form {β : Type} : Source β → String × String
  | .place p => p.form
  | .imm _ => ("Imm", "")

/-- The name of the form of an instruction: what it does, the kinds of its operands, and the
register that its opcode selects, such as `MovDirectReg(Reg(3))`. -/
def Instr.form {β : Type} : Instr β → String
  | .nop => "Nop"
  | .ljmp .. => "Ljmp"
  | .lcall .. => "Lcall"
  | .ret => "Ret"
  | .sjmp _ => "Sjmp"
  | .jz _ => "Jz"
  | .jnz _ => "Jnz"
  | .djnz p _ => "Djnz" ++ p.form.1 ++ p.form.2
  | .inc p => "Inc" ++ p.form.1 ++ p.form.2
  | .dec p => "Dec" ++ p.form.1 ++ p.form.2
  | .incDptr => "IncDptr"
  | .clr => "ClrA"
  | .mov dst src => "Mov" ++ dst.form.1 ++ src.form.1 ++ dst.form.2 ++ src.form.2
  | .movDptr .. => "MovDptrImm"
  | .movxLoad => "MovxADptr"
  | .movxStore => "MovxDptrA"
  | .push _ => "Push"
  | .pop _ => "Pop"

end Micro8051
