/-
Listings: a program image as lines of text, one instruction a line, from address 0 on.
-/
import Micro8051.Instr.Text
import Micro8051.Image.Fetch

namespace Micro8051

/-- One line of a listing. -/
structure Line where
  addr : UInt16
  bytes : List UInt8
  mnemonic : String
  /-- The text of the operands, if the instruction has any. -/
  operands : Option String
  deriving DecidableEq

/-- The line of a decoded instruction. -/
def Decoded.line (d : Decoded) : Line := ⟨d.pc, d.bytes, d.row.mnemonic, d.operandText⟩

/-- The columns of a line with tabs between them: address, bytes, mnemonic, operands. -/
def Line.text (l : Line) : String :=
  Text.hexWord l.addr ++ "\t" ++ " ".intercalate (l.bytes.map Text.hexByte) ++ "\t" ++ l.mnemonic ++
    match l.operands with
    | none => ""
    | some operands => "\t" ++ operands

namespace Image

/-- The lines from `addr` on, after the lines in `done`. The walk ends where the image ends, or
with the instruction that ends at or beyond the end of the address space. -/
def linesFrom (image : Image) (addr : UInt16) (done : Array Line) : Except Fault (Array Line) :=
  if addr.toNat < image.size then
    match fetch image addr with
    | .error fault => .error fault
    | .ok d =>
      if _h : addr < d.next then linesFrom image d.next (done.push d.line)
      else .ok (done.push d.line)
  else
    .ok done
termination_by UInt16.size - addr.toNat
decreasing_by
  have := UInt16.lt_iff_toNat_lt.1 _h
  have := d.next.toNat_lt
  simp only [UInt16.size]
  omega

/-- The lines of an image, or the first fault. -/
def lines (image : Image) : Except Fault (Array Line) := linesFrom image 0 #[]

/-- The listing of an image, with a line break between lines, or the first fault. -/
def listing (image : Image) : Except Fault String :=
  match lines image with
  | .error fault => .error fault
  | .ok ls => .ok ("\n".intercalate (ls.toList.map Line.text))

end Image

end Micro8051
