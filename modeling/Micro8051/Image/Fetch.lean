/-
Fetching: the instruction at an address of a program image, or the fault that stands in its way.
-/
import Micro8051.Instr.Decoded
import Micro8051.Text.Fields
import Micro8051.Text.Hex

namespace Micro8051

/-- The contents of program memory, from address 0. -/
abbrev Image := Array UInt8

/-! ## Faults -/

/-- Why no instruction can be fetched. -/
inductive Fault where
  /-- The opcode at `pc` is not implemented. -/
  | unimplemented (opcode : UInt8) (pc : UInt16)
  /-- The instruction at `addr` is not inside a program memory of `size` bytes. -/
  | outOfBounds (addr : UInt16) (size : Nat)
  deriving DecidableEq

/-- The fault in words. -/
def Fault.message : Fault → String
  | .unimplemented opcode pc =>
    "unsupported opcode 0x" ++ Text.hexByte opcode ++ " at C:" ++ Text.hexWord pc
  | .outOfBounds addr size =>
    "instruction at C:" ++ Text.hexWord addr ++ " is outside program memory (" ++ toString size ++
      " bytes)"

/-- The fault with its parts by name. -/
def Fault.summary : Fault → String
  | .unimplemented opcode pc =>
    Text.fields "UnsupportedOpcode" [("opcode", toString opcode.toNat), ("pc", toString pc.toNat)]
  | .outOfBounds addr size =>
    Text.fields "OutOfBounds" [("addr", toString addr.toNat), ("len", toString size)]

/-! ## Fetching -/

/-- The instruction at `pc`. An address at or past the end of the image comes first among the
faults, then an opcode that is not implemented, then operand bytes past the end. -/
def fetch (image : Image) (pc : UInt16) : Except Fault Decoded :=
  match image[pc.toNat]? with
  | none => .error (.outOfBounds pc image.size)
  | some opcode =>
    match Row.of? opcode with
    | none => .error (.unimplemented opcode pc)
    | some row =>
      if pc.toNat + row.length ≤ image.size then
        .ok ⟨pc, row, operand row 1, operand row 2⟩
      else
        .error (.outOfBounds pc image.size)
where
  /-- The byte `i` places after the opcode, or zero where the instruction has ended. -/
  operand (row : Row) (i : Nat) : UInt8 :=
    if i < row.length then image[pc.toNat + i]?.getD 0 else 0

end Micro8051
