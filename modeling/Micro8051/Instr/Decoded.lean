/-
Decoded instructions: a row of the table with its operand bytes, at an address.
-/
import Micro8051.Instr.Table

namespace Micro8051

/-- An instruction as it stands at an address. -/
structure Decoded where
  pc : UInt16
  row : Row
  /-- The first operand byte; zero if the instruction has none. -/
  first : UInt8
  /-- The second operand byte; zero if the instruction has none. -/
  second : UInt8
  deriving DecidableEq

namespace Decoded

def operand (d : Decoded) : OperandByte → UInt8
  | .first => d.first
  | .second => d.second

/-- The instruction with its operand bytes. -/
def instr (d : Decoded) : Instr UInt8 := d.row.pattern.map d.operand

/-- The address after the instruction, modulo `2^16`. -/
def next (d : Decoded) : UInt16 := d.pc + UInt16.ofNat d.row.length

/-- The bytes of the instruction, opcode first. -/
def bytes (d : Decoded) : List UInt8 := d.row.opcode :: [d.first, d.second].take (d.row.length - 1)

end Decoded

end Micro8051
