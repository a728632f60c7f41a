/-
Working registers `R0` to `R7` and their four banks, which are aliases of the lowest 32 cells of
internal memory.
-/
namespace Micro8051

/-- A working register of the active bank. -/
structure Reg where
  no : Fin 8
  deriving DecidableEq

namespace Reg

def ofByte? (n : UInt8) : Option Reg := if h : n.toNat < 8 then some ⟨⟨n.toNat, h⟩⟩ else none

/-- What is said of a number that no register has. -/
def rangeMessage : String := "number too large to fit in target type"

/-- The register whose number is the last three bits of `n`. -/
def ofLowBits (n : Nat) : Reg := ⟨⟨n % 8, Nat.mod_lt _ (by decide)⟩⟩

def toByte (r : Reg) : UInt8 := UInt8.ofNat r.no.val

def text (r : Reg) : String := "R" ++ toString r.no.val

/-- The register with its type, as summaries show it. -/
def summary (r : Reg) : String := "Reg(" ++ toString r.no.val ++ ")"

end Reg

/-! ## Banks -/

def bankBit0 : UInt8 := 0x08

def bankBit1 : UInt8 := 0x10

/-- The bank, 0 to 3, that a program status word selects. -/
def bankOf (psw : UInt8) : UInt8 :=
  (if psw &&& bankBit0 = 0 then 0 else 1) ||| (if psw &&& bankBit1 = 0 then 0 else 2)

/-- The cell of internal memory that a register is in the given bank. -/
def Reg.cell (r : Reg) (bank : UInt8) : UInt8 := bank * 8 + r.toByte

end Micro8051
