/-
Special function registers: cells of the upper half of internal memory that have names.
-/
namespace Micro8051

/-- A named special function register. -/
structure Sfr where
  addr : UInt8
  name : String
  deriving DecidableEq

namespace Sfr

/-! ## Addresses

Stack pointer, data pointer (low and high byte), latches of the four groups of pins, program status
word, accumulator and B register. -/

def sp : UInt8 := 0x81
def dpl : UInt8 := 0x82
def dph : UInt8 := 0x83
def p0 : UInt8 := 0x80
def p1 : UInt8 := 0x90
def p2 : UInt8 := 0xA0
def p3 : UInt8 := 0xB0
def psw : UInt8 := 0xD0
def acc : UInt8 := 0xE0
def b : UInt8 := 0xF0

/-! ## Names -/

/-- The registers that have a name. -/
def table : List Sfr := [
  ⟨sp, "SP"⟩, ⟨dpl, "DPL"⟩, ⟨dph, "DPH"⟩, ⟨p0, "P0"⟩, ⟨0x87, "PCON"⟩, ⟨0x88, "TCON"⟩,
  ⟨0x89, "TMOD"⟩, ⟨0x8A, "TL0"⟩, ⟨0x8B, "TL1"⟩, ⟨0x8C, "TH0"⟩, ⟨0x8D, "TH1"⟩, ⟨p1, "P1"⟩,
  ⟨0x98, "SCON"⟩, ⟨0x99, "SBUF"⟩, ⟨p2, "P2"⟩, ⟨0xA8, "IE"⟩, ⟨p3, "P3"⟩, ⟨0xB8, "IP"⟩,
  ⟨psw, "PSW"⟩, ⟨acc, "ACC"⟩, ⟨b, "B"⟩]

/-- The first register of the table with the given name. -/
def byName? (name : String) : Option Sfr := table.find? fun r => r.name == name

/-- The first register of the table at the given address. -/
def byAddress? (addr : UInt8) : Option Sfr := table.find? fun r => r.addr == addr

/-- The latches of the pins, whose writes can be traced. -/
def latches : List Sfr := [⟨p0, "P0"⟩, ⟨p1, "P1"⟩, ⟨p2, "P2"⟩, ⟨p3, "P3"⟩]

end Sfr

end Micro8051
