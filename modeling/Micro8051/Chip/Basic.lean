/-
The chip: memories, program counter, program memory and configuration, without the callbacks that
watch it. Nothing here fires a callback.
-/
import Micro8051.Chip.Pacer
import Micro8051.Image.Fetch
import Micro8051.Memory.Fill
import Micro8051.Register.Special

namespace Micro8051

/-- The configuration of a chip, which a reset keeps. -/
structure Flags where
  /-- What the memories hold after creation and after a reset. -/
  contents : Contents := .zeroed
  /-- Whether a machine made with these flags reports every write to a latch of pins. -/
  traceLatches : Bool := false
  deriving DecidableEq

/-- The state of a chip: internal memory, external memory and program memory (`data`, `xdata` and
`code`), program counter and configuration. -/
structure Chip where
  data : Internal
  xdata : External
  pc : UInt16
  /-- How many instructions have run since creation or reset, modulo `2^64`. -/
  executed : UInt64
  code : Image
  flags : Flags
  pacer : Pacer
  deriving DecidableEq

namespace Chip

/-- A new chip: memories as its flags say, from `entropy` if they promise nothing, no program, everything
else zero. -/
def new (period : Nat) (flags : Flags) (entropy : Entropy := .none) : Chip :=
  let (data, xdata) := flags.contents.memories entropy
  ⟨data, xdata, 0, 0, #[], flags, { period }⟩

/-- The chip after a reset: memories, program counter and instruction count as on a new chip, and no
request to stop; program memory, flags and period are kept. -/
def reset (c : Chip) (entropy : Entropy) : Chip :=
  let (data, xdata) := c.flags.contents.memories entropy
  { c with data, xdata, pc := 0, executed := 0, pacer := c.pacer.dropStop }

def load (c : Chip) (image : Image) : Chip := { c with code := image }

def jump (c : Chip) (pc : UInt16) : Chip := { c with pc }

def setData (c : Chip) (addr v : UInt8) : Chip := { c with data := c.data.set addr v }

def setXdata (c : Chip) (addr : UInt16) (v : UInt8) : Chip := { c with xdata := c.xdata.set addr v }

/-- The chip after one more instruction has run. -/
def count (c : Chip) : Chip := { c with executed := c.executed + 1 }

def onPacer (c : Chip) (f : Pacer → Pacer) : Chip := { c with pacer := f c.pacer }

/-! ## Banks -/

/-- The active bank, 0 to 3. -/
def bank (c : Chip) : UInt8 := bankOf (c.data.get Sfr.psw)

/-- The cell of a working register in the active bank. -/
def cellOf (c : Chip) (r : Reg) : UInt8 := r.cell c.bank

/-- The eight registers of the active bank. -/
def bankBytes (c : Chip) : List UInt8 := (List.finRange 8).map fun i => c.data.get (c.cellOf ⟨i⟩)

end Chip

end Micro8051
