/-
The pacer of a chip: the time between two steps of a paced run, and whether a request to stop is
waiting. Another request made meanwhile changes nothing.
-/
namespace Micro8051

/-- The period of a chip and its waiting request to stop. -/
structure Pacer where
  /-- The time between two steps of a paced run, in nanoseconds. -/
  period : Nat
  stopPending : Bool := false
  deriving DecidableEq

namespace Pacer

def period1Hz : Nat := 1000000000

def period10Hz : Nat := 100000000

def period800kHz : Nat := 1250

def period1MHz : Nat := 1000

def requestStop (p : Pacer) : Pacer := { p with stopPending := true }

def dropStop (p : Pacer) : Pacer := { p with stopPending := false }

def setPeriod (p : Pacer) (period : Nat) : Pacer := { p with period := period }

end Pacer

end Micro8051
