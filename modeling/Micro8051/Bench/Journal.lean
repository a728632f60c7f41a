/-
The journal of a machine: records of what it did, each with a level of detail. A journal keeps the
records up to one level, in order.
-/
import Micro8051.Image.Fetch
import Micro8051.Text.Duration

namespace Micro8051

/-- How detailed a record is, the least detailed first. -/
inductive Level where
  | error
  | warn
  | info
  | debug
  | trace
  deriving DecidableEq

namespace Level

/-- The number of a level; more detailed levels have larger numbers. -/
def rank : Level → Nat
  | error => 1
  | warn => 2
  | info => 3
  | debug => 4
  | trace => 5

def text : Level → String
  | error => "ERROR"
  | warn => "WARN"
  | info => "INFO"
  | debug => "DEBUG"
  | trace => "TRACE"

end Level

/-- Something that a machine did. -/
inductive Record where
  | started (pc : UInt16) (period : Nat)
  | stopped (pc : UInt16) (executed : UInt64)
  | halted (fault : Fault)
  | visited (pc : UInt16) (callbacks : Nat)
  /-- An instruction was dropped, as a breakpoint moved the program counter. -/
  | dropped (pc : UInt16) (mnemonic : String) (target : UInt16)
  | executing (pc : UInt16) (mnemonic : String)
  | latchWrite (pc : UInt16) (latch : String) (old new : UInt8)
  | interruptIgnored (source : UInt8)
  deriving DecidableEq

namespace Record

def level : Record → Level
  | started .. => .info
  | stopped .. => .info
  | halted _ => .warn
  | visited .. => .debug
  | dropped .. => .debug
  | executing .. => .trace
  | latchWrite .. => .info
  | interruptIgnored _ => .trace

def text : Record → String
  | started pc period => "started at C:" ++ Text.hexWord pc ++ ", period " ++ Text.duration period
  | stopped pc executed =>
    "stopped at C:" ++ Text.hexWord pc ++ " after " ++ toString executed.toNat ++ " instructions"
  | halted fault => "halted: " ++ fault.message
  | visited pc callbacks =>
    "breakpoint at C:" ++ Text.hexWord pc ++ " (" ++ toString callbacks ++ " callbacks)"
  | dropped pc mnemonic target =>
    "C:" ++ Text.hexWord pc ++ " " ++ mnemonic ++ " dropped, breakpoint moved PC to C:" ++
      Text.hexWord target
  | executing pc mnemonic => "C:" ++ Text.hexWord pc ++ " " ++ mnemonic
  | latchWrite pc latch old new =>
    "C:" ++ Text.hexWord pc ++ " " ++ latch ++ ": " ++ Text.hexByte old ++ " -> " ++ Text.hexByte new
  | interruptIgnored source => "ignoring interrupt signal Some(" ++ toString source.toNat ++ ")"

end Record

structure Journal where
  /-- The most detailed level that is kept; nothing is kept if there is none. -/
  limit : Option Level := none
  records : Array Record := #[]

def Journal.keeps (j : Journal) (l : Level) : Bool :=
  match j.limit with
  | none => false
  | some limit => l.rank ≤ limit.rank

/-- The journal with one more record, if records of its level are kept. -/
def Journal.add (j : Journal) (r : Record) : Journal :=
  if j.keeps r.level then { j with records := j.records.push r } else j

end Micro8051
