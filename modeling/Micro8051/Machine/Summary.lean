/-
One-line summaries of machines and their parts.
-/
import Micro8051.Machine.Basic
import Micro8051.Text.Duration
import Micro8051.Text.Fields

namespace Micro8051

def Contents.summary : Contents → String
  | .zeroed => "Zeroed"
  | .unseeded => "Unseeded"
  | .seeded seed => Text.fields "Seeded" [("seed", toString seed.toNat)]
  | .known value => Text.fields "Known" [("value", toString value.toNat)]

def Flags.summary (f : Flags) : String :=
  Text.fields "MachineFlags" [("mem_init", f.contents.summary),
    ("trace_ports", Text.truth f.traceLatches)]

def Pacer.summary (p : Pacer) : String :=
  Text.someFields "Clock" [("period", Text.duration p.period),
    ("stop_pending", Text.truth p.stopPending)]

/-- The summary of internal memory: all cells in decimal. -/
def Internal.summary (m : Internal) : String :=
  "DataMem([" ++ ", ".intercalate (m.bytes.toList.map fun v => toString v.toNat) ++ "])"

/-- The summary of external memory: its size. -/
def External.summary (m : External) : String :=
  Text.someFields "ExtMem" [("len", toString m.bytes.size)]

namespace Registry

variable {κ : Type}

/-- The breakpoints that wait: their addresses and how many there are at each. -/
def breakpointSummary (g : Registry κ) : String :=
  "\x7b" ++ ", ".intercalate (g.breakpoints.map fun a =>
    "\"C:" ++ Text.hexWord a ++ "\": " ++ toString (g.count (.visit a))) ++ "\x7d"

def hookSummary (g : Registry κ) : String :=
  Text.fields "HookRegistry" [("reads", toString g.readHooks), ("writes", toString g.writeHooks)]

end Registry

def Machine.summary {κ : Type} (m : Machine κ) : String :=
  Text.someFields "Machine" [
    ("pc", toString m.chip.pc.toNat),
    ("instructions_run", toString m.chip.executed.toNat),
    ("code_len", toString m.chip.code.size),
    ("flags", m.chip.flags.summary),
    ("clock", m.chip.pacer.summary),
    ("breakpoints", m.registry.breakpointSummary),
    ("hooks", m.registry.hookSummary)]

end Micro8051
