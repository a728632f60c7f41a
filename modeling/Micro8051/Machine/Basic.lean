/-
Machines: a chip with the callbacks that watch it. Beside the callbacks that trace the latches of
the pins, callbacks are tokens of a type `κ` of the caller's choice; the caller also says what each
token does, when a machine is run.
-/
import Micro8051.Chip.Basic
import Micro8051.Machine.Registry

namespace Micro8051

/-- A registered callback. -/
inductive Callback (κ : Type) where
  /-- Reports the writes to a latch of pins. -/
  | latch (r : Sfr)
  | custom (c : κ)
  deriving DecidableEq

/-- A chip with its callbacks. -/
structure Machine (κ : Type) where
  chip : Chip
  registry : Registry (Callback κ) := {}

namespace Machine

/-- A registry that holds only the callbacks that trace the latches. -/
def latchTraces {κ : Type} : Registry (Callback κ) :=
  Sfr.latches.foldl (fun g r => g.add (.write r.addr) (.latch r)) {}

/-- A new machine: no program, and no callbacks but the ones that its flags ask for. -/
def new {κ : Type} (period : Nat) (flags : Flags) (entropy : Entropy := .none) : Machine κ :=
  ⟨Chip.new period flags entropy, if flags.traceLatches then latchTraces else {}⟩

/-- A new machine with a period of one microsecond and default flags. -/
def standard {κ : Type} : Machine κ := new Pacer.period1MHz {}

@[inline] def onChip {κ : Type} (m : Machine κ) (f : Chip → Chip) : Machine κ :=
  { m with chip := f m.chip }

@[inline] def onRegistry {κ : Type} (m : Machine κ)
    (f : Registry (Callback κ) → Registry (Callback κ)) : Machine κ :=
  { m with registry := f m.registry }

end Machine

end Micro8051
