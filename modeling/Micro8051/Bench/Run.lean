/-
Running scripts on a bench: a machine, the world of its callbacks and a journal. The environment
says what the callbacks do and which signals paced runs receive. As callbacks may call each other
without end, a run is given a bound, and it has no outcome if the bound is too small.
-/
import Micro8051.Bench.Script

namespace Micro8051

/-- A machine with the world of its callbacks. Scripts see the machine and the world; the rest can
not be seen from inside. -/
structure Bench (κ σ : Type) where
  machine : Machine κ
  world : σ
  journal : Journal := {}
  /-- How often paced runs have waited. -/
  waits : Nat := 0
  /-- The source of the interrupt that waits, if one does. Another one signalled meanwhile is
  dropped. -/
  interrupt : Option UInt8 := none

/-- What ends a wait of a paced run. -/
inductive Signal where
  | tick
  | stop
  | interrupt (source : UInt8)
  deriving DecidableEq

/-- The signals that end the waits of paced runs. Their order is arbitrary, but the ticker goes on and a
wait receives any of the signals that are there, so that ticks never cease. -/
structure Schedule where
  /-- The signal that ends a wait, by the number of the wait. -/
  signal : Nat → Signal := fun _ => .tick
  ticks : ∀ n, ∃ k, signal (n + k) = .tick := by exact fun _ => ⟨0, rfl⟩

/-- Ticks and nothing else. -/
def Schedule.ticking : Schedule := {}

/-- What the callbacks do, and the signals of paced runs. -/
structure Environment (κ σ : Type) where
  /-- What a callback does when it is told of an event. -/
  respond : κ → Occasion → Script κ σ Unit
  holds : κ → Script κ σ Bool
  schedule : Schedule := .ticking

variable {κ σ : Type}

def Act.apply (b : Bench κ σ) : Act κ σ → Bench κ σ
  | .edit f => { b with machine := b.machine.onChip f }
  | .remember f => { b with world := f b.world }
  | .report r => { b with journal := b.journal.add r }
  | .register s c => { b with machine := b.machine.onRegistry fun g => g.add s (.custom c) }
  | .clearHooks => { b with machine := b.machine.onRegistry Registry.clearHooks }
  | .clearBreakpoints => { b with machine := b.machine.onRegistry Registry.clearBreakpoints }
  | .raise source => { b with interrupt := some (b.interrupt.getD source) }
  | .dropInterrupt => { b with interrupt := none }

/-- What a registered callback does when it is told of an event. -/
def Callback.respond (env : Environment κ σ) (o : Occasion) : Callback κ → Script κ σ Unit
  | .custom c => env.respond c o
  | .latch r =>
    match o with
    | .writing _ old new => do
      let pc ← Script.chip Chip.pc
      Script.report (.latchWrite pc r.name old new)
    | _ => return ()

/-- Whether the condition of an unpaced run holds. -/
def Guard.holds (env : Environment κ σ) : Guard κ → Script κ σ Bool
  | .always => return true
  | .below start limit => Script.chip fun c => decide (c.executed - start < limit)
  | .tripwire c => env.holds c

/-! ## Requests and signals -/

namespace Bench

def stopPending (b : Bench κ σ) : Bool := b.machine.chip.pacer.stopPending

def dropStop (b : Bench κ σ) : Bench κ σ :=
  { b with machine := b.machine.onChip fun c => c.onPacer Pacer.dropStop }

/-- The signal that ends a wait, and the bench after it. A request to stop ends a wait only if one
is there. The interrupt that waits is received before one that is signalled during the wait. -/
def wait (s : Schedule) (b : Bench κ σ) : Signal × Bench κ σ :=
  let woken := { b with waits := b.waits + 1 }
  match s.signal b.waits with
  | .tick => (.tick, woken)
  | .stop => if b.stopPending then (.stop, woken.dropStop) else (.tick, woken)
  | .interrupt source => (.interrupt (b.interrupt.getD source), { woken with interrupt := none })

end Bench

/-! ## Answers to calls -/

/-- How calls are answered: an answer with the bench after it, or nothing if a bound is too
small. -/
abbrev Answers (κ σ : Type) := (c : Call κ) → Bench κ σ → Option (c.Answer × Bench κ σ)

/-- The outcome of a script whose calls are answered by `answers`. -/
def Script.runWith {α : Type} (answers : Answers κ σ) :
    Script κ σ α → Bench κ σ → Option (α × Bench κ σ)
  | .done a, b => some (a, b)
  | .look next, b => (next b.machine b.world).runWith answers b
  | .act a next, b => next.runWith answers (a.apply b)
  | .call c next, b =>
    match answers c b with
    | none => none
    | some (x, b) => (next x).runWith answers b

/-- The bench after each of some callbacks has been told of an event. -/
def tellAll (answers : Answers κ σ) (env : Environment κ σ) (o : Occasion) :
    List (Callback κ) → Bench κ σ → Option (Bench κ σ)
  | [], b => some b
  | c :: rest, b =>
    match (c.respond env o).runWith answers b with
    | none => none
    | some (_, b) => tellAll answers env o rest b

/-- The bench after the callbacks that wait for an event have run. While they run, they are taken
out of the registry. -/
def serveOn (answers : Answers κ σ) (env : Environment κ σ) (o : Occasion) (b : Bench κ σ) :
    Option (Bench κ σ) :=
  match b.machine.registry.callbacks o.slot with
  | [] => some b
  | callbacks =>
    match tellAll answers env o callbacks
        { b with machine := b.machine.onRegistry fun g => g.enter o.slot } with
    | none => none
    | some b => some { b with machine := b.machine.onRegistry Registry.leave }

/-- What a round of a run comes to. -/
inductive Turn where
  | step
  | skip
  | finish
  deriving DecidableEq

/-- The beginning of a round. A waiting request to stop ends the run. Otherwise a paced run waits
for a signal, and an unpaced one looks whether its condition holds. -/
def turnOn (answers : Answers κ σ) (env : Environment κ σ) (m : Mode κ) (b : Bench κ σ) :
    Option (Turn × Bench κ σ) :=
  if b.stopPending then
    some (.finish, b.dropStop)
  else
    match m with
    | .paced =>
      match b.wait env.schedule with
      | (.tick, b) => some (.step, b)
      | (.stop, b) => some (.finish, b)
      | (.interrupt source, b) => some (.skip, (Act.report (.interruptIgnored source)).apply b)
    | .unpaced g =>
      match (g.holds env).runWith answers b with
      | none => none
      | some (true, b) => some (.step, b)
      | some (false, b) => some (.finish, b)

/-- The outcome of a run that ends within a number of rounds. -/
def roundsOn (answers : Answers κ σ) (env : Environment κ σ) (m : Mode κ) :
    Nat → Bench κ σ → Option (Except Fault Unit × Bench κ σ)
  | 0, _ => none
  | n + 1, b =>
    match turnOn answers env m b with
    | none => none
    | some (.finish, b) => some (.ok (), b)
    | some (.skip, b) => roundsOn answers env m n b
    | some (.step, b) =>
      match Script.step.runWith answers b with
      | none => none
      | some (.ok _, b) => roundsOn answers env m n b
      | some (.error fault, b) => some (.error fault, b)

/-- Answers to calls that nest less than `bound` deep, in runs of less than `bound` rounds. -/
def answer (env : Environment κ σ) : (bound : Nat) → Answers κ σ
  | 0, _, _ => none
  | bound + 1, .serve o, b =>
    match serveOn (answer env bound) env o b with
    | none => none
    | some b => some ((), b)
  | bound + 1, .loop m, b => roundsOn (answer env bound) env m bound b

/-- The outcome of a script on a bench: its result and the bench after it, or nothing if the bound
is too small. -/
def Script.run {α : Type} (env : Environment κ σ) (bound : Nat) (s : Script κ σ α) (b : Bench κ σ) :
    Option (α × Bench κ σ) :=
  s.runWith (answer env bound) b

end Micro8051
