/-
Scripts: computations on a machine that is watched by callbacks. A script looks at the machine and
at the world of the callbacks, changes them and makes calls. A call is answered by running further
scripts, such as the callbacks that wait for an event. Callbacks are scripts, and so is all that a
machine does: its accesses to memory, its steps and its runs.
-/
import Micro8051.Bench.Journal
import Micro8051.Instr.Cycles
import Micro8051.Machine.Basic

namespace Micro8051

/-! ## What scripts are made of -/

/-- An event that callbacks are told of. -/
inductive Occasion where
  /-- A cell is read and holds `value`. -/
  | reading (addr value : UInt8)
  /-- A cell that holds `old` is about to be set to `new`. -/
  | writing (addr old new : UInt8)
  /-- The instruction at `pc` is about to run. -/
  | visiting (pc : UInt16)
  deriving DecidableEq

/-- The slot whose callbacks are told. -/
def Occasion.slot : Occasion → Slot
  | reading addr _ => .read addr
  | writing addr _ _ => .write addr
  | visiting pc => .visit pc

/-- A condition that an unpaced run needs to go on. -/
inductive Guard (κ : Type) where
  | always
  /-- Fewer than `limit` instructions have run since their count was `start`. -/
  | below (start limit : UInt64)
  | tripwire (c : κ)
  deriving DecidableEq

/-- How a run goes. -/
inductive Mode (κ : Type) where
  | paced
  /-- Step after step, as long as a condition holds. -/
  | unpaced (g : Guard κ)
  deriving DecidableEq

/-- What a script leaves to others. -/
inductive Call (κ : Type) where
  /-- Runs the callbacks that wait for an event. -/
  | serve (o : Occasion)
  /-- Goes through the rounds of a run until one of them ends it. -/
  | loop (m : Mode κ)
  deriving DecidableEq

@[reducible] def Call.Answer {κ : Type} : Call κ → Type
  | .serve _ => Unit
  | .loop _ => Except Fault Unit

/-- A change that takes no further scripts. -/
inductive Act (κ σ : Type) where
  | edit (f : Chip → Chip)
  | remember (f : σ → σ)
  | report (r : Record)
  /-- Registers a callback at the end of a slot. -/
  | register (s : Slot) (c : κ)
  | clearHooks
  | clearBreakpoints
  | raise (source : UInt8)
  | dropInterrupt

/-- A computation with a result of type `α`, with callbacks of type `κ` that live in a world of
type `σ`. -/
inductive Script (κ σ α : Type) where
  | done (a : α)
  /-- Goes on as the machine and the world are. -/
  | look (next : Machine κ → σ → Script κ σ α)
  | act (a : Act κ σ) (next : Script κ σ α)
  | call (c : Call κ) (next : c.Answer → Script κ σ α)

namespace Script

variable {κ σ α β γ : Type}

/-- The first script, then the second with its result. -/
def bind : Script κ σ α → (α → Script κ σ β) → Script κ σ β
  | .done a, k => k a
  | .look next, k => .look fun m w => (next m w).bind k
  | .act a next, k => .act a (next.bind k)
  | .call c next, k => .call c fun x => (next x).bind k

instance : Monad (Script κ σ) where
  pure := .done
  bind := bind

theorem bind_done (s : Script κ σ α) : s.bind .done = s := by
  induction s with
  | done a => rfl
  | look next ih => exact congrArg Script.look (funext fun m => funext fun w => ih m w)
  | act a next ih => exact congrArg (Script.act a) ih
  | call c next ih => exact congrArg (Script.call c) (funext ih)

theorem bind_assoc (s : Script κ σ α) (f : α → Script κ σ β) (g : β → Script κ σ γ) :
    (s.bind f).bind g = s.bind fun a => (f a).bind g := by
  induction s with
  | done a => rfl
  | look next ih => exact congrArg Script.look (funext fun m => funext fun w => ih m w)
  | act a next ih => exact congrArg (Script.act a) ih
  | call c next ih => exact congrArg (Script.call c) (funext ih)

instance : LawfulMonad (Script κ σ) :=
  LawfulMonad.mk' _ bind_done (fun _ _ => rfl) bind_assoc

/-! ## Single steps -/

/-- What `f` finds when it looks at the machine and the world. -/
def view (f : Machine κ → σ → α) : Script κ σ α := .look fun m w => .done (f m w)

/-- What `f` finds when it looks at the chip. -/
def chip (f : Chip → α) : Script κ σ α := .look fun m _ => .done (f m.chip)

def perform (a : Act κ σ) : Script κ σ Unit := .act a (.done ())

def edit (f : Chip → Chip) : Script κ σ Unit := perform (.edit f)

def remember (f : σ → σ) : Script κ σ Unit := perform (.remember f)

def report (r : Record) : Script κ σ Unit := perform (.report r)

/-- Registers a callback at the end of a slot. -/
def register (s : Slot) (c : κ) : Script κ σ Unit := perform (.register s c)

def clearHooks : Script κ σ Unit := perform .clearHooks

def clearBreakpoints : Script κ σ Unit := perform .clearBreakpoints

def raise (source : UInt8) : Script κ σ Unit := perform (.raise source)

def ask (c : Call κ) : Script κ σ c.Answer := .call c .done

/-- Runs the callbacks that wait for an event. -/
def serve (o : Occasion) : Script κ σ Unit := ask (.serve o)

/-! ## Requests -/

def stop : Script κ σ Unit := edit fun c => c.onPacer Pacer.requestStop

def dropRequests : Script κ σ Unit := do
  edit fun c => c.onPacer Pacer.dropStop
  perform .dropInterrupt

/-- Resets the chip and drops the requests that wait. If nothing is promised about the memories, they are
filled from `entropy`. -/
def reset (entropy : Entropy := .none) : Script κ σ Unit := do
  edit fun c => c.reset entropy
  perform .dropInterrupt

/-! ## Memory and registers -/

/-- Reads a cell of internal memory. Its read hooks run and are told the value; the result is the
value that the cell had at first. -/
def read (addr : UInt8) : Script κ σ UInt8 := do
  let v ← chip fun c => c.data.get addr
  serve (.reading addr v)
  return v

/-- Writes a cell of internal memory. Its write hooks run first and are told the value that the
cell had and the one it will have. -/
def write (addr v : UInt8) : Script κ σ Unit := do
  let old ← chip fun c => c.data.get addr
  serve (.writing addr old v)
  edit fun c => c.setData addr v

def readReg (r : Reg) : Script κ σ UInt8 := do
  let addr ← chip fun c => c.cellOf r
  read addr

def writeReg (r : Reg) (v : UInt8) : Script κ σ Unit := do
  let addr ← chip fun c => c.cellOf r
  write addr v

/-- Carries out a program of bus cycles: internal memory is accessed with its hooks, external
memory without. -/
def ofCycles : Cycles α → Script κ σ α
  | .done a => .done a
  | .read addr next => (read addr).bind fun v => ofCycles (next v)
  | .write addr v next => (write addr v).bind fun _ => ofCycles next
  | .bank next => (chip Chip.bank).bind fun b => ofCycles (next b)
  | .readExternal addr next => (chip fun c => c.xdata.get addr).bind fun v => ofCycles (next v)
  | .writeExternal addr v next => (edit fun c => c.setXdata addr v).bind fun _ => ofCycles next

/-! ## Steps -/

/-- Executes a decoded instruction. The program counter is set last. -/
def execute (d : Decoded) : Script κ σ Unit := do
  let pc ← ofCycles d.cycles
  edit fun c => c.jump pc

def visit (pc : UInt16) : Script κ σ Unit := do
  let n ← view fun m _ => m.registry.count (.visit pc)
  if n ≠ 0 then report (.visited pc n)
  serve (.visiting pc)

/-- One step: fetches the instruction at the program counter, runs the breakpoints there and
executes the instruction. If a breakpoint moves the program counter, the instruction is dropped; if
there is no instruction, nothing happens. -/
def step : Script κ σ (Except Fault Unit) := do
  let pc ← chip Chip.pc
  match ← chip fun c => fetch c.code pc with
  | .error fault => return .error fault
  | .ok d =>
    visit pc
    let now ← chip Chip.pc
    if now = pc then
      report (.executing pc d.row.mnemonic)
      execute d
      edit Chip.count
    else
      report (.dropped pc d.row.mnemonic now)
    return .ok ()

/-! ## Runs -/

/-- Runs step after step as long as a condition holds, until a stop is requested or a step fails.
Requests made before are dropped. -/
def unpacedRun (g : Guard κ) : Script κ σ (Except Fault Unit) := do
  dropRequests
  match ← ask (.loop (.unpaced g)) with
  | .ok _ => return .ok ()
  | .error fault =>
    report (.halted fault)
    return .error fault

/-- Runs as long as a condition of the caller's holds. -/
def runWhile (c : κ) : Script κ σ (Except Fault Unit) := unpacedRun (.tripwire c)

/-- Runs until `limit` instructions have run, unless the run ends before. -/
def runLimited (limit : UInt64) : Script κ σ (Except Fault Unit) := do
  let start ← chip Chip.executed
  unpacedRun (.below start limit)

/-- Runs one step a tick until a stop is requested or a step fails. Requests made before are
dropped. -/
def start : Script κ σ (Except Fault Unit) := do
  dropRequests
  let pc ← chip Chip.pc
  let period ← chip fun c => c.pacer.period
  report (.started pc period)
  match ← ask (.loop .paced) with
  | .ok _ =>
    let pc ← chip Chip.pc
    let executed ← chip Chip.executed
    report (.stopped pc executed)
    return .ok ()
  | .error fault =>
    report (.halted fault)
    return .error fault

end Script

end Micro8051
