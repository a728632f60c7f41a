/-
What instructions do, as programs of bus cycles. A program says which cells it reads and writes
and in what order; what a cycle does, and who watches it, is left to the reader of the program.
-/
import Micro8051.Instr.Decoded
import Micro8051.Register.Special
import Micro8051.Word

namespace Micro8051

/-- A program of bus cycles that ends with a result of type `α`. -/
inductive Cycles (α : Type) where
  | done (a : α)
  | read (addr : UInt8) (next : UInt8 → Cycles α)
  | write (addr v : UInt8) (next : Cycles α)
  /-- Looks at the active bank; this is no access to memory. -/
  | bank (next : UInt8 → Cycles α)
  | readExternal (addr : UInt16) (next : UInt8 → Cycles α)
  | writeExternal (addr : UInt16) (v : UInt8) (next : Cycles α)

namespace Cycles

/-- The first program, then the second with its result. -/
def bind {α β : Type} : Cycles α → (α → Cycles β) → Cycles β
  | .done a, k => k a
  | .read a next, k => .read a fun v => (next v).bind k
  | .write a v next, k => .write a v (next.bind k)
  | .bank next, k => .bank fun b => (next b).bind k
  | .readExternal a next, k => .readExternal a fun v => (next v).bind k
  | .writeExternal a v next, k => .writeExternal a v (next.bind k)

instance : Monad Cycles where
  pure := .done
  bind := bind

theorem bind_done {α : Type} (p : Cycles α) : p.bind .done = p := by
  induction p with
  | done a => rfl
  | read a next ih => exact congrArg (Cycles.read a) (funext ih)
  | write a v next ih => exact congrArg (Cycles.write a v) ih
  | bank next ih => exact congrArg Cycles.bank (funext ih)
  | readExternal a next ih => exact congrArg (Cycles.readExternal a) (funext ih)
  | writeExternal a v next ih => exact congrArg (Cycles.writeExternal a v) ih

theorem bind_assoc {α β γ : Type} (p : Cycles α) (f : α → Cycles β) (g : β → Cycles γ) :
    (p.bind f).bind g = p.bind fun a => (f a).bind g := by
  induction p with
  | done a => rfl
  | read a next ih => exact congrArg (Cycles.read a) (funext ih)
  | write a v next ih => exact congrArg (Cycles.write a v) ih
  | bank next ih => exact congrArg Cycles.bank (funext ih)
  | readExternal a next ih => exact congrArg (Cycles.readExternal a) (funext ih)
  | writeExternal a v next ih => exact congrArg (Cycles.writeExternal a v) ih

instance : LawfulMonad Cycles :=
  LawfulMonad.mk' _ bind_done (fun _ _ => rfl) bind_assoc

def load (addr : UInt8) : Cycles UInt8 := .read addr .done

def store (addr v : UInt8) : Cycles Unit := .write addr v (.done ())

/-- The cell of a working register in the bank that is active now. -/
def cellOf (r : Reg) : Cycles UInt8 := .bank fun b => .done (r.cell b)

/-! ## Stack and data pointer -/

/-- Moves the stack pointer up and writes a byte where it then points. -/
def push (v : UInt8) : Cycles Unit := do
  let sp := (← load Sfr.sp) + 1
  store Sfr.sp sp
  store sp v

/-- Reads the byte that the stack pointer addresses and moves the pointer down. -/
def pop : Cycles UInt8 := do
  let sp ← load Sfr.sp
  let v ← load sp
  store Sfr.sp (sp - 1)
  return v

/-- Reads the data pointer, high byte first. -/
def loadDptr : Cycles UInt16 := do
  let hi ← load Sfr.dph
  let lo ← load Sfr.dpl
  return word hi lo

/-- Writes the data pointer, high byte first. -/
def storeDptr (w : UInt16) : Cycles Unit := do
  store Sfr.dph (highByte w)
  store Sfr.dpl (lowByte w)

end Cycles

/-! ## Places -/

open Cycles

def Place.load : Place UInt8 → Cycles UInt8
  | .acc => Cycles.load Sfr.acc
  | .reg r => do Cycles.load (← cellOf r)
  | .direct a => Cycles.load a
  | .indirect r => do Cycles.load (← Cycles.load (← cellOf r))

def Place.store (v : UInt8) : Place UInt8 → Cycles Unit
  | .acc => Cycles.store Sfr.acc v
  | .reg r => do Cycles.store (← cellOf r) v
  | .direct a => Cycles.store a v
  | .indirect r => do Cycles.store (← Cycles.load (← cellOf r)) v

def Source.load : Source UInt8 → Cycles UInt8
  | .place p => p.load
  | .imm v => pure v

/-- Replaces the byte at a place by what `f` makes of it; the result is the new byte. -/
def Place.modify (f : UInt8 → UInt8) (p : Place UInt8) : Cycles UInt8 := do
  let v ← p.load
  p.store (f v)
  return f v

/-! ## Instructions -/

/-- The cycles of an instruction that ends before `next`; the result is the program counter after
it. Of a copy, the source is read before the destination is found. -/
def Instr.cycles (next : UInt16) : Instr UInt8 → Cycles UInt16
  | .nop => return next
  | .ljmp hi lo => return word hi lo
  | .lcall hi lo => do
    Cycles.push (lowByte next)
    Cycles.push (highByte next)
    return word hi lo
  | .ret => do
    let hi ← Cycles.pop
    let lo ← Cycles.pop
    return word hi lo
  | .sjmp rel => return displace next rel
  | .jz rel => do
    let a ← Cycles.load Sfr.acc
    return if a = 0 then displace next rel else next
  | .jnz rel => do
    let a ← Cycles.load Sfr.acc
    return if a = 0 then next else displace next rel
  | .djnz p rel => do
    let v ← p.modify (· - 1)
    return if v = 0 then next else displace next rel
  | .inc p => do
    let _ ← p.modify (· + 1)
    return next
  | .dec p => do
    let _ ← p.modify (· - 1)
    return next
  | .incDptr => do
    storeDptr ((← loadDptr) + 1)
    return next
  | .clr => do
    Cycles.store Sfr.acc 0
    return next
  | .mov dst src => do
    dst.store (← src.load)
    return next
  | .movDptr hi lo => do
    storeDptr (word hi lo)
    return next
  | .movxLoad => do
    let dptr ← loadDptr
    .readExternal dptr fun v => do
      Cycles.store Sfr.acc v
      return next
  | .movxStore => do
    let v ← Cycles.load Sfr.acc
    let dptr ← loadDptr
    .writeExternal dptr v (.done next)
  | .push a => do
    let sp := (← Cycles.load Sfr.sp) + 1
    Cycles.store Sfr.sp sp
    Cycles.store sp (← Cycles.load a)
    return next
  | .pop a => do
    Cycles.store a (← Cycles.load (← Cycles.load Sfr.sp))
    Cycles.store Sfr.sp ((← Cycles.load Sfr.sp) - 1)
    return next

def Decoded.cycles (d : Decoded) : Cycles UInt16 := d.instr.cycles d.next

end Micro8051
