/-
The registry of callbacks. A slot is an event that callbacks can wait for; each slot has a list of
callbacks in the order of registration. To run a slot, its list is taken out; it is put back in
front of what was registered meanwhile. A run within a run finds the slot empty.
-/
namespace Micro8051

/-- What a callback can wait for. -/
inductive Slot where
  | read (addr : UInt8)
  | write (addr : UInt8)
  /-- An instruction about to run at a program address. -/
  | visit (pc : UInt16)
  deriving DecidableEq

def Slot.breakpoint? : Slot → Option UInt16
  | .read _ => none
  | .write _ => none
  | .visit pc => some pc

def Slot.isHook : Slot → Bool
  | .read _ => true
  | .write _ => true
  | .visit _ => false

/-- Callbacks of type `κ` with the slots they wait in. -/
structure Registry (κ : Type) where
  /-- The callbacks that wait, in an order that within each slot is the order of registration. -/
  waiting : List (Slot × κ) := []
  /-- The lists that are taken out because their slots run, the innermost first. -/
  running : List (Slot × List κ) := []
  deriving DecidableEq

namespace Registry

variable {κ : Type}

/-- The callbacks that wait in a slot, in the order in which they will run. -/
def callbacks (g : Registry κ) (s : Slot) : List κ :=
  (g.waiting.filter fun e => e.1 = s).map Prod.snd

/-- The registry with one more callback at the end of a slot. -/
def add (g : Registry κ) (s : Slot) (c : κ) : Registry κ :=
  { g with waiting := g.waiting ++ [(s, c)] }

/-- The registry while the callbacks of a slot run: they are taken out. -/
def enter (g : Registry κ) (s : Slot) : Registry κ :=
  ⟨g.waiting.filter fun e => e.1 ≠ s, (s, g.callbacks s) :: g.running⟩

/-- The registry after the callbacks taken out last have run: they are back, in front. -/
def leave (g : Registry κ) : Registry κ :=
  match g.running with
  | [] => g
  | (s, cs) :: rest => ⟨cs.map (fun c => (s, c)) ++ g.waiting, rest⟩

/-- The registry without the hooks that wait. -/
def clearHooks (g : Registry κ) : Registry κ :=
  { g with waiting := g.waiting.filter fun e => !e.1.isHook }

/-- The registry without the breakpoints that wait. -/
def clearBreakpoints (g : Registry κ) : Registry κ :=
  { g with waiting := g.waiting.filter fun e => e.1.isHook }

/-! ## Counts -/

def count (g : Registry κ) (s : Slot) : Nat := (g.callbacks s).length

def readHooks (g : Registry κ) : Nat :=
  g.waiting.countP fun e => match e.1 with
    | .read _ => true
    | _ => false

def writeHooks (g : Registry κ) : Nat :=
  g.waiting.countP fun e => match e.1 with
    | .write _ => true
    | _ => false

/-- The address put into its place in an ascending list, unless it is there. -/
def insertAddress (a : UInt16) : List UInt16 → List UInt16
  | [] => [a]
  | b :: rest => if a < b then a :: b :: rest else if a = b then b :: rest else b :: insertAddress a rest

/-- The program addresses where breakpoints wait, in ascending order. -/
def breakpoints (g : Registry κ) : List UInt16 :=
  (g.waiting.filterMap fun e => e.1.breakpoint?).foldr insertAddress []

/-! ## Callbacks by slot -/

theorem callbacks_add (g : Registry κ) (s t : Slot) (c : κ) :
    (g.add s c).callbacks t = if t = s then g.callbacks t ++ [c] else g.callbacks t := by
  by_cases h : t = s
  · subst h; simp [callbacks, add]
  · have : ¬ s = t := fun e => h e.symm
    simp [callbacks, add, h, this]

theorem callbacks_enter (g : Registry κ) (s t : Slot) :
    (g.enter s).callbacks t = if t = s then [] else g.callbacks t := by
  simp only [callbacks, enter, List.filter_filter]
  split
  · next h => subst h; simp
  · next h =>
    congr 1
    apply List.filter_congr
    intro e _
    by_cases he : e.1 = t
    · simp [he, h]
    · simp [he]

theorem callbacks_leave (g : Registry κ) {s : Slot} {cs : List κ} {rest : List (Slot × List κ)}
    (h : g.running = (s, cs) :: rest) (t : Slot) :
    g.leave.callbacks t = if t = s then cs ++ g.callbacks t else g.callbacks t := by
  have hc : ((cs.map fun c => (s, c)).filter fun e => e.1 = t).map Prod.snd =
      if t = s then cs else [] := by
    by_cases e : t = s
    · subst e; simp [List.filter_map, Function.comp_def]
    · have : ¬ s = t := fun e' => e e'.symm
      simp [List.filter_map, Function.comp_def, e, this]
  simp only [leave, h, callbacks, List.filter_append, List.map_append, hc]
  split <;> rfl

theorem callbacks_clearHooks (g : Registry κ) (t : Slot) :
    g.clearHooks.callbacks t = if t.isHook then [] else g.callbacks t := by
  simp only [callbacks, clearHooks, List.filter_filter]
  split
  · next h =>
    rw [List.map_eq_nil_iff, List.filter_eq_nil_iff]
    intro e _ he
    simp only [Bool.and_eq_true, decide_eq_true_eq] at he
    simp [he.1, h] at he
  · next h =>
    congr 1
    apply List.filter_congr
    intro e _
    by_cases he : e.1 = t
    · simp [he, h]
    · simp [he]

theorem callbacks_clearBreakpoints (g : Registry κ) (t : Slot) :
    g.clearBreakpoints.callbacks t = if t.isHook then g.callbacks t else [] := by
  simp only [callbacks, clearBreakpoints, List.filter_filter]
  split
  · next h =>
    congr 1
    apply List.filter_congr
    intro e _
    by_cases he : e.1 = t
    · simp [he, h]
    · simp [he]
  · next h =>
    rw [List.map_eq_nil_iff, List.filter_eq_nil_iff]
    intro e _ he
    simp only [Bool.and_eq_true, decide_eq_true_eq] at he
    simp [he.1, h] at he

end Registry

end Micro8051
