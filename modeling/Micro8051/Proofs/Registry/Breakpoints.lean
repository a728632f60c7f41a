/-
Breakpoints as a map from program addresses to lists of callbacks, in which an address is a key if it
has a list. Kept beside a registry, change by change, the map shows the breakpoints that wait there,
and no key of it ever has an empty list. So its keys are the addresses where breakpoints wait, which
the registry lists in ascending order.
-/
import Mathlib.Logic.Function.Basic
import Micro8051.Proofs.Registry.Changes

namespace Micro8051

variable {κ : Type}

/-- Lists of breakpoints by program address. -/
abbrev BreakpointMap (κ : Type) := UInt16 → Option (List κ)

namespace BreakpointMap

def empty : BreakpointMap κ := fun _ => none

/-- The map with one more breakpoint at the end of the list of `a`, which is a key now. -/
def add (f : BreakpointMap κ) (a : UInt16) (c : κ) : BreakpointMap κ :=
  Function.update f a (some ((f a).getD [] ++ [c]))

/-- The map without the key `a`. -/
def remove (f : BreakpointMap κ) (a : UInt16) : BreakpointMap κ := Function.update f a none

/-- The map with a list put back in front of the list of `a`, which is a key now. -/
def restore (f : BreakpointMap κ) (a : UInt16) (cs : List κ) : BreakpointMap κ :=
  Function.update f a (some (cs ++ (f a).getD []))

/-- The map after a change of the registry `g`. -/
def changed (f : BreakpointMap κ) (g : Registry κ) : Registry.Change κ → BreakpointMap κ
  | .add (.visit a) c => f.add a c
  | .enter (.visit a) => f.remove a
  | .leave =>
    match g.running with
    | (.visit a, cs) :: _ => f.restore a cs
    | _ => f
  | .clearBreakpoints => empty
  | _ => f

/-- The map shows the breakpoints that wait in a registry, and no key has an empty list. -/
structure Shows (f : BreakpointMap κ) (g : Registry κ) : Prop where
  lists : ∀ a, (f a).getD [] = g.callbacks (.visit a)
  nonempty : ∀ a, f a ≠ some []

section Shows

variable {f : BreakpointMap κ} {g : Registry κ}

/-- A key is an address where breakpoints wait. -/
theorem Shows.isSome_iff (h : f.Shows g) (a : UInt16) : (f a).isSome ↔ g.callbacks (.visit a) ≠ [] := by
  rw [← h.lists a]
  cases hf : f a with
  | none => simp
  | some cs =>
    have : cs ≠ [] := fun e => h.nonempty a (e ▸ hf)
    simpa using this

/-- Changes that leave the breakpoints alone. -/
theorem Shows.congr {g' : Registry κ} (h : f.Shows g) (hc : ∀ a, g'.callbacks (.visit a) = g.callbacks (.visit a)) :
    f.Shows g' :=
  ⟨fun a => (h.lists a).trans (hc a).symm, h.nonempty⟩

/-- Changes of the list of one address. -/
theorem Shows.update {g' : Registry κ} (h : f.Shows g) (a : UInt16) (l : Option (List κ)) (hl : l ≠ some [])
    (ha : g'.callbacks (.visit a) = l.getD [])
    (hc : ∀ a', a' ≠ a → g'.callbacks (.visit a') = g.callbacks (.visit a')) :
    Shows (Function.update f a l) g' := by
  refine ⟨fun a' => ?_, fun a' => ?_⟩ <;> rcases em (a' = a) with rfl | e
  · rw [Function.update_self, ha]
  · rw [Function.update_of_ne e, hc a' e, h.lists a']
  · rw [Function.update_self]
    exact hl
  · rw [Function.update_of_ne e]
    exact h.nonempty a'

theorem Shows.leave (h : f.Shows g) (hr : ∀ e ∈ g.running, e.2 ≠ []) : (f.changed g .leave).Shows g.leave := by
  cases hg : g.running with
  | nil => simpa only [changed, Registry.leave, hg] using h
  | cons e rest =>
    obtain ⟨s, cs⟩ := e
    have hcs : cs ≠ [] := hr (s, cs) (by rw [hg]; exact List.mem_cons_self)
    have hl := fun a => g.callbacks_leave hg (.visit a)
    cases s with
    | visit a =>
      simp only [changed, hg]
      refine h.update a _ (by simp [hcs]) ?_ fun a' e => ?_
      · rw [hl, if_pos rfl, Option.getD_some, h.lists]
      · rw [hl, if_neg (by simpa using e)]
    | read addr =>
      simp only [changed, hg]
      exact h.congr fun a => (hl a).trans (if_neg (by simp))
    | write addr =>
      simp only [changed, hg]
      exact h.congr fun a => (hl a).trans (if_neg (by simp))

/-- The map kept beside a registry goes on showing its breakpoints. -/
theorem Shows.changed (h : f.Shows g) (hr : ∀ e ∈ g.running, e.2 ≠ []) (ch : Registry.Change κ) :
    (f.changed g ch).Shows (g.changed ch) := by
  cases ch with
  | keep => exact h
  | leave => exact h.leave hr
  | clearHooks => exact h.congr fun a => (g.callbacks_clearHooks _).trans (if_neg (by simp [Slot.isHook]))
  | clearBreakpoints =>
    refine ⟨fun a => ?_, fun a h => by cases h⟩
    rw [Registry.changed, g.callbacks_clearBreakpoints, if_neg (by simp [Slot.isHook])]
    rfl
  | add s c =>
    have hs := fun a => g.callbacks_add s (.visit a) c
    cases s with
    | visit a =>
      refine h.update a _ (by simp) ?_ fun a' e => ?_
      · rw [Registry.changed, hs, if_pos rfl, Option.getD_some, h.lists]
      · rw [Registry.changed, hs, if_neg (by simpa using e)]
    | read addr => exact h.congr fun a => (hs a).trans (if_neg (by simp))
    | write addr => exact h.congr fun a => (hs a).trans (if_neg (by simp))
  | enter s =>
    have hs := fun a => g.callbacks_enter s (.visit a)
    cases s with
    | visit a =>
      refine h.update a none (by simp) ?_ fun a' e => ?_
      · rw [Registry.changed, hs, if_pos rfl, Option.getD_none]
      · rw [Registry.changed, hs, if_neg (by simpa using e)]
    | read addr => exact h.congr fun a => (hs a).trans (if_neg (by simp))
    | write addr => exact h.congr fun a => (hs a).trans (if_neg (by simp))

end Shows

end BreakpointMap

/-! ## Addresses in order -/

namespace Registry

theorem mem_insertAddress (a b : UInt16) (l : List UInt16) : a ∈ insertAddress b l ↔ a = b ∨ a ∈ l := by
  induction l with
  | nil => simp [insertAddress]
  | cons c rest ih =>
    rw [insertAddress]
    split
    · simp
    · split
      · rename_i h
        subst h
        simp
      · rw [List.mem_cons, ih, List.mem_cons]
        tauto

theorem pairwise_insertAddress (b : UInt16) {l : List UInt16} (h : l.Pairwise (· < ·)) :
    (insertAddress b l).Pairwise (· < ·) := by
  induction l with
  | nil => exact List.pairwise_singleton _ _
  | cons c rest ih =>
    obtain ⟨hc, hrest⟩ := List.pairwise_cons.1 h
    rw [insertAddress]
    split
    · rename_i hb
      refine List.pairwise_cons.2 ⟨fun a ha => ?_, h⟩
      rcases List.mem_cons.1 ha with rfl | ha
      · exact hb
      · exact UInt16.lt_trans hb (hc a ha)
    · split
      · exact h
      · rename_i hb he
        refine List.pairwise_cons.2 ⟨fun a ha => ?_, ih hrest⟩
        rcases (mem_insertAddress a b rest).1 ha with rfl | ha
        · exact UInt16.lt_of_le_of_ne (UInt16.not_lt.1 hb) (Ne.symm he)
        · exact hc a ha

/-- The addresses of the breakpoints are in ascending order, each once. -/
theorem breakpoints_ascending (g : Registry κ) : g.breakpoints.Pairwise (· < ·) := by
  unfold breakpoints
  induction g.waiting.filterMap fun e => e.1.breakpoint? with
  | nil => exact .nil
  | cons a rest ih => exact pairwise_insertAddress a ih

theorem mem_breakpoints (g : Registry κ) (a : UInt16) : a ∈ g.breakpoints ↔ g.callbacks (.visit a) ≠ [] := by
  have hfold (l : List UInt16) : a ∈ l.foldr insertAddress [] ↔ a ∈ l := by
    induction l with
    | nil => rfl
    | cons b rest ih => rw [List.foldr_cons, mem_insertAddress, ih, List.mem_cons]
  rw [breakpoints, hfold, List.mem_filterMap, callbacks, ne_eq, List.map_eq_nil_iff, List.filter_eq_nil_iff]
  simp only [decide_eq_true_eq, not_forall, not_not, exists_prop]
  refine exists_congr fun e => and_congr_right fun _ => ?_
  cases e.1 <;> simp [Slot.breakpoint?]

end Registry

end Micro8051
