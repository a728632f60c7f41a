/-
What a registry holds for a slot while it changes. The callbacks of a slot wait in its list, or they
are in lists that were taken out. Together they are in the order of registration, with the list taken
out first in front: taking out and putting back move callbacks between the two, registering adds one
at the end, and clearing reaches only those that wait.
-/
import Mathlib.Data.List.Basic
import Micro8051.Machine.Registry

namespace Micro8051

variable {κ : Type}

namespace Registry

/-! ## Changes -/

/-- A change of a registry. -/
inductive Change (κ : Type) where
  | keep
  | add (s : Slot) (c : κ)
  | enter (s : Slot)
  | leave
  | clearHooks
  | clearBreakpoints
  deriving DecidableEq

/-- The registry after a change. -/
def changed (g : Registry κ) : Change κ → Registry κ
  | .keep => g
  | .add s c => g.add s c
  | .enter s => g.enter s
  | .leave => g.leave
  | .clearHooks => g.clearHooks
  | .clearBreakpoints => g.clearBreakpoints

namespace Change

/-- Whether the change removes the callbacks that wait in a slot. -/
def clears (t : Slot) : Change κ → Bool
  | .clearHooks => t.isHook
  | .clearBreakpoints => !t.isHook
  | _ => false

/-- What the change registers in a slot. -/
def added (t : Slot) : Change κ → List κ
  | .add s c => if t = s then [c] else []
  | _ => []

theorem mem_added {t : Slot} {c : κ} {ch : Change κ} (h : c ∈ ch.added t) : ch = .add t c := by
  cases ch with
  | add s c' =>
    rw [added] at h
    split at h
    · rename_i he
      rw [List.mem_singleton.1 h, he]
    · cases h
  | _ => cases h

end Change

/-- A list that is taken out and put back is where it was. -/
theorem callbacks_leave_enter (g : Registry κ) (s t : Slot) : (g.enter s).leave.callbacks t = g.callbacks t := by
  rw [callbacks_leave _ (rfl : (g.enter s).running = (s, g.callbacks s) :: g.running), callbacks_enter]
  split
  · rename_i h
    rw [h, List.append_nil]
  · rfl

/-! ## The callbacks of a slot -/

/-- The callbacks of a slot that are taken out, in the order of registration. -/
def takenOut (g : Registry κ) (t : Slot) : List κ :=
  (g.running.reverse.filter fun e => e.1 = t).flatMap Prod.snd

/-- The callbacks of a slot, those that are taken out and those that wait. -/
def held (g : Registry κ) (t : Slot) : List κ := g.takenOut t ++ g.callbacks t

@[simp] theorem takenOut_add (g : Registry κ) (s t : Slot) (c : κ) :
    (g.add s c).takenOut t = g.takenOut t := rfl

@[simp] theorem takenOut_clearHooks (g : Registry κ) (t : Slot) :
    g.clearHooks.takenOut t = g.takenOut t := rfl

@[simp] theorem takenOut_clearBreakpoints (g : Registry κ) (t : Slot) :
    g.clearBreakpoints.takenOut t = g.takenOut t := rfl

theorem takenOut_eq_nil {g : Registry κ} (h : g.running = []) (t : Slot) : g.takenOut t = [] := by
  rw [takenOut, h]
  rfl

theorem takenOut_of_cons {g : Registry κ} {s : Slot} {cs : List κ} {rest : List (Slot × List κ)}
    (h : g.running = (s, cs) :: rest) (t : Slot) :
    g.takenOut t = (rest.reverse.filter fun e => e.1 = t).flatMap Prod.snd ++ if t = s then cs else [] := by
  rw [takenOut, h, List.reverse_cons, List.filter_append, List.flatMap_append]
  congr 1
  by_cases e : t = s
  · subst e; simp
  · have : ¬ s = t := fun e' => e e'.symm
    simp [e, this]

/-- The callbacks of a slot that is run are all at the end of the ones taken out. -/
theorem takenOut_enter (g : Registry κ) (s t : Slot) :
    (g.enter s).takenOut t = g.takenOut t ++ if t = s then g.callbacks s else [] :=
  takenOut_of_cons rfl t

theorem takenOut_leave (g : Registry κ) {s : Slot} {cs : List κ} {rest : List (Slot × List κ)}
    (h : g.running = (s, cs) :: rest) (t : Slot) :
    g.takenOut t = g.leave.takenOut t ++ if t = s then cs else [] := by
  rw [takenOut_of_cons h t]
  simp only [takenOut, leave, h]

theorem held_add (g : Registry κ) (s t : Slot) (c : κ) :
    (g.add s c).held t = g.held t ++ if t = s then [c] else [] := by
  rw [held, held, callbacks_add, takenOut_add]
  split
  · rw [List.append_assoc]
  · rw [List.append_nil]

theorem held_enter (g : Registry κ) (s t : Slot) : (g.enter s).held t = g.held t := by
  rw [held, held, callbacks_enter, takenOut_enter]
  split
  · rename_i h
    rw [h, List.append_nil]
  · rw [List.append_nil]

theorem held_leave (g : Registry κ) (t : Slot) : g.leave.held t = g.held t := by
  cases h : g.running with
  | nil => simp only [leave, h]
  | cons e rest =>
    obtain ⟨s, cs⟩ := e
    rw [held, held, callbacks_leave g h, takenOut_leave g h]
    split
    · rw [List.append_assoc]
    · rw [List.append_nil]

theorem held_clearHooks (g : Registry κ) (t : Slot) :
    g.clearHooks.held t = if t.isHook then g.takenOut t else g.held t := by
  rw [held, callbacks_clearHooks, takenOut_clearHooks, held]
  split
  · rw [List.append_nil]
  · rfl

theorem held_clearBreakpoints (g : Registry κ) (t : Slot) :
    g.clearBreakpoints.held t = if t.isHook then g.held t else g.takenOut t := by
  rw [held, callbacks_clearBreakpoints, takenOut_clearBreakpoints, held]
  split
  · rfl
  · rw [List.append_nil]

/-- A change that does not clear a slot adds what it registers there, at the end. -/
theorem held_changed {g : Registry κ} {ch : Change κ} {t : Slot} (h : ch.clears t = false) :
    (g.changed ch).held t = g.held t ++ ch.added t := by
  cases ch with
  | add s c => exact held_add g s t c
  | keep => exact (List.append_nil _).symm
  | enter s => exact (held_enter g s t).trans (List.append_nil _).symm
  | leave => exact (held_leave g t).trans (List.append_nil _).symm
  | clearHooks =>
    rw [changed, held_clearHooks, if_neg (by simpa [Change.clears] using h)]
    exact (List.append_nil _).symm
  | clearBreakpoints =>
    rw [changed, held_clearBreakpoints, if_pos (by simpa [Change.clears] using h)]
    exact (List.append_nil _).symm

/-- Clearing a slot leaves the callbacks that are taken out. -/
theorem held_changed_of_clears {g : Registry κ} {ch : Change κ} {t : Slot} (h : ch.clears t = true) :
    (g.changed ch).held t = g.takenOut t := by
  cases ch with
  | clearHooks => exact (held_clearHooks g t).trans (if_pos h)
  | clearBreakpoints =>
    refine (held_clearBreakpoints g t).trans (if_neg ?_)
    simpa [Change.clears] using h
  | _ => cases h

/-- After a change a slot holds no more than before, and what the change registers there. -/
theorem held_changed_sublist (g : Registry κ) (ch : Change κ) (t : Slot) :
    ((g.changed ch).held t).Sublist (g.held t ++ ch.added t) := by
  cases h : ch.clears t with
  | false => rw [held_changed h]
  | true =>
    rw [held_changed_of_clears h]
    exact (List.sublist_append_left _ _).trans (List.sublist_append_left _ _)

/-! ## Lists taken out before -/

/-- The registry `g` where the lists `outer` had been taken out before. -/
def onto (g : Registry κ) (outer : List (Slot × List κ)) : Registry κ := ⟨g.waiting, g.running ++ outer⟩

@[simp] theorem callbacks_onto (g : Registry κ) (outer : List (Slot × List κ)) (t : Slot) :
    (g.onto outer).callbacks t = g.callbacks t := rfl

/-- Lists that had been taken out before stay out, unless one of them is put back. -/
theorem changed_onto {g : Registry κ} {ch : Change κ} (outer : List (Slot × List κ))
    (h : ch = .leave → g.running ≠ []) : (g.onto outer).changed ch = (g.changed ch).onto outer := by
  cases ch with
  | leave =>
    obtain ⟨e, rest, hrun⟩ := List.exists_cons_of_ne_nil (h rfl)
    simp only [changed, leave, onto, hrun, List.cons_append]
  | _ => rfl

/-! ## Sequences of changes -/

/-- What the first `n` of some changes register in a slot. -/
def added (ch : Nat → Change κ) (t : Slot) : Nat → List κ
  | 0 => []
  | n + 1 => added ch t n ++ (ch n).added t

section Sequence

variable {g : Nat → Registry κ} {ch : Nat → Change κ} {t : Slot} {n : Nat}

/-- As long as a slot is not cleared, it holds what it held at first and what was registered
since. -/
theorem held_of_changes (hg : ∀ k < n, g (k + 1) = (g k).changed (ch k))
    (hclear : ∀ k < n, (ch k).clears t = false) : (g n).held t = (g 0).held t ++ added ch t n := by
  induction n with
  | zero => exact (List.append_nil _).symm
  | succ n ih =>
    have := ih (fun k hk => hg k (by omega)) fun k hk => hclear k (by omega)
    rw [hg n (by omega), held_changed (hclear n (by omega)), this, added, List.append_assoc]

/-- Whatever a slot holds it held at first, or it was registered since. -/
theorem mem_held_of_changes (hg : ∀ k < n, g (k + 1) = (g k).changed (ch k)) {c : κ} (hc : c ∈ (g n).held t) :
    c ∈ (g 0).held t ∨ ∃ k < n, ch k = .add t c := by
  induction n with
  | zero => exact .inl hc
  | succ n ih =>
    have hstep : c ∈ (g n).held t ∨ ch n = .add t c := by
      rw [hg n (by omega)] at hc
      cases hcl : (ch n).clears t with
      | false =>
        rw [held_changed hcl, List.mem_append] at hc
        exact hc.imp id Change.mem_added
      | true =>
        rw [held_changed_of_clears hcl] at hc
        exact .inl (List.mem_append_left _ hc)
    rcases hstep with hc | hc
    · rcases ih (fun k hk => hg k (by omega)) hc with h | ⟨k, hk, h⟩
      · exact .inl h
      · exact .inr ⟨k, by omega, h⟩
    · exact .inr ⟨n, by omega, hc⟩

end Sequence

end Registry

end Micro8051
