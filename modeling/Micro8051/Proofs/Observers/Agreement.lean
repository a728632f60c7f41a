/-
Benches that agree but for observers: the chip, the requests that wait and the part of the world that others
look at are the same, and so are the callbacks of each slot, once the observers are left out. Whatever the
machine or the other callbacks change, they change it on both benches alike.
-/
import Micro8051.Proofs.Observers.Alike
import Micro8051.Proofs.Observers.Records
import Micro8051.Proofs.Registry.Changes

namespace Micro8051

/-! ## Registries -/

namespace Registry

variable {κ : Type} {p : κ → Bool} {g g' : Registry κ}

/-- Two registries hold the same callbacks of the kind `p` in the same order, those that wait and those that
are taken out. -/
structure Agree (p : κ → Bool) (g g' : Registry κ) : Prop where
  waiting : ∀ s, (g.callbacks s).filter p = (g'.callbacks s).filter p
  running : List.Forall₂ (fun e e' => e.1 = e'.1 ∧ e.2.filter p = e'.2.filter p) g.running g'.running

namespace Agree

/-- Callbacks of other kinds may have been registered anywhere. -/
theorem of_waiting (hw : g.waiting.filter (fun e => p e.2) = g'.waiting.filter fun e => p e.2)
    (hr : g.running = g'.running) : g.Agree p g' := by
  have hslot (g : Registry κ) (s : Slot) : (g.callbacks s).filter p =
      ((g.waiting.filter fun e => p e.2).filter fun e => e.1 = s).map Prod.snd := by
    rw [callbacks, List.filter_map, List.filter_filter, List.filter_filter]
    exact congrArg _ (List.filter_congr fun e _ => Bool.and_comm _ _)
  refine ⟨fun s => by rw [hslot, hslot, hw], ?_⟩
  rw [hr]
  exact List.forall₂_same.2 fun e _ => ⟨rfl, rfl⟩

theorem symm (h : g.Agree p g') : g'.Agree p g :=
  ⟨fun s => (h.waiting s).symm, (List.Forall₂.imp (fun _ _ he => ⟨he.1.symm, he.2.symm⟩) h.running.flip)⟩

theorem leave (h : g.Agree p g') : g.leave.Agree p g'.leave := by
  obtain ⟨w, running⟩ := g
  obtain ⟨w', running'⟩ := g'
  obtain ⟨hw, hr⟩ := h
  cases hr with
  | nil => exact ⟨hw, .nil⟩
  | @cons e e' rest rest' he hr =>
    obtain ⟨s, cs⟩ := e
    obtain ⟨s', cs'⟩ := e'
    obtain ⟨rfl : s = s', hcs : cs.filter p = cs'.filter p⟩ := he
    refine ⟨fun t => ?_, hr⟩
    rw [callbacks_leave _ rfl, callbacks_leave _ rfl]
    split
    · rw [List.filter_append, List.filter_append, hcs]
      exact congrArg _ (hw t)
    · exact hw t

/-- The same change keeps the agreement. -/
theorem changed (h : g.Agree p g') (ch : Change κ) : (g.changed ch).Agree p (g'.changed ch) := by
  cases ch with
  | keep => exact h
  | leave => exact h.leave
  | add s c =>
    refine ⟨fun t => ?_, h.running⟩
    simp only [Registry.changed, callbacks_add]
    split
    · rw [List.filter_append, List.filter_append, h.waiting]
    · exact h.waiting t
  | enter s =>
    refine ⟨fun t => ?_, .cons ⟨rfl, h.waiting s⟩ h.running⟩
    simp only [Registry.changed, callbacks_enter]
    split
    · rfl
    · exact h.waiting t
  | clearHooks =>
    refine ⟨fun t => ?_, h.running⟩
    simp only [Registry.changed, callbacks_clearHooks]
    split
    · rfl
    · exact h.waiting t
  | clearBreakpoints =>
    refine ⟨fun t => ?_, h.running⟩
    simp only [Registry.changed, callbacks_clearBreakpoints]
    split
    · exact h.waiting t
    · rfl

/-- Taking a slot out and putting it back makes no difference. -/
theorem leave_enter (h : g.Agree p g') (s : Slot) : (g.enter s).leave.Agree p g' :=
  ⟨fun t => by rw [callbacks_leave_enter]; exact h.waiting t, h.running⟩

end Agree

end Registry

/-! ## Benches -/

variable {κ σ τ : Type} {others : σ → τ} {p : Callback κ → Bool} {b b' : Bench κ σ}

/-- Two benches agree but for callbacks that are not of the kind `p`, and for what only these look at. -/
structure Bench.Agree (others : σ → τ) (p : Callback κ → Bool) (b b' : Bench κ σ) : Prop where
  chip : b.machine.chip = b'.machine.chip
  registry : b.machine.registry.Agree p b'.machine.registry
  world : others b.world = others b'.world
  waits : b.waits = b'.waits
  interrupt : b.interrupt = b'.interrupt

namespace Bench.Agree

theorem symm (h : b.Agree others p b') : b'.Agree others p b :=
  ⟨h.chip.symm, h.registry.symm, h.world.symm, h.waits.symm, h.interrupt.symm⟩

/-- What is recorded makes no difference. -/
theorem recorded (h : b.Agree others p b') {w : σ} (hw : others w = others b.world) (j : Journal) :
    Agree others p { b with world := w, journal := j } b' :=
  ⟨h.chip, h.registry, hw.trans h.world, h.waits, h.interrupt⟩

theorem edit (h : b.Agree others p b') (f : Chip → Chip) :
    Agree others p { b with machine := b.machine.onChip f } { b' with machine := b'.machine.onChip f } :=
  ⟨congrArg f h.chip, h.registry, h.world, h.waits, h.interrupt⟩

theorem change (h : b.Agree others p b') (ch : Registry.Change (Callback κ)) :
    Agree others p { b with machine := b.machine.onRegistry fun g => g.changed ch }
      { b' with machine := b'.machine.onRegistry fun g => g.changed ch } :=
  ⟨h.chip, h.registry.changed ch, h.world, h.waits, h.interrupt⟩

theorem act (h : b.Agree others p b') {a a' : Act κ σ} (ha : a.Alike others a') :
    (a.apply b).Agree others p (a'.apply b') := by
  cases ha with
  | edit f => exact h.edit f
  | remember hf => exact ⟨h.chip, h.registry, hf _ _ h.world, h.waits, h.interrupt⟩
  | report r r' => exact ⟨h.chip, h.registry, h.world, h.waits, h.interrupt⟩
  | register s c => exact h.change (.add s (.custom c))
  | clearHooks => exact h.change .clearHooks
  | clearBreakpoints => exact h.change .clearBreakpoints
  | raise source =>
    refine ⟨h.chip, h.registry, h.world, h.waits, ?_⟩
    exact congrArg (fun i : Option UInt8 => some (i.getD source)) h.interrupt
  | dropInterrupt => exact ⟨h.chip, h.registry, h.world, h.waits, rfl⟩

theorem stopPending (h : b.Agree others p b') : b.stopPending = b'.stopPending :=
  congrArg (fun c : Chip => c.pacer.stopPending) h.chip

/-- A wait ends alike. -/
theorem wait (h : b.Agree others p b') (s : Schedule) :
    (b.wait s).1 = (b'.wait s).1 ∧ (b.wait s).2.Agree others p (b'.wait s).2 := by
  have hwoken : Agree others p { b with waits := b.waits + 1 } { b' with waits := b'.waits + 1 } :=
    ⟨h.chip, h.registry, h.world, congrArg (· + 1) h.waits, h.interrupt⟩
  unfold Bench.wait
  rw [show s.signal b.waits = s.signal b'.waits by rw [h.waits]]
  cases s.signal b'.waits with
  | tick => exact ⟨rfl, hwoken⟩
  | stop =>
    simp only [h.stopPending]
    split
    · exact ⟨rfl, hwoken.edit _⟩
    · exact ⟨rfl, hwoken⟩
  | interrupt source =>
    refine ⟨?_, hwoken.chip, hwoken.registry, hwoken.world, hwoken.waits, rfl⟩
    exact congrArg (fun i : Option UInt8 => Signal.interrupt (i.getD source)) h.interrupt

end Bench.Agree

end Micro8051
