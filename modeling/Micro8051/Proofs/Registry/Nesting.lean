/-
Slots that run within each other. A slot is empty while it runs, so without registrations no slot runs
within itself, and the slots that run are among those that had callbacks at first. How many slots have
callbacks is what becomes smaller whenever one of them is run.
-/
import Mathlib.Data.Finset.Card
import Mathlib.Data.List.Nodup
import Micro8051.Proofs.Registry.Changes

namespace Micro8051

variable {κ : Type} {g₀ g g' : Registry κ} {s t : Slot}

namespace Registry

theorem mem_callbacks {c : κ} : c ∈ g.callbacks s ↔ (s, c) ∈ g.waiting := by
  rw [callbacks, List.mem_map]
  constructor
  · rintro ⟨⟨t, d⟩, he, rfl⟩
    obtain ⟨hw, rfl⟩ : (t, d) ∈ g.waiting ∧ t = s := by simpa using he
    exact hw
  · intro h
    exact ⟨(s, c), List.mem_filter.2 ⟨h, decide_eq_true rfl⟩, rfl⟩

/-! ## Slots with callbacks -/

/-- The slots where callbacks wait. -/
def slots (g : Registry κ) : Finset Slot := (g.waiting.map Prod.fst).toFinset

theorem mem_slots : s ∈ g.slots ↔ g.callbacks s ≠ [] := by
  rw [slots, List.mem_toFinset, List.mem_map]
  constructor
  · rintro ⟨⟨t, c⟩, he, rfl⟩
    exact List.ne_nil_of_mem (mem_callbacks.2 he)
  · intro h
    obtain ⟨c, hc⟩ := List.exists_mem_of_ne_nil _ h
    exact ⟨(s, c), mem_callbacks.1 hc, rfl⟩

theorem slots_subset (h : g'.waiting ⊆ g.waiting) : g'.slots ⊆ g.slots := by
  intro s hs
  obtain ⟨e, he, rfl⟩ := List.mem_map.1 (List.mem_toFinset.1 hs)
  exact List.mem_toFinset.2 (List.mem_map.2 ⟨e, h he, rfl⟩)

theorem slots_enter (g : Registry κ) (s : Slot) : (g.enter s).slots = g.slots.erase s := by
  ext t
  rw [Finset.mem_erase, mem_slots, mem_slots, callbacks_enter]
  split
  · rename_i h
    exact ⟨fun hn => absurd rfl hn, fun hn => absurd h hn.1⟩
  · rename_i h
    exact ⟨fun hn => ⟨h, hn⟩, fun hn => hn.2⟩

/-- While a slot runs, fewer slots have callbacks. -/
theorem card_slots_enter (h : g.callbacks s ≠ []) : (g.enter s).slots.card < g.slots.card := by
  rw [slots_enter]
  exact Finset.card_erase_lt_of_mem (mem_slots.2 h)

theorem waiting_enter (g : Registry κ) (s : Slot) : (g.enter s).waiting ⊆ g.waiting := List.filter_sublist.subset

/-! ## Registries without registrations -/

/-- What waits in `g'` waits in `g`, and the same lists are taken out. -/
structure Within (g g' : Registry κ) : Prop where
  waiting : g'.waiting ⊆ g.waiting
  running : g'.running = g.running

namespace Within

theorem refl (g : Registry κ) : g.Within g := ⟨List.Subset.refl _, rfl⟩

theorem trans {g'' : Registry κ} (h : g.Within g') (h' : g'.Within g'') : g.Within g'' :=
  ⟨List.Subset.trans h'.waiting h.waiting, h'.running.trans h.running⟩

theorem clearHooks (h : g.Within g') : g.Within g'.clearHooks :=
  ⟨List.Subset.trans (List.filter_sublist.subset) h.waiting, h.running⟩

theorem clearBreakpoints (h : g.Within g') : g.Within g'.clearBreakpoints :=
  ⟨List.Subset.trans (List.filter_sublist.subset) h.waiting, h.running⟩

/-- A slot that has run without registrations is as it was, or it was cleared meanwhile. -/
theorem leave (h : (g.enter s).Within g') : g.Within g'.leave := by
  have hrun : g'.running = (s, g.callbacks s) :: g.running := h.running
  unfold Registry.leave
  simp only [hrun]
  refine ⟨?_, rfl⟩
  intro e he
  rcases List.mem_append.1 he with he | he
  · obtain ⟨c, hc, rfl⟩ := List.mem_map.1 he
    exact mem_callbacks.1 hc
  · exact waiting_enter g s (h.waiting he)

end Within

/-! ## Slots that run -/

/-- Slots of `g₀` run within each other, and nothing is registered meanwhile. -/
structure Nested (g₀ g : Registry κ) : Prop where
  waiting : g.waiting ⊆ g₀.waiting
  running : ∀ e ∈ g.running, ∀ c ∈ e.2, (e.1, c) ∈ g₀.waiting
  occupied : ∀ e ∈ g.running, e.2 ≠ []
  distinct : (g.running.map Prod.fst).Nodup
  empty : ∀ e ∈ g.running, g.callbacks e.1 = []

namespace Nested

theorem of_idle (h : g.running = []) : g.Nested g where
  waiting := List.Subset.refl _
  running := by simp [h]
  occupied := by simp [h]
  distinct := by simp [h]
  empty := by simp [h]

theorem enter (h : g₀.Nested g) (hs : g.callbacks s ≠ []) : g₀.Nested (g.enter s) where
  waiting := List.Subset.trans (waiting_enter g s) h.waiting
  running := List.forall_mem_cons.2 ⟨fun _ hc => h.waiting (mem_callbacks.1 hc), h.running⟩
  occupied := List.forall_mem_cons.2 ⟨hs, h.occupied⟩
  distinct := by
    refine List.nodup_cons.2 ⟨fun hmem => ?_, h.distinct⟩
    -- the slot that is run has callbacks, and those that run have none
    obtain ⟨e, he, rfl⟩ := List.mem_map.1 hmem
    exact hs (h.empty e he)
  empty := by
    intro e he
    rw [callbacks_enter]
    split
    · rfl
    · rename_i hne
      rcases List.mem_cons.1 he with rfl | he
      · exact absurd rfl hne
      · exact h.empty e he

theorem leave (h : g₀.Nested g) : g₀.Nested g.leave := by
  cases hrun : g.running with
  | nil =>
    have he : g.leave = g := by
      unfold Registry.leave
      simp only [hrun]
    rwa [he]
  | cons e rest =>
    obtain ⟨s, cs⟩ := e
    obtain ⟨hcs, hrunning⟩ := List.forall_mem_cons.1 (hrun ▸ h.running)
    obtain ⟨-, hoccupied⟩ := List.forall_mem_cons.1 (hrun ▸ h.occupied)
    obtain ⟨-, hempty⟩ := List.forall_mem_cons.1 (hrun ▸ h.empty)
    have hdistinct := h.distinct
    rw [hrun, List.map_cons, List.nodup_cons] at hdistinct
    have hrest : g.leave.running = rest := by
      unfold Registry.leave
      simp only [hrun]
    refine ⟨?_, by rwa [hrest], by rwa [hrest], by rw [hrest]; exact hdistinct.2, ?_⟩
    · unfold Registry.leave
      simp only [hrun]
      intro e he
      rcases List.mem_append.1 he with he | he
      · obtain ⟨c, hc, rfl⟩ := List.mem_map.1 he
        exact hcs c hc
      · exact h.waiting he
    · rw [hrest]
      intro e he
      rw [callbacks_leave g hrun, if_neg]
      · exact hempty e he
      · intro hs
        exact hdistinct.1 (List.mem_map.2 ⟨e, he, hs⟩)

theorem filter (h : g₀.Nested g) (hw : g'.waiting ⊆ g.waiting) (hr : g'.running = g.running) : g₀.Nested g' where
  waiting := List.Subset.trans hw h.waiting
  running := hr ▸ h.running
  occupied := hr ▸ h.occupied
  distinct := hr ▸ h.distinct
  empty := by
    intro e he
    rw [List.eq_nil_iff_forall_not_mem]
    intro c hc
    have hc' : c ∈ g.callbacks e.1 := mem_callbacks.2 (hw (mem_callbacks.1 hc))
    rw [h.empty e (hr ▸ he)] at hc'
    exact absurd hc' List.not_mem_nil

/-- Whatever does not register keeps the nesting, as long as only slots with callbacks are run. -/
theorem changed (h : g₀.Nested g) {ch : Change κ} (hadd : ∀ s c, ch ≠ .add s c)
    (henter : ∀ s, ch = .enter s → g.callbacks s ≠ []) : g₀.Nested (g.changed ch) := by
  cases ch with
  | keep => exact h
  | add s c => exact absurd rfl (hadd s c)
  | enter s => exact h.enter (henter s rfl)
  | leave => exact h.leave
  | clearHooks => exact h.filter (List.filter_sublist.subset) rfl
  | clearBreakpoints => exact h.filter (List.filter_sublist.subset) rfl

/-- No more slots run than had callbacks at first. -/
theorem length_running_le (h : g₀.Nested g) : g.running.length ≤ g₀.slots.card := by
  have hsub : (g.running.map Prod.fst).toFinset ⊆ g₀.slots := by
    intro s hs
    obtain ⟨e, he, rfl⟩ := List.mem_map.1 (List.mem_toFinset.1 hs)
    obtain ⟨c, hc⟩ := List.exists_mem_of_ne_nil _ (h.occupied e he)
    exact mem_slots.2 (List.ne_nil_of_mem (mem_callbacks.2 (h.running e he c hc)))
  calc g.running.length = (g.running.map Prod.fst).length := (List.length_map _).symm
    _ = (g.running.map Prod.fst).toFinset.card := (List.toFinset_card_of_nodup h.distinct).symm
    _ ≤ g₀.slots.card := Finset.card_le_card hsub

end Nested

end Registry

end Micro8051
