/-
Callbacks that only record what they are told of: they change nothing but the journal and a part of the
world that nobody else looks at.
-/
import Micro8051.Proofs.Bench.Yields

namespace Micro8051

variable {κ σ τ : Type} {env : Environment κ σ} {others : σ → τ}

/-- The callback only records: whatever it is told of, it comes to its end and changes nothing but the
journal and a part of the world that `others` does not show. -/
def Callback.Records (env : Environment κ σ) (others : σ → τ) (c : Callback κ) : Prop :=
  ∀ (o : Occasion) (b : Bench κ σ), ∃ w j,
    (c.respond env o).Yields env b () { b with world := w, journal := j } ∧ others w = others b.world

theorem Callback.latch_records (r : Sfr) : (Callback.latch r : Callback κ).Records env others := by
  intro o b
  cases o with
  | reading addr v => exact ⟨_, _, ⟨0, rfl⟩, rfl⟩
  | visiting pc => exact ⟨_, _, ⟨0, rfl⟩, rfl⟩
  | writing addr old new =>
    exact ⟨b.world, b.journal.add (.latchWrite b.machine.chip.pc r.name old new), ⟨0, rfl⟩, rfl⟩

/-- All callbacks record, if those do that are not the ones that trace the latches. -/
theorem Callback.records_of_custom (h : ∀ c, (Callback.custom c).Records env others) (c : Callback κ) :
    c.Records env others := by
  cases c with
  | latch r => exact latch_records r
  | custom c => exact h c

/-- Callbacks that keep what they are told of in the world. -/
def logging : Environment Unit (List Occasion) where
  respond _ o := Script.remember fun os => os ++ [o]
  holds _ := return true

theorem Callback.logging_records (c : Callback Unit) : c.Records logging fun _ => () :=
  records_of_custom (fun _ o b => ⟨b.world ++ [o], b.journal, ⟨0, rfl⟩, rfl⟩) c

theorem told_of_records {o : Occasion} {cs : List (Callback κ)} (h : ∀ c ∈ cs, c.Records env others)
    (b : Bench κ σ) : ∃ w j, Told env o cs b { b with world := w, journal := j } ∧ others w = others b.world := by
  induction cs generalizing b with
  | nil => exact ⟨b.world, b.journal, told_nil.2 rfl, rfl⟩
  | cons c cs ih =>
    rw [List.forall_mem_cons] at h
    obtain ⟨w₁, j₁, hy, hw₁⟩ := h.1 o b
    obtain ⟨w, j, ht, hw⟩ := ih h.2 { b with world := w₁, journal := j₁ }
    exact ⟨w, j, told_cons.2 ⟨_, hy, ht⟩, hw.trans hw₁⟩

end Micro8051
