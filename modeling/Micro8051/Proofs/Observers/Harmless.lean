/-
Hooks that do not change the machine. They may look at it, read its memory, remember and report what they
like, as long as they come to an end and leave the chip and the registry as they were. On a machine that
has no other hooks, instructions do to the chip what they do when nobody watches, and hooks are told of each
access to internal memory (`Script.passes_execute_of_harmless`).
-/
import Micro8051.Proofs.Bench.Occasions
import Micro8051.Proofs.Chip.Accesses
import Micro8051.Proofs.Observers.Records
import Micro8051.Proofs.Registry.Changes

namespace Micro8051

variable {κ σ τ α : Type} {env : Environment κ σ} {K : Slot → Callback κ → Prop} {b b' b₁ b₂ : Bench κ σ}

/-! ## Machines that do not change -/

/-- The machine is the same on `b'` as on `b`, up to the order in which the registry keeps the callbacks of
different slots. -/
structure Bench.Unchanged (b b' : Bench κ σ) : Prop where
  chip : b'.machine.chip = b.machine.chip
  callbacks : ∀ s, b'.machine.registry.callbacks s = b.machine.registry.callbacks s
  running : b'.machine.registry.running = b.machine.registry.running

namespace Bench.Unchanged

theorem refl (b : Bench κ σ) : b.Unchanged b := ⟨rfl, fun _ => rfl, rfl⟩

theorem trans (h : b.Unchanged b₁) (h' : b₁.Unchanged b₂) : b.Unchanged b₂ :=
  ⟨h'.chip.trans h.chip, fun s => (h'.callbacks s).trans (h.callbacks s), h'.running.trans h.running⟩

/-- What was taken out before is put back after: the machine is as before. -/
theorem leave {s : Slot} {b : Bench κ σ}
    (h : Unchanged { b with machine := b.machine.onRegistry fun g => g.enter s } b₁) :
    b.Unchanged { b₁ with machine := b₁.machine.onRegistry Registry.leave } := by
  have hrunning : b₁.machine.registry.running =
      (s, b.machine.registry.callbacks s) :: b.machine.registry.running := h.running
  refine ⟨h.chip, fun t => ?_, ?_⟩
  · have hcallbacks : b₁.machine.registry.callbacks t = (b.machine.registry.enter s).callbacks t := h.callbacks t
    calc b₁.machine.registry.leave.callbacks t
        = (b.machine.registry.enter s).leave.callbacks t := by
          rw [Registry.callbacks_leave _ hrunning, hcallbacks, Registry.callbacks_leave _ rfl]
      _ = b.machine.registry.callbacks t := Registry.callbacks_leave_enter b.machine.registry s t
  · change b₁.machine.registry.leave.running = _
    simp only [Registry.leave, hrunning]

end Bench.Unchanged

/-! ## Hooks that do not change the machine -/

/-- Only callbacks that `K` allows wait on the bench, each in a slot where `K` allows it. -/
def Bench.Admits (K : Slot → Callback κ → Prop) (b : Bench κ σ) : Prop :=
  ∀ s, ∀ c ∈ b.machine.registry.callbacks s, K s c

/-- No hook that `K` allows changes a machine on which `K` allows all callbacks. -/
def Harmless (env : Environment κ σ) (K : Slot → Callback κ → Prop) : Prop :=
  ∀ (o : Occasion) (c : Callback κ), o.slot.isHook → K o.slot c → ∀ b : Bench κ σ, b.Admits K →
    ∃ b', (c.respond env o).Yields env b () b' ∧ b.Unchanged b'

/-- Hooks that record change no machine. -/
theorem harmless_of_records {others : σ → τ} (h : ∀ s c, s.isHook → K s c → c.Records env others) :
    Harmless env K := by
  intro o c ho hc b _
  obtain ⟨w, j, hy, -⟩ := h o.slot c ho hc o b
  exact ⟨_, hy, rfl, fun _ => rfl, rfl⟩

/-- Where there are no hooks, none changes the machine. -/
theorem harmless_of_no_hooks : Harmless env fun s _ => s.isHook = false := by
  intro o c ho hc
  rw [ho] at hc
  cases hc

namespace Bench.Admits

theorem congr (hb : b.Admits K) (h : b.Unchanged b') : b'.Admits K :=
  fun s c hc => hb s c (h.callbacks s ▸ hc)

theorem enter (hb : b.Admits K) (s : Slot) :
    Admits K { b with machine := b.machine.onRegistry fun g => g.enter s } := by
  intro t c hc
  refine hb t c ?_
  change c ∈ (b.machine.registry.enter s).callbacks t at hc
  rw [Registry.callbacks_enter] at hc
  split at hc
  · cases hc
  · exact hc

theorem no_hooks : (b.Admits fun s _ => s.isHook = false) ↔
    ∀ s : Slot, s.isHook → b.machine.registry.callbacks s = [] := by
  constructor
  · intro h s hs
    refine List.eq_nil_iff_forall_not_mem.2 fun c hc => ?_
    rw [h s c hc] at hs
    cases hs
  · intro h s c hc
    by_contra hs
    rw [h s (by simpa using hs)] at hc
    cases hc

end Bench.Admits

namespace Harmless

variable {o : Occasion}

theorem told (h : Harmless env K) (ho : o.slot.isHook) {cs : List (Callback κ)} (hcs : ∀ c ∈ cs, K o.slot c)
    (hb : b.Admits K) : ∃ b', Told env o cs b b' ∧ b.Unchanged b' := by
  induction cs generalizing b with
  | nil => exact ⟨b, told_nil.2 rfl, .refl b⟩
  | cons c cs ih =>
    rw [List.forall_mem_cons] at hcs
    obtain ⟨b₁, hy, hu⟩ := h o c ho hcs.1 b hb
    obtain ⟨b', ht, hu'⟩ := ih hcs.2 (hb.congr hu)
    exact ⟨b', told_cons.2 ⟨b₁, hy, ht⟩, hu.trans hu'⟩

theorem serve (h : Harmless env K) (ho : o.slot.isHook) (hb : b.Admits K) :
    ∃ b', (Script.serve o).Yields env b () b' ∧ b.Unchanged b' := by
  rcases eq_or_ne (b.machine.registry.callbacks o.slot) [] with hc | hc
  · exact ⟨b, Script.yields_serve_of_nil hc, .refl b⟩
  · obtain ⟨b₁, ht, hu⟩ := h.told ho (hb o.slot) (hb.enter o.slot)
    exact ⟨_, Script.yields_serve_of_told hc ht, hu.leave⟩

end Harmless

/-! ## Instructions -/

/-- The access to internal memory that hooks are told of. -/
def Occasion.access? : Occasion → Option Access
  | reading addr v => some (.read addr v)
  | writing addr _ new => some (.store addr new)
  | visiting _ => none

namespace Script

/-- A program of bus cycles does what it does on the chip alone, and hooks are told of what it reads and
stores in internal memory. -/
theorem passes_ofCycles_of_harmless (h : Harmless env K) (hb : b.Admits K) (p : Cycles α) :
    ∃ os b', (ofCycles p).Passes env b os (p.onChip b.machine.chip).1 b' ∧
      os.filterMap Occasion.access? = (p.accesses b.machine.chip).filter Access.isInternal ∧
      b'.machine.chip = (p.onChip b.machine.chip).2 ∧ b'.Admits K := by
  induction p generalizing b with
  | done a => exact ⟨[], b, .done a b, rfl, rfl, hb⟩
  | read addr next ih =>
    obtain ⟨b₁, hs, hu⟩ := h.serve (o := .reading addr (b.machine.chip.data.get addr)) rfl hb
    obtain ⟨os, b', hp, hos, hc, hb'⟩ := ih (b.machine.chip.data.get addr) (hb.congr hu)
    rw [hu.chip] at hp hos hc
    have hread : (read addr).Passes env b _ (b.machine.chip.data.get addr) b₁ :=
      passes_chip.bind ((passes_serve hs).bind (.done _ _))
    exact ⟨_, b', hread.bind hp, congrArg _ hos, hc, hb'⟩
  | write addr v next ih =>
    obtain ⟨b₁, hs, hu⟩ := h.serve (o := .writing addr (b.machine.chip.data.get addr) v) rfl hb
    have hb₁ : b₁.Admits K := hb.congr hu
    have hchip : ((Act.edit fun c => c.setData addr v).apply b₁).machine.chip = b.machine.chip.setData addr v :=
      congrArg (Chip.setData · addr v) hu.chip
    obtain ⟨os, b', hp, hos, hc, hb'⟩ := ih (b := (Act.edit fun c => c.setData addr v).apply b₁) hb₁
    rw [hchip] at hp hos hc
    have hwrite : (write addr v).Passes env b _ () _ := passes_chip.bind ((passes_serve hs).bind passes_perform)
    exact ⟨_, b', hwrite.bind hp, congrArg _ hos, hc, hb'⟩
  | bank next ih =>
    obtain ⟨os, b', hp, hos, hc, hb'⟩ := ih b.machine.chip.bank hb
    exact ⟨_, b', passes_chip.bind hp, hos, hc, hb'⟩
  | readExternal addr next ih =>
    obtain ⟨os, b', hp, hos, hc, hb'⟩ := ih (b.machine.chip.xdata.get addr) hb
    exact ⟨_, b', passes_chip.bind hp, hos, hc, hb'⟩
  | writeExternal addr v next ih =>
    obtain ⟨os, b', hp, hos, hc, hb'⟩ := ih (b := (Act.edit fun c => c.setXdata addr v).apply b) hb
    exact ⟨_, b', passes_perform.bind hp, hos, hc, hb'⟩

/-- An instruction does what it does on the chip alone. -/
theorem passes_execute_of_harmless (h : Harmless env K) (hb : b.Admits K) (d : Decoded) :
    ∃ os b', (execute d).Passes env b os () b' ∧
      os.filterMap Occasion.access? = (d.cycles.accesses b.machine.chip).filter Access.isInternal ∧
      b'.machine.chip = b.machine.chip.execute d ∧ b'.Admits K := by
  obtain ⟨os, b₁, hp, hos, hc, hb₁⟩ := passes_ofCycles_of_harmless h hb d.cycles
  refine ⟨_, _, hp.bind passes_perform, ?_, ?_, hb₁⟩
  · rw [List.append_nil, hos]
  · exact congrArg (Chip.jump · (d.cycles.onChip b.machine.chip).1) hc

/-- Without hooks an instruction does what it does on the chip alone, and registers none. -/
theorem yields_execute_of_no_hooks (env : Environment κ σ)
    (h : ∀ s : Slot, s.isHook → b.machine.registry.callbacks s = []) (d : Decoded) :
    ∃ b', (execute d).Yields env b () b' ∧ b'.machine.chip = b.machine.chip.execute d ∧
      ∀ s : Slot, s.isHook → b'.machine.registry.callbacks s = [] := by
  have hharmless : Harmless env fun s _ => s.isHook = false := harmless_of_no_hooks
  obtain ⟨_, b', hp, -, hc, hb'⟩ := passes_execute_of_harmless hharmless (Bench.Admits.no_hooks.2 h) d
  exact ⟨b', hp.yields, hc, Bench.Admits.no_hooks.1 hb'⟩

end Script

end Micro8051
