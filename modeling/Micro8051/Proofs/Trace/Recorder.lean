/-
Recorders: callbacks that watch the writes to some cells of internal memory, leave the machine as it is
and keep a log of what they are told. On a machine without other callbacks a script acts on the chip as if
nobody watched, and what it writes to the cells is what it adds to the log.
-/
import Micro8051.Proofs.Bench.Yields
import Micro8051.Proofs.Chip.History
import Micro8051.Proofs.Registry.Changes

namespace Micro8051

variable {κ σ α : Type} {env : Environment κ σ} {W : UInt8 → Bool}

/-- Callbacks that record the writes to the cells `W`, and the log they keep on a bench. -/
structure Recorder (env : Environment κ σ) (W : UInt8 → Bool) where
  /-- The callback that watches a cell. -/
  callback : UInt8 → Callback κ
  log : Bench κ σ → List Event
  /-- Whether what the callbacks are told is kept. -/
  Ready : Bench κ σ → Prop
  records : ∀ {b : Bench κ σ} {a : UInt8} (old new : UInt8), Ready b → W a → ∃ b',
    ((callback a).respond env (.writing a old new)).Yields env b () b' ∧ b'.machine = b.machine ∧ Ready b' ∧
      log b' = log b ++ [⟨b.machine.chip.pc, a, old, new⟩]
  ready_machine : ∀ {b : Bench κ σ} (m : Machine κ), Ready b → Ready { b with machine := m }
  log_machine : ∀ (b : Bench κ σ) (m : Machine κ), log { b with machine := m } = log b
  ready_executing : ∀ {b : Bench κ σ} (pc : UInt16) (mnemonic : String), Ready b →
    Ready ((Act.report (.executing pc mnemonic)).apply b)
  log_executing : ∀ (b : Bench κ σ) (pc : UInt16) (mnemonic : String),
    log ((Act.report (.executing pc mnemonic)).apply b) = log b

namespace Recorder

variable (R : Recorder env W) {b b₁ b' : Bench κ σ} {c : Chip} {es es' : List Event}

/-- The recorder watches each of the cells, and there are no other callbacks. -/
structure Watches (b : Bench κ σ) : Prop where
  ready : R.Ready b
  writes : ∀ a, b.machine.registry.callbacks (.write a) = if W a then [R.callback a] else []
  reads : ∀ a, b.machine.registry.callbacks (.read a) = []
  visits : ∀ pc, b.machine.registry.callbacks (.visit pc) = []

/-- From `b` to `b'` the chip has become `c`, and the events `es` were recorded. -/
structure Records (b : Bench κ σ) (c : Chip) (es : List Event) (b' : Bench κ σ) : Prop where
  watches : R.Watches b'
  chip : b'.machine.chip = c
  log : R.log b' = R.log b ++ es

variable {R}

theorem Watches.congr (h : R.Watches b) (hr : R.Ready b')
    (hg : ∀ t, b'.machine.registry.callbacks t = b.machine.registry.callbacks t) : R.Watches b' :=
  ⟨hr, fun a => (hg _).trans (h.writes a), fun a => (hg _).trans (h.reads a), fun pc => (hg _).trans (h.visits pc)⟩

namespace Records

theorem refl (h : R.Watches b) : R.Records b b.machine.chip [] b :=
  ⟨h, rfl, (List.append_nil _).symm⟩

theorem trans {c₁ : Chip} (h : R.Records b c₁ es b₁) (h' : R.Records b₁ c es' b') :
    R.Records b c (es ++ es') b' :=
  ⟨h'.watches, h'.chip, by rw [h'.log, h.log, List.append_assoc]⟩

/-- A change of the chip, which no callback is told of. -/
theorem edit (h : R.Records b c es b') (f : Chip → Chip) :
    R.Records b (f c) es ((Act.edit f : Act κ σ).apply b') :=
  ⟨h.watches.congr (R.ready_machine _ h.watches.ready) fun _ => rfl, by rw [← h.chip]; rfl,
    (R.log_machine b' _).trans h.log⟩

theorem executing (h : R.Records b c es b') (pc : UInt16) (mnemonic : String) :
    R.Records b c es ((Act.report (.executing pc mnemonic)).apply b') :=
  ⟨h.watches.congr (R.ready_executing pc mnemonic h.watches.ready) fun _ => rfl, h.chip,
    (R.log_executing b' pc mnemonic).trans h.log⟩

end Records

end Recorder

namespace Script

variable {R : Recorder env W} {b : Bench κ σ}

open Recorder

theorem yields_read_watched (h : R.Watches b) (addr : UInt8) :
    (read addr).Yields env b (b.machine.chip.data.get addr) b := by
  unfold read
  refine yields_bind.2 ⟨_, b, yields_chip.2 ⟨rfl, rfl⟩, yields_bind.2 ⟨(), b, ?_, yields_pure.2 ⟨rfl, rfl⟩⟩⟩
  exact yields_serve_of_nil (h.reads addr)

/-- The callback of a cell that is watched records a write to it; nobody is told of a write to another. -/
theorem yields_serve_watched (h : R.Watches b) (addr old new : UInt8) :
    ∃ b', (serve (.writing addr old new)).Yields env b () b' ∧ R.Records b b.machine.chip
      (if W addr then [⟨b.machine.chip.pc, addr, old, new⟩] else []) b' := by
  have hw := h.writes addr
  split
  · rename_i hW
    rw [if_pos hW] at hw
    let entered := { b with machine := b.machine.onRegistry fun g => g.enter (.write addr) }
    obtain ⟨b₁, hy, hm, hr, hl⟩ := R.records (b := entered) old new (R.ready_machine _ h.ready) hW
    have ht : Told env (.writing addr old new) (b.machine.registry.callbacks (.write addr)) entered b₁ := by
      rw [hw]
      exact told_cons.2 ⟨b₁, hy, told_nil.2 rfl⟩
    refine ⟨_, yields_serve_of_told (o := .writing addr old new) (by rw [Occasion.slot, hw]; simp) ht,
      h.congr (R.ready_machine _ hr) fun t => ?_, ?_, ?_⟩
    · change b₁.machine.registry.leave.callbacks t = _
      rw [hm]
      exact Registry.callbacks_leave_enter _ _ t
    · change b₁.machine.chip = _
      rw [hm]
      rfl
    · rw [R.log_machine, hl, R.log_machine]
      rfl
  · rename_i hW
    rw [if_neg hW] at hw
    exact ⟨b, yields_serve_of_nil hw, .refl h⟩

theorem yields_write_watched (h : R.Watches b) (addr v : UInt8) :
    ∃ b', (write addr v).Yields env b () b' ∧ R.Records b (b.machine.chip.setData addr v)
      (if W addr then [⟨b.machine.chip.pc, addr, b.machine.chip.data.get addr, v⟩] else []) b' := by
  obtain ⟨b₁, hs, hr⟩ := yields_serve_watched h addr (b.machine.chip.data.get addr) v
  refine ⟨_, ?_, hr.edit fun c => c.setData addr v⟩
  unfold write
  exact yields_bind.2 ⟨_, b, yields_chip.2 ⟨rfl, rfl⟩, yields_bind.2 ⟨(), b₁, hs, yields_perform.2 rfl⟩⟩

/-- A program of bus cycles does what it does on the chip alone, and its writes are recorded. -/
theorem yields_ofCycles_watched (h : R.Watches b) (p : Cycles α) :
    ∃ b', (ofCycles p).Yields env b (p.onChip b.machine.chip).1 b' ∧
      R.Records b (p.onChip b.machine.chip).2 (p.events W b.machine.chip) b' := by
  induction p generalizing b with
  | done a => exact ⟨b, yields_pure.2 ⟨rfl, rfl⟩, .refl h⟩
  | read addr next ih =>
    obtain ⟨b', hy, hr⟩ := ih _ h
    exact ⟨b', yields_bind.2 ⟨_, b, yields_read_watched h addr, hy⟩, hr⟩
  | write addr v next ih =>
    obtain ⟨b₁, hy₁, hr₁⟩ := yields_write_watched h addr v
    obtain ⟨b', hy, hr⟩ := ih hr₁.watches
    rw [hr₁.chip] at hy hr
    exact ⟨b', yields_bind.2 ⟨(), b₁, hy₁, hy⟩, hr₁.trans hr⟩
  | bank next ih =>
    obtain ⟨b', hy, hr⟩ := ih _ h
    exact ⟨b', yields_bind.2 ⟨_, b, yields_chip.2 ⟨rfl, rfl⟩, hy⟩, hr⟩
  | readExternal addr next ih =>
    obtain ⟨b', hy, hr⟩ := ih _ h
    exact ⟨b', yields_bind.2 ⟨_, b, yields_chip.2 ⟨rfl, rfl⟩, hy⟩, hr⟩
  | writeExternal addr v next ih =>
    have he := (Records.refl h).edit fun c => c.setXdata addr v
    obtain ⟨b', hy, hr⟩ := ih he.watches
    exact ⟨b', yields_bind.2 ⟨(), _, yields_perform.2 rfl, hy⟩, he.trans hr⟩

theorem yields_execute_watched (h : R.Watches b) (d : Decoded) :
    ∃ b', (execute d).Yields env b () b' ∧
      R.Records b (b.machine.chip.execute d) (d.cycles.events W b.machine.chip) b' := by
  obtain ⟨b₁, hy, hr⟩ := yields_ofCycles_watched h d.cycles
  exact ⟨_, yields_bind.2 ⟨_, b₁, hy, yields_perform.2 rfl⟩, hr.edit fun c => c.jump (d.cycles.onChip b.machine.chip).1⟩

theorem yields_visit_watched (h : R.Watches b) (pc : UInt16) : (visit pc).Yields env b () b := by
  have hcount : b.machine.registry.count (.visit pc) = 0 := by
    rw [Registry.count, h.visits]
    rfl
  unfold visit
  refine yields_bind.2 ⟨0, b, yields_view.2 ⟨hcount, rfl⟩, ?_⟩
  exact yields_serve_of_nil (h.visits pc)

/-- A step executes the instruction at the program counter and records its writes. -/
theorem yields_step_watched (h : R.Watches b) {d : Decoded}
    (hf : fetch b.machine.chip.code b.machine.chip.pc = .ok d) :
    ∃ b', step.Yields env b (.ok ()) b' ∧
      R.Records b (b.machine.chip.execute d).count (d.cycles.events W b.machine.chip) b' := by
  have hr₀ := (Records.refl h).executing b.machine.chip.pc d.row.mnemonic
  obtain ⟨b₁, hy, hr⟩ := yields_execute_watched hr₀.watches d
  refine ⟨_, ?_, (hr₀.trans hr).edit Chip.count⟩
  unfold step
  refine yields_bind.2 ⟨_, b, yields_chip.2 ⟨rfl, rfl⟩, yields_bind.2 ⟨_, b, yields_chip.2 ⟨hf, rfl⟩, ?_⟩⟩
  refine yields_bind.2 ⟨(), b, yields_visit_watched h _, yields_bind.2 ⟨_, b, yields_chip.2 ⟨rfl, rfl⟩, ?_⟩⟩
  simp only [if_true]
  refine yields_bind.2 ⟨(), _, yields_perform.2 rfl, yields_bind.2 ⟨(), b₁, hy, ?_⟩⟩
  exact yields_bind.2 ⟨(), _, yields_perform.2 rfl, yields_pure.2 ⟨rfl, rfl⟩⟩

end Script

end Micro8051
