/-
Outcomes without bounds. What a script yields is told by what its parts yield: in sequences, when
callbacks are told of an event, and round by round in runs. No bound occurs in these laws, as a bound
that is large enough for each part is large enough for all.
-/
import Mathlib.Tactic
import Micro8051.Bench.Outcome

namespace Micro8051

variable {κ σ α β : Type} {env : Environment κ σ} {b b' b₁ b₂ : Bench κ σ}

namespace Script

/-! ## Sequences -/

theorem yields_pure {a a' : α} : (pure a : Script κ σ α).Yields env b a' b' ↔ a = a' ∧ b = b' := by
  constructor
  · rintro ⟨n, h⟩
    rw [run, runWith_pure] at h
    cases h
    exact ⟨rfl, rfl⟩
  · rintro ⟨rfl, rfl⟩
    exact ⟨0, rfl⟩

theorem yields_bind {s : Script κ σ α} {k : α → Script κ σ β} {r : β} :
    (s >>= k).Yields env b r b' ↔ ∃ a b₁, s.Yields env b a b₁ ∧ (k a).Yields env b₁ r b' := by
  constructor
  · rintro ⟨n, h⟩
    rw [run, runWith_bind] at h
    obtain ⟨⟨a, b₁⟩, hs, hk⟩ := Option.bind_eq_some_iff.1 h
    exact ⟨a, b₁, ⟨n, hs⟩, n, hk⟩
  · rintro ⟨a, b₁, ⟨n, hs⟩, m, hk⟩
    -- the larger of the bounds of the two parts
    refine ⟨max n m, ?_⟩
    have hs' := run_mono env (Nat.le_max_left n m) hs
    rw [run] at hs'
    rw [run, runWith_bind, hs', Option.bind_some]
    exact run_mono env (Nat.le_max_right n m) hk

theorem yields_perform {a : Act κ σ} {u : Unit} : (perform a).Yields env b u b' ↔ a.apply b = b' := by
  constructor
  · rintro ⟨n, h⟩
    rw [run, runWith_perform] at h
    cases h
    rfl
  · rintro rfl
    exact ⟨0, rfl⟩

theorem yields_view {f : Machine κ → σ → α} {a : α} :
    (view f).Yields env b a b' ↔ f b.machine b.world = a ∧ b = b' := by
  constructor
  · rintro ⟨n, h⟩
    rw [run, runWith_view] at h
    cases h
    exact ⟨rfl, rfl⟩
  · rintro ⟨rfl, rfl⟩
    exact ⟨0, rfl⟩

theorem yields_chip {f : Chip → α} {a : α} :
    (chip f).Yields env b a b' ↔ f b.machine.chip = a ∧ b = b' :=
  yields_view (f := fun m _ => f m.chip)

theorem Yields.unique {s : Script κ σ α} {a a' : α} (h : s.Yields env b a b₁) (h' : s.Yields env b a' b₂) :
    a = a' ∧ b₁ = b₂ := by
  obtain ⟨n, h⟩ := h
  obtain ⟨m, h'⟩ := h'
  cases run_unique env h h'
  exact ⟨rfl, rfl⟩

/-! ## Events -/

theorem yields_ask {c : Call κ} {r : c.Answer} :
    (ask c).Yields env b r b' ↔ ∃ n, answer env n c b = some (r, b') := by
  unfold Yields run
  simp only [runWith_ask]

end Script

/-- The callbacks `cs`, told of an event one after the other, lead from `b` to `b'`. -/
def Told (env : Environment κ σ) (o : Occasion) (cs : List (Callback κ)) (b b' : Bench κ σ) : Prop :=
  ∃ n, tellAll (answer env n) env o cs b = some b'

theorem told_nil {o : Occasion} : Told env o [] b b' ↔ b = b' := by
  constructor
  · rintro ⟨n, h⟩
    cases h
    rfl
  · rintro rfl
    exact ⟨0, rfl⟩

theorem told_cons {o : Occasion} {c : Callback κ} {cs : List (Callback κ)} :
    Told env o (c :: cs) b b' ↔ ∃ b₁, (c.respond env o).Yields env b () b₁ ∧ Told env o cs b₁ b' := by
  constructor
  · rintro ⟨n, h⟩
    rw [tellAll] at h
    cases hc : (c.respond env o).runWith (answer env n) b with
    | none => rw [hc] at h; cases h
    | some r =>
      rw [hc] at h
      exact ⟨r.2, ⟨n, hc⟩, n, h⟩
  · rintro ⟨b₁, ⟨n, hc⟩, m, h⟩
    refine ⟨max n m, ?_⟩
    have hc' := Script.run_mono env (Nat.le_max_left n m) hc
    rw [Script.run] at hc'
    rw [tellAll, hc']
    exact (answer_extends env (Nat.le_max_right n m)).tellAll h

theorem told_append {o : Occasion} {cs cs' : List (Callback κ)} :
    Told env o (cs ++ cs') b b' ↔ ∃ b₁, Told env o cs b b₁ ∧ Told env o cs' b₁ b' := by
  induction cs generalizing b with
  | nil =>
    constructor
    · intro h
      exact ⟨b, told_nil.2 rfl, h⟩
    · rintro ⟨b₁, h, h'⟩
      obtain rfl := told_nil.1 h
      exact h'
  | cons c cs ih =>
    rw [List.cons_append, told_cons]
    constructor
    · rintro ⟨b₁, hc, h⟩
      obtain ⟨b₂, h, h'⟩ := ih.1 h
      exact ⟨b₂, told_cons.2 ⟨b₁, hc, h⟩, h'⟩
    · rintro ⟨b₂, h, h'⟩
      obtain ⟨b₁, hc, h⟩ := told_cons.1 h
      exact ⟨b₁, hc, ih.2 ⟨b₂, h, h'⟩⟩

theorem Script.yields_serve {o : Occasion} {u : Unit} :
    (serve o).Yields env b u b' ↔ ∃ n, serveOn (answer env n) env o b = some b' := by
  rw [serve, yields_ask]
  constructor
  · rintro ⟨n, h⟩
    cases n with
    | zero => cases h
    | succ n =>
      rw [answer] at h
      cases hs : serveOn (answer env n) env o b with
      | none => rw [hs] at h; cases h
      | some b₁ =>
        rw [hs] at h
        cases h
        exact ⟨n, hs⟩
  · rintro ⟨n, h⟩
    refine ⟨n + 1, ?_⟩
    rw [answer, h]

theorem Script.yields_serve_of_nil {o : Occasion} (hc : b.machine.registry.callbacks o.slot = []) :
    (serve o).Yields env b () b := by
  refine yields_serve.2 ⟨0, ?_⟩
  unfold serveOn
  simp only [hc]

theorem Script.yields_serve_of_told {o : Occasion} (hc : b.machine.registry.callbacks o.slot ≠ [])
    (h : Told env o (b.machine.registry.callbacks o.slot)
      { b with machine := b.machine.onRegistry fun g => g.enter o.slot } b₁) :
    (serve o).Yields env b () { b₁ with machine := b₁.machine.onRegistry Registry.leave } := by
  obtain ⟨n, h⟩ := h
  refine yields_serve.2 ⟨n, ?_⟩
  unfold serveOn
  split
  · exact absurd ‹_› hc
  · rw [h]

theorem Script.yields_visit_of_nil {pc : UInt16} (hc : b.machine.registry.callbacks (.visit pc) = []) :
    (visit pc).Yields env b () b := by
  have hcount : ¬ b.machine.registry.count (.visit pc) ≠ 0 := by
    rw [Registry.count, hc]
    exact fun hn => hn rfl
  unfold visit
  refine yields_bind.2 ⟨_, b, yields_view.2 ⟨rfl, rfl⟩, ?_⟩
  rw [if_neg hcount]
  exact yields_serve_of_nil (o := .visiting pc) hc

/-- Breakpoints are told of a visit after it is reported. -/
theorem Script.yields_visit_of_told {pc : UInt16} (hc : b.machine.registry.callbacks (.visit pc) ≠ [])
    (h : Told env (.visiting pc) (b.machine.registry.callbacks (.visit pc))
      { (Act.report (.visited pc (b.machine.registry.count (.visit pc)))).apply b with
        machine := b.machine.onRegistry fun g => g.enter (.visit pc) } b₁) :
    (visit pc).Yields env b () { b₁ with machine := b₁.machine.onRegistry Registry.leave } := by
  have hcount : b.machine.registry.count (.visit pc) ≠ 0 := by
    rw [Registry.count]
    exact fun hn => hc (List.length_eq_zero_iff.1 hn)
  unfold visit
  refine yields_bind.2 ⟨_, b, yields_view.2 ⟨rfl, rfl⟩, ?_⟩
  rw [if_pos hcount]
  refine yields_bind.2 ⟨(), _, yields_perform.2 rfl, ?_⟩
  exact yields_serve_of_told (o := .visiting pc)
    (b := (Act.report (.visited pc (b.machine.registry.count (.visit pc)))).apply b) hc h

/-! ## Steps -/

/-- A step without an instruction fails and leaves the bench as it is. -/
theorem Script.yields_step_of_fault {fault : Fault} (hf : fetch b.machine.chip.code b.machine.chip.pc = .error fault) :
    step.Yields env b (.error fault) b := by
  unfold step
  refine yields_bind.2 ⟨_, b, yields_chip.2 ⟨rfl, rfl⟩, yields_bind.2 ⟨_, b, yields_chip.2 ⟨hf, rfl⟩, ?_⟩⟩
  exact yields_pure.2 ⟨rfl, rfl⟩

/-- The breakpoints move the program counter, and the instruction is dropped. -/
theorem Script.yields_step_of_drop {d : Decoded} (hf : fetch b.machine.chip.code b.machine.chip.pc = .ok d)
    (hv : (visit b.machine.chip.pc).Yields env b () b₁) (hpc : b₁.machine.chip.pc ≠ b.machine.chip.pc) :
    step.Yields env b (.ok ())
      ((Act.report (.dropped b.machine.chip.pc d.row.mnemonic b₁.machine.chip.pc)).apply b₁) := by
  unfold step
  refine yields_bind.2 ⟨_, b, yields_chip.2 ⟨rfl, rfl⟩, yields_bind.2 ⟨_, b, yields_chip.2 ⟨hf, rfl⟩, ?_⟩⟩
  refine yields_bind.2 ⟨(), b₁, hv, yields_bind.2 ⟨_, b₁, yields_chip.2 ⟨rfl, rfl⟩, ?_⟩⟩
  rw [if_neg hpc]
  exact yields_bind.2 ⟨(), _, yields_perform.2 rfl, yields_pure.2 ⟨rfl, rfl⟩⟩

/-- The breakpoints leave the program counter, and the instruction is executed. -/
theorem Script.yields_step_of_execute {d : Decoded} (hf : fetch b.machine.chip.code b.machine.chip.pc = .ok d)
    (hv : (visit b.machine.chip.pc).Yields env b () b₁) (hpc : b₁.machine.chip.pc = b.machine.chip.pc)
    (he : (execute d).Yields env ((Act.report (.executing b.machine.chip.pc d.row.mnemonic)).apply b₁) () b₂) :
    step.Yields env b (.ok ()) ((Act.edit Chip.count).apply b₂) := by
  unfold step
  refine yields_bind.2 ⟨_, b, yields_chip.2 ⟨rfl, rfl⟩, yields_bind.2 ⟨_, b, yields_chip.2 ⟨hf, rfl⟩, ?_⟩⟩
  refine yields_bind.2 ⟨(), b₁, hv, yields_bind.2 ⟨_, b₁, yields_chip.2 ⟨rfl, rfl⟩, ?_⟩⟩
  rw [if_pos hpc]
  refine yields_bind.2 ⟨(), _, yields_perform.2 rfl, yields_bind.2 ⟨(), b₂, he, ?_⟩⟩
  exact yields_bind.2 ⟨(), _, yields_perform.2 rfl, yields_pure.2 ⟨rfl, rfl⟩⟩

/-! ## Rounds -/

/-- The round of a run that begins at `b` turns out as `t`, before its step if it takes one. -/
def Turned (env : Environment κ σ) (m : Mode κ) (b : Bench κ σ) (t : Turn) (b' : Bench κ σ) : Prop :=
  ∃ n, turnOn (answer env n) env m b = some (t, b')

theorem Script.yields_loop {m : Mode κ} {r : Except Fault Unit} :
    (ask (.loop m)).Yields env b r b' ↔ ∃ n, roundsOn (answer env n) env m n b = some (r, b') := by
  rw [yields_ask]
  constructor
  · rintro ⟨n, h⟩
    cases n with
    | zero => cases h
    | succ n => exact ⟨n, h⟩
  · rintro ⟨n, h⟩
    exact ⟨n + 1, h⟩

theorem yields_loop_of_finish {m : Mode κ} (h : Turned env m b .finish b₁) :
    (Script.ask (.loop m)).Yields env b (.ok ()) b₁ := by
  obtain ⟨n, h⟩ := h
  refine Script.yields_loop.2 ⟨n + 1, ?_⟩
  rw [roundsOn, (answer_extends env (Nat.le_succ n)).turnOn h]

theorem yields_loop_of_skip {m : Mode κ} {r : Except Fault Unit} (h : Turned env m b .skip b₁)
    (hr : (Script.ask (.loop m)).Yields env b₁ r b₂) : (Script.ask (.loop m)).Yields env b r b₂ := by
  obtain ⟨n, h⟩ := h
  obtain ⟨k, hr⟩ := Script.yields_loop.1 hr
  refine Script.yields_loop.2 ⟨max n k + 1, ?_⟩
  rw [roundsOn, (answer_extends env (by omega)).turnOn h]
  exact (answer_extends env (by omega)).roundsOn hr (by omega)

theorem yields_loop_of_fail {m : Mode κ} {fault : Fault} (h : Turned env m b .step b₁)
    (hs : Script.step.Yields env b₁ (.error fault) b₂) :
    (Script.ask (.loop m)).Yields env b (.error fault) b₂ := by
  obtain ⟨n, h⟩ := h
  obtain ⟨k, hs⟩ := hs
  refine Script.yields_loop.2 ⟨max n k + 1, ?_⟩
  rw [roundsOn, (answer_extends env (by omega)).turnOn h]
  have hs' := Script.run_mono env (show k ≤ max n k + 1 by omega) hs
  unfold Script.run at hs'
  simp only [hs']

theorem yields_loop_of_step {m : Mode κ} {r : Except Fault Unit} {u : Unit} {b₃ : Bench κ σ}
    (h : Turned env m b .step b₁) (hs : Script.step.Yields env b₁ (.ok u) b₂)
    (hr : (Script.ask (.loop m)).Yields env b₂ r b₃) : (Script.ask (.loop m)).Yields env b r b₃ := by
  obtain ⟨n, h⟩ := h
  obtain ⟨j, hs⟩ := hs
  obtain ⟨k, hr⟩ := Script.yields_loop.1 hr
  refine Script.yields_loop.2 ⟨max n (max j k) + 1, ?_⟩
  rw [roundsOn, (answer_extends env (by omega)).turnOn h]
  have hs' := Script.run_mono env (show j ≤ max n (max j k) + 1 by omega) hs
  unfold Script.run at hs'
  simp only [hs']
  exact (answer_extends env (by omega)).roundsOn hr (by omega)

theorem Turned.unique {m : Mode κ} {t t' : Turn} (h : Turned env m b t b₁) (h' : Turned env m b t' b₂) :
    t = t' ∧ b₁ = b₂ := by
  obtain ⟨n, h⟩ := h
  obtain ⟨k, h'⟩ := h'
  have e := (answer_extends env (Nat.le_max_left n k)).turnOn h
  rw [(answer_extends env (Nat.le_max_right n k)).turnOn h'] at e
  cases e
  exact ⟨rfl, rfl⟩

/-! ## Runs as a whole -/

/-- The bench without the requests that wait. -/
def Bench.dropRequests (b : Bench κ σ) : Bench κ σ := { b.dropStop with interrupt := none }

namespace Script

theorem yields_dropRequests {u : Unit} : dropRequests.Yields env b u b' ↔ b.dropRequests = b' := by
  unfold dropRequests edit
  simp only [yields_bind, yields_perform]
  constructor
  · rintro ⟨_, _, rfl, rfl⟩
    rfl
  · rintro rfl
    exact ⟨(), _, rfl, rfl⟩

/-- An unpaced run is its rounds, once the requests are dropped; a fault is reported. -/
theorem yields_unpacedRun {g : Guard κ} {r : Except Fault Unit} :
    (unpacedRun g).Yields env b r b' ↔
      ∃ b₁, (ask (.loop (.unpaced g))).Yields env b.dropRequests r b₁ ∧
        match r with
        | .ok _ => b₁ = b'
        | .error fault => (Act.report (.halted fault)).apply b₁ = b' := by
  unfold unpacedRun report
  simp only [yields_bind, yields_dropRequests]
  constructor
  · rintro ⟨_, _, rfl, x, b₁, hx, h⟩
    cases x with
    | ok u =>
      obtain ⟨rfl, rfl⟩ := yields_pure.1 h
      exact ⟨b₁, hx, rfl⟩
    | error fault =>
      obtain ⟨_, b₂, hr, h⟩ := yields_bind.1 h
      obtain ⟨rfl, rfl⟩ := yields_pure.1 h
      exact ⟨b₁, hx, yields_perform.1 hr⟩
  · rintro ⟨b₁, hx, h⟩
    refine ⟨(), _, rfl, r, b₁, hx, ?_⟩
    cases r with
    | ok u => exact yields_pure.2 ⟨rfl, h⟩
    | error fault => exact yields_bind.2 ⟨(), b', yields_perform.2 h, yields_pure.2 ⟨rfl, rfl⟩⟩

/-- A paced run is its rounds, once the requests are dropped; its beginning and its end are
reported. -/
theorem yields_start {r : Except Fault Unit} :
    start.Yields env b r b' ↔
      ∃ b₁, (ask (.loop .paced)).Yields env
        ((Act.report (.started b.machine.chip.pc b.machine.chip.pacer.period)).apply b.dropRequests) r b₁ ∧
        match r with
        | .ok _ => (Act.report (.stopped b₁.machine.chip.pc b₁.machine.chip.executed)).apply b₁ = b'
        | .error fault => (Act.report (.halted fault)).apply b₁ = b' := by
  unfold start report
  simp only [yields_bind, yields_dropRequests, yields_chip, yields_perform]
  constructor
  · rintro ⟨_, _, rfl, _, _, ⟨rfl, rfl⟩, _, _, ⟨rfl, rfl⟩, _, _, rfl, x, b₁, hx, h⟩
    cases x with
    | ok u =>
      simp only [yields_bind, yields_chip, yields_perform] at h
      obtain ⟨_, _, ⟨rfl, rfl⟩, _, _, ⟨rfl, rfl⟩, _, _, hr, h⟩ := h
      obtain ⟨rfl, rfl⟩ := yields_pure.1 h
      exact ⟨b₁, hx, hr⟩
    | error fault =>
      obtain ⟨_, b₂, hr, h⟩ := yields_bind.1 h
      obtain ⟨rfl, rfl⟩ := yields_pure.1 h
      exact ⟨b₁, hx, yields_perform.1 hr⟩
  · rintro ⟨b₁, hx, h⟩
    refine ⟨(), _, rfl, _, _, ⟨rfl, rfl⟩, _, _, ⟨rfl, rfl⟩, (), _, rfl, r, b₁, hx, ?_⟩
    cases r with
    | ok u =>
      simp only [yields_bind, yields_chip, yields_perform]
      exact ⟨_, _, ⟨rfl, rfl⟩, _, _, ⟨rfl, rfl⟩, (), b', h, yields_pure.2 ⟨rfl, rfl⟩⟩
    | error fault => exact yields_bind.2 ⟨(), b', yields_perform.2 h, yields_pure.2 ⟨rfl, rfl⟩⟩

end Script

end Micro8051
