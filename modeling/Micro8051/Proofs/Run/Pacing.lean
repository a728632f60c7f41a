/-
Pacing does not matter. A paced run and an unpaced run without a condition take the same steps and
come to the same result, whatever signals paced runs receive, and requests made before a run do not
matter either.

Signals change how often a run waits, and the source of the interrupt that waits. Scripts see neither,
so all that calls answer under one schedule they also answer under another (`answer_matched`), by
induction on the bound. A round that receives an interrupt takes no step; as ticks never cease, such
rounds are followed by a step sooner or later (`afterSkips_step`).
-/
import Micro8051.Proofs.Run.Course

namespace Micro8051

variable {κ σ α : Type}

/-- The environment with other signals. -/
def Environment.under (env : Environment κ σ) (p : Schedule) : Environment κ σ := { env with schedule := p }

/-- The condition of a run. -/
def Mode.guard : Mode κ → Guard κ
  | .paced => .always
  | .unpaced g => g

variable {env : Environment κ σ} {p p' : Schedule} {m m' : Mode κ} {b b' b₁ b₂ : Bench κ σ}

/-! ## What can not be seen -/

theorem seen_apply (a : Act κ σ) (h : b.seen = b'.seen) : (a.apply b).seen = (a.apply b').seen := by
  obtain ⟨hm, hw⟩ := seen_eq.1 h
  cases a <;> simp [Act.apply, Bench.seen, hm, hw]

theorem seen_dropStop (h : b.seen = b'.seen) : b.dropStop.seen = b'.dropStop.seen :=
  seen_apply (.edit fun c => c.onPacer Pacer.dropStop) h

theorem stopPending_congr (h : b.seen = b'.seen) : b.stopPending = b'.stopPending := by
  rw [Bench.stopPending, (seen_eq.1 h).1, ← Bench.stopPending]

/-! ## Rounds -/

theorem seen_of_skip {answers : Answers κ σ} (h : turnOn answers env m b = some (.skip, b₁)) : b₁.seen = b.seen := by
  rcases em (b.stopPending = true) with hp | hp
  · unfold turnOn at h
    rw [if_pos hp] at h
    cases h
  · cases m with
    | paced =>
      obtain ⟨b₂, hw, -⟩ | ⟨source, b₂, hw, hs, -⟩ := wait_cases env.schedule hp
      · rw [turnOn_of_tick hp hw] at h
        cases h
      · rw [turnOn_of_interrupt hp hw] at h
        cases h
        exact hs
    | unpaced g =>
      unfold turnOn at h
      rw [if_neg hp] at h
      simp only at h
      split at h <;> cases h

/-- A paced run takes a step sooner or later, after the interrupts before the next tick. -/
theorem afterSkips_paced (k : Nat) (hp : ¬ b.stopPending) (hk : env.schedule.signal (b.waits + k) = .tick) :
    ∃ b₁, AfterSkips (Turned env .paced) b .step b₁ ∧ b₁.seen = b.seen := by
  induction k generalizing b with
  | zero =>
    obtain ⟨b₁, hw, hs⟩ | ⟨_, _, _, _, _, hne⟩ := wait_cases env.schedule hp
    · exact ⟨b₁, ⟨b, .refl, 0, turnOn_of_tick hp hw⟩, hs⟩
    · exact absurd hk hne
  | succ k ih =>
    obtain ⟨b₁, hw, hs⟩ | ⟨source, b₁, hw, hs, hn, -⟩ := wait_cases env.schedule hp
    · exact ⟨b₁, ⟨b, .refl, 0, turnOn_of_tick hp hw⟩, hs⟩
    · -- the interrupt is received and ignored; the next tick is now one wait nearer
      let b₁' := (Act.report (.interruptIgnored source)).apply b₁
      have ht : Turned env .paced b .skip b₁' := ⟨0, turnOn_of_interrupt hp hw⟩
      have hs' : b₁'.seen = b.seen := hs
      have hk' : env.schedule.signal (b₁'.waits + k) = .tick := by
        rw [show b₁'.waits = b.waits + 1 from hn, Nat.add_assoc, Nat.add_comm 1 k]
        exact hk
      obtain ⟨b₂, ⟨b₀, hskips, hstep⟩, hs₂⟩ := ih (by rwa [stopPending_congr hs']) hk'
      exact ⟨b₂, ⟨b₀, .head ht hskips, hstep⟩, hs₂.trans hs'⟩

theorem afterSkips_step (env : Environment κ σ) (hm : m.guard = .always) (hp : ¬ b.stopPending) :
    ∃ b₁, AfterSkips (Turned env m) b .step b₁ ∧ b₁.seen = b.seen := by
  cases m with
  | paced =>
    obtain ⟨k, hk⟩ := env.schedule.ticks b.waits
    exact afterSkips_paced k hp hk
  | unpaced g =>
    obtain rfl : g = .always := hm
    exact ⟨b, ⟨b, .refl, turned_unpaced hp (v := true) ⟨0, rfl⟩⟩, rfl⟩

/-! ## Answers under another schedule -/

theorem Callback.respond_under (o : Occasion) (c : Callback κ) :
    c.respond (env.under p) o = c.respond env o := by
  cases c <;> rfl

theorem Guard.holds_under (g : Guard κ) : g.holds (env.under p) = g.holds env := by
  cases g <;> rfl

/-- Whatever `answers` answers, calls come to in `env` as well, but for what can not be seen. -/
def Answers.MatchedIn (answers : Answers κ σ) (env : Environment κ σ) : Prop :=
  ∀ (c : Call κ) (b b' : Bench κ σ) (r : c.Answer × Bench κ σ), answers c b = some r → b.seen = b'.seen →
    ∃ b₁', (Script.ask c).Yields env b' r.1 b₁' ∧ r.2.seen = b₁'.seen

namespace Answers.MatchedIn

variable {answers : Answers κ σ}

theorem runWith (h : answers.MatchedIn env) {s : Script κ σ α} {a : α} (hs : s.runWith answers b = some (a, b₁))
    (hb : b.seen = b'.seen) : ∃ b₁', s.Yields env b' a b₁' ∧ b₁.seen = b₁'.seen := by
  induction s generalizing b b' with
  | done a =>
    cases hs
    exact ⟨b', ⟨0, rfl⟩, hb⟩
  | look next ih =>
    obtain ⟨b₁', hy, hb₁⟩ := ih _ _ hs hb
    rw [(seen_eq.1 hb).1, (seen_eq.1 hb).2] at hy
    exact ⟨b₁', hy, hb₁⟩
  | act a next ih => exact ih hs (seen_apply a hb)
  | call c next ih =>
    rw [Script.runWith] at hs
    cases hc : answers c b with
    | none => rw [hc] at hs; cases hs
    | some x =>
      rw [hc] at hs
      obtain ⟨b₂', hy, hb₂⟩ := h c b b' x hc hb
      obtain ⟨b₁', hy', hb₁⟩ := ih x.1 hs hb₂
      exact ⟨b₁', Script.yields_bind.2 ⟨x.1, b₂', hy, hy'⟩, hb₁⟩

theorem tellAll (h : answers.MatchedIn (env.under p)) {o : Occasion} {cs : List (Callback κ)}
    (ht : tellAll answers env o cs b = some b₁) (hb : b.seen = b'.seen) :
    ∃ b₁', Told (env.under p) o cs b' b₁' ∧ b₁.seen = b₁'.seen := by
  induction cs generalizing b b' with
  | nil =>
    cases ht
    exact ⟨b', told_nil.2 rfl, hb⟩
  | cons c cs ih =>
    rw [Micro8051.tellAll] at ht
    cases hc : (c.respond env o).runWith answers b with
    | none => rw [hc] at ht; cases ht
    | some x =>
      rw [hc] at ht
      obtain ⟨b₂', hy, hb₂⟩ := h.runWith hc hb
      obtain ⟨b₁', hy', hb₁⟩ := ih ht hb₂
      rw [← Callback.respond_under (p := p)] at hy
      exact ⟨b₁', told_cons.2 ⟨b₂', hy, hy'⟩, hb₁⟩

theorem serveOn (h : answers.MatchedIn (env.under p)) {o : Occasion} (hs : serveOn answers env o b = some b₁)
    (hb : b.seen = b'.seen) : ∃ b₁', (Script.serve o).Yields (env.under p) b' () b₁' ∧ b₁.seen = b₁'.seen := by
  obtain ⟨hm, hw⟩ := seen_eq.1 hb
  unfold Micro8051.serveOn at hs
  split at hs
  · rename_i hc
    cases hs
    rw [hm] at hc
    exact ⟨b', Script.yields_serve_of_nil hc, hb⟩
  · rename_i hc
    cases ht : Micro8051.tellAll answers env o (b.machine.registry.callbacks o.slot)
        { b with machine := b.machine.onRegistry fun g => g.enter o.slot } with
    | none => simp only [ht] at hs; cases hs
    | some b₂ =>
      simp only [ht] at hs
      cases hs
      have hb' : { b with machine := b.machine.onRegistry fun g => g.enter o.slot : Bench κ σ }.seen =
          { b' with machine := b'.machine.onRegistry fun g => g.enter o.slot : Bench κ σ }.seen :=
        seen_eq.2 ⟨by rw [hm], hw⟩
      obtain ⟨b₂', hy, hb₂⟩ := h.tellAll ht hb'
      rw [hm] at hc hy
      obtain ⟨hm₂, hw₂⟩ := seen_eq.1 hb₂
      exact ⟨_, Script.yields_serve_of_told hc hy, seen_eq.2 ⟨by rw [hm₂], hw₂⟩⟩

/-- A round with a step, or the end of a run, is matched by a run with the same condition, paced or
not, after rounds that it skips. -/
theorem turnOn (h : answers.MatchedIn (env.under p)) (hg : m.guard = m'.guard) {t : Turn}
    (ht : turnOn answers env m b = some (t, b₁)) (hne : t ≠ .skip) (hb : b.seen = b'.seen) :
    ∃ b₁', AfterSkips (Turned (env.under p) m') b' t b₁' ∧ b₁.seen = b₁'.seen := by
  have hpending := stopPending_congr hb
  rcases em (b.stopPending = true) with hp | hp
  · unfold Micro8051.turnOn at ht
    rw [if_pos hp] at ht
    cases ht
    rw [hpending] at hp
    exact ⟨b'.dropStop, ⟨b', .refl, turned_finish hp⟩, seen_dropStop hb⟩
  · have hp' : ¬ b'.stopPending := hpending ▸ hp
    cases m with
    | paced =>
      obtain ⟨b₂, hw, hs⟩ | ⟨source, b₂, hw, -⟩ := wait_cases env.schedule hp
      · rw [turnOn_of_tick hp hw] at ht
        cases ht
        obtain ⟨b₁', hstep, hs'⟩ := afterSkips_step (env.under p) hg.symm hp'
        exact ⟨b₁', hstep, (hs.trans hb).trans hs'.symm⟩
      · rw [turnOn_of_interrupt hp hw] at ht
        cases ht
        exact absurd rfl hne
    | unpaced g =>
      cases hv : (g.holds env).runWith answers b with
      | none =>
        unfold Micro8051.turnOn at ht
        rw [if_neg hp] at ht
        simp only [hv] at ht
        cases ht
      | some x =>
        obtain ⟨v, b₂⟩ := x
        rw [turnOn_of_holds hp hv] at ht
        cases m' with
        | paced =>
          -- the condition always holds, and the other run comes to its next tick
          obtain rfl : g = .always := hg
          cases hv
          cases ht
          obtain ⟨b₁', hstep, hs'⟩ := afterSkips_step (env.under p) (m := .paced) rfl hp'
          exact ⟨b₁', hstep, hb.trans hs'.symm⟩
        | unpaced g' =>
          obtain rfl : g = g' := hg
          obtain ⟨b₁', hy, hs⟩ := h.runWith hv hb
          rw [← Guard.holds_under (p := p)] at hy
          cases ht
          exact ⟨b₁', ⟨b', .refl, turned_unpaced hp' hy⟩, hs⟩

theorem roundsOn (h : answers.MatchedIn (env.under p)) (hg : m.guard = m'.guard) {n : Nat}
    {r : Except Fault Unit} (hr : roundsOn answers env m n b = some (r, b₁)) (hb : b.seen = b'.seen) :
    ∃ b₁', (Script.ask (.loop m')).Yields (env.under p) b' r b₁' ∧ b₁.seen = b₁'.seen := by
  obtain ⟨steps, hrounds⟩ := exists_rounds_of_roundsOn hr
  have hc' : Course (env.under p) m' b' (steps.map Bench.seen) (some (r, b₁.seen)) :=
    hrounds.course.simulate seen_of_skip (fun ht hne hb => h.turnOn hg ht hne hb) (fun hs hb => h.runWith hs hb) hb
  obtain ⟨b₁', hy, hs⟩ := hc'.yields_loop
  exact ⟨b₁', hy, hs.symm⟩

end Answers.MatchedIn

theorem answer_matched (env : Environment κ σ) (p : Schedule) (n : Nat) :
    (answer env n).MatchedIn (env.under p) := by
  -- calls nest, and those inside are answered under a smaller bound
  induction n with
  | zero => intro c b b' r hr hb; cases c <;> cases hr
  | succ n ih =>
    intro c b b' r hr hb
    cases c with
    | serve o =>
      rw [answer] at hr
      cases hs : serveOn (answer env n) env o b with
      | none => rw [hs] at hr; cases hr
      | some b₁ =>
        rw [hs] at hr
        cases hr
        exact ih.serveOn hs hb
    | loop m => exact ih.roundsOn rfl hr hb

/-- Scripts come to the same under any schedule. -/
theorem Script.Yields.under {s : Script κ σ α} {a : α} (h : s.Yields env b a b₁) (p : Schedule)
    (hb : b.seen = b'.seen) : ∃ b₁', s.Yields (env.under p) b' a b₁' ∧ b₁.seen = b₁'.seen := by
  obtain ⟨n, h⟩ := h
  exact (answer_matched env p n).runWith h hb

/-- Runs with the same condition have the same courses, paced or not, under any schedule. -/
theorem Course.under {steps : List (Machine κ × σ)} {o : Option (Except Fault Unit × Machine κ × σ)}
    (h : Course env m b steps o) (p : Schedule) (hg : m.guard = m'.guard) (hb : b.seen = b'.seen) :
    Course (env.under p) m' b' steps o := by
  refine CourseOf.simulate ?_ ?_ (fun hs hb => hs.under p hb) h hb
  · rintro b b₁ ⟨n, ht⟩
    exact seen_of_skip ht
  · rintro b t b₁ b' ⟨n, ht⟩ hne hb
    exact (answer_matched env p n).turnOn hg ht hne hb

theorem Course.congr {steps : List (Machine κ × σ)} {o : Option (Except Fault Unit × Machine κ × σ)}
    (hb : b.seen = b'.seen) : Course env m b steps o ↔ Course env m b' steps o :=
  ⟨fun h => h.under env.schedule rfl hb, fun h => h.under env.schedule rfl hb.symm⟩

theorem start_runsIn : Script.start.RunsIn env .paced b := by
  intro r v
  let b₀ := (Act.report (.started b.machine.chip.pc b.machine.chip.pacer.period)).apply b.dropRequests
  have hb : b.dropRequests.seen = b₀.seen := rfl
  rw [existsUnique_course]
  simp only [Course.congr hb]
  rw [← yields_loop_iff_course]
  constructor
  · rintro ⟨b', h, rfl⟩
    obtain ⟨b₁, hr, he⟩ := Script.yields_start.1 h
    refine ⟨b₁, hr, ?_⟩
    cases r <;> cases he <;> rfl
  · rintro ⟨b₁, hr, rfl⟩
    cases r with
    | ok u => exact ⟨_, Script.yields_start.2 ⟨b₁, hr, rfl⟩, rfl⟩
    | error fault => exact ⟨_, Script.yields_start.2 ⟨b₁, hr, rfl⟩, rfl⟩

/-! ## Paced and unpaced runs -/

/-- The bench with other requests waiting: whether there is one to stop, and the source of the interrupt,
if there is one. -/
def Bench.withRequests (b : Bench κ σ) (stop : Bool) (source : Option UInt8) : Bench κ σ :=
  { b with
    machine := b.machine.onChip fun c => c.onPacer fun q => { q with stopPending := stop }
    interrupt := source }

/-- A paced run and an unpaced run without a condition agree, whatever callbacks do, whatever signals
end the waits of paced runs, and whatever requests wait before. Both have the same courses, so they take
the same steps, and for as long. They come to what their courses come to: one of them ends with a
result, a machine and a world exactly if the other does. -/
theorem start_agrees_with_unpacedRun (env : Environment κ σ) (p p' : Schedule) (b : Bench κ σ)
    (stop stop' : Bool) (source source' : Option UInt8) :
    Script.start.RunsIn (env.under p) .paced (b.withRequests stop source) ∧
    (Script.unpacedRun .always).RunsIn (env.under p') (.unpaced .always) (b.withRequests stop' source') ∧
    (∀ steps o, Course (env.under p) .paced (b.withRequests stop source).dropRequests steps o ↔
      Course (env.under p') (.unpaced .always) (b.withRequests stop' source').dropRequests steps o) ∧
    ∀ r v, (∃ b', Script.start.Yields (env.under p) (b.withRequests stop source) r b' ∧ b'.seen = v) ↔
      ∃ b', (Script.unpacedRun .always).Yields (env.under p') (b.withRequests stop' source') r b' ∧ b'.seen = v := by
  have hcourses : ∀ steps o, Course (env.under p) .paced (b.withRequests stop source).dropRequests steps o ↔
      Course (env.under p') (.unpaced .always) (b.withRequests stop' source').dropRequests steps o :=
    fun steps o => ⟨fun h => h.under p' rfl rfl, fun h => h.under p rfl rfl⟩
  refine ⟨start_runsIn, unpacedRun_runsIn .always, hcourses, fun r v => ?_⟩
  rw [start_runsIn r v, unpacedRun_runsIn .always r v]
  simp only [hcourses]

end Micro8051
