/-
The course of a run: what can be seen of the bench where each of its steps begins, and what the run
comes to. A course may break off, so a run that never ends has courses of any length. Courses leave
out the rounds without a step, and two runs whose rounds agree otherwise have the same courses
(`CourseOf.simulate`).
-/
import Micro8051.Proofs.Run.Rounds

namespace Micro8051

variable {κ σ : Type}

/-- What scripts can see of a bench: the machine and the world. -/
def Bench.seen (b : Bench κ σ) : Machine κ × σ := (b.machine, b.world)

theorem seen_eq {b b' : Bench κ σ} : b.seen = b'.seen ↔ b.machine = b'.machine ∧ b.world = b'.world :=
  Prod.mk_inj

/-! ## Rounds -/

section Rounds

variable {env : Environment κ σ} {m : Mode κ} {b b₁ : Bench κ σ} {answers : Answers κ σ}

/-- Without a request to stop, a wait ends with a tick or with an interrupt. -/
theorem wait_cases (p : Schedule) (hp : ¬ b.stopPending) :
    (∃ b₁, b.wait p = (.tick, b₁) ∧ b₁.seen = b.seen) ∨
      ∃ source b₁, b.wait p = (.interrupt source, b₁) ∧ b₁.seen = b.seen ∧ b₁.waits = b.waits + 1 ∧
        p.signal b.waits ≠ .tick := by
  unfold Bench.wait
  cases hs : p.signal b.waits with
  | tick => exact .inl ⟨_, rfl, rfl⟩
  | stop => exact .inl ⟨_, if_neg hp, rfl⟩
  | interrupt source => exact .inr ⟨_, _, rfl, rfl, rfl, by simp⟩

theorem turned_finish (hp : b.stopPending) : Turned env m b .finish b.dropStop := by
  refine ⟨0, ?_⟩
  unfold turnOn
  rw [if_pos hp]

theorem turnOn_of_holds {g : Guard κ} {v : Bool} (hp : ¬ b.stopPending)
    (h : (g.holds env).runWith answers b = some (v, b₁)) :
    turnOn answers env (.unpaced g) b = some (if v then .step else .finish, b₁) := by
  unfold turnOn
  rw [if_neg hp]
  simp only [h]
  cases v <;> rfl

theorem turnOn_of_tick (hp : ¬ b.stopPending) (hw : b.wait env.schedule = (.tick, b₁)) :
    turnOn answers env .paced b = some (.step, b₁) := by
  unfold turnOn
  rw [if_neg hp]
  simp only [hw]

theorem turnOn_of_interrupt {source : UInt8} (hp : ¬ b.stopPending)
    (hw : b.wait env.schedule = (.interrupt source, b₁)) :
    turnOn answers env .paced b = some (.skip, (Act.report (.interruptIgnored source)).apply b₁) := by
  unfold turnOn
  rw [if_neg hp]
  simp only [hw]

theorem turned_unpaced {g : Guard κ} {v : Bool} (hp : ¬ b.stopPending) (h : (g.holds env).Yields env b v b₁) :
    Turned env (.unpaced g) b (if v then .step else .finish) b₁ := by
  obtain ⟨n, h⟩ := h
  exact ⟨n, turnOn_of_holds hp h⟩

end Rounds

/-! ## Courses -/

/-- The courses of a run from a bench, by what `turned` says of the beginnings of its rounds and
`stepped` of its steps: what is seen where each step begins, and the result with what is seen at the
end, unless the course breaks off before. -/
inductive CourseOf (turned : Bench κ σ → Turn → Bench κ σ → Prop)
    (stepped : Bench κ σ → Except Fault Unit → Bench κ σ → Prop) :
    Bench κ σ → List (Machine κ × σ) → Option (Except Fault Unit × Machine κ × σ) → Prop where
  | cut (b : Bench κ σ) : CourseOf turned stepped b [] none
  | skip {b b₁ : Bench κ σ} {steps : List (Machine κ × σ)} {o : Option (Except Fault Unit × Machine κ × σ)}
      (h : turned b .skip b₁) (rest : CourseOf turned stepped b₁ steps o) : CourseOf turned stepped b steps o
  | finish {b b₁ : Bench κ σ} (h : turned b .finish b₁) :
      CourseOf turned stepped b [] (some (.ok (), b₁.seen))
  | begun {b b₁ : Bench κ σ} (h : turned b .step b₁) : CourseOf turned stepped b [b₁.seen] none
  | fail {b b₁ b₂ : Bench κ σ} {fault : Fault} (h : turned b .step b₁) (hs : stepped b₁ (.error fault) b₂) :
      CourseOf turned stepped b [b₁.seen] (some (.error fault, b₂.seen))
  | step {b b₁ b₂ : Bench κ σ} {steps : List (Machine κ × σ)}
      {o : Option (Except Fault Unit × Machine κ × σ)} (h : turned b .step b₁)
      (hs : stepped b₁ (.ok ()) b₂) (rest : CourseOf turned stepped b₂ steps o) :
      CourseOf turned stepped b (b₁.seen :: steps) o

/-- The courses of a run on a bench. -/
def Course (env : Environment κ σ) (m : Mode κ) :
    Bench κ σ → List (Machine κ × σ) → Option (Except Fault Unit × Machine κ × σ) → Prop :=
  CourseOf (Turned env m) (Script.step.Yields env)

section Rest

variable (turned : Bench κ σ → Turn → Bench κ σ → Prop) (stepped : Bench κ σ → Except Fault Unit → Bench κ σ → Prop)
  (steps : List (Machine κ × σ)) (x : Except Fault Unit × Machine κ × σ)

/-- What is left of a course with the result `x` when its first step, which began at `b₁`, has been taken. -/
def CourseOf.AfterStep (b₁ : Bench κ σ) : Except Fault Unit → Bench κ σ → Prop
  | .ok _, b₂ => ∃ rest, steps = b₁.seen :: rest ∧ CourseOf turned stepped b₂ rest (some x)
  | .error fault, b₂ => steps = [b₁.seen] ∧ x = (.error fault, b₂.seen)

/-- What is left of a course with the result `x` when its first round has begun. -/
def CourseOf.AfterTurn : Turn → Bench κ σ → Prop
  | .skip, b₁ => CourseOf turned stepped b₁ steps (some x)
  | .finish, b₁ => steps = [] ∧ x = (.ok (), b₁.seen)
  | .step, b₁ => ∃ r b₂, stepped b₁ r b₂ ∧ CourseOf.AfterStep turned stepped steps x b₁ r b₂

variable {turned stepped steps x}

/-- The first round of a run that ends. -/
theorem CourseOf.round {b : Bench κ σ} (h : CourseOf turned stepped b steps (some x)) :
    ∃ t b₁, turned b t b₁ ∧ CourseOf.AfterTurn turned stepped steps x t b₁ := by
  cases h with
  | skip h rest => exact ⟨_, _, h, rest⟩
  | finish h => exact ⟨_, _, h, rfl, rfl⟩
  | fail h hf => exact ⟨_, _, h, _, _, hf, rfl, rfl⟩
  | step h hs rest => exact ⟨_, _, h, _, _, hs, _, rfl, rest⟩

end Rest

/-! ## Runs with the same courses -/

/-- A round that turns out as `t` after any number of rounds that are skipped. -/
def AfterSkips (turned : Bench κ σ → Turn → Bench κ σ → Prop) (b : Bench κ σ) (t : Turn) (b' : Bench κ σ) :
    Prop :=
  ∃ b₀, Relation.ReflTransGen (fun b b₁ => turned b .skip b₁) b b₀ ∧ turned b₀ t b'

section Simulation

variable {turned turned' : Bench κ σ → Turn → Bench κ σ → Prop}
  {stepped stepped' : Bench κ σ → Except Fault Unit → Bench κ σ → Prop} {b b' b₀ : Bench κ σ}
  {steps : List (Machine κ × σ)} {o : Option (Except Fault Unit × Machine κ × σ)}

theorem CourseOf.of_skips (h : Relation.ReflTransGen (fun b b₁ => turned b .skip b₁) b b₀)
    (hc : CourseOf turned stepped b₀ steps o) : CourseOf turned stepped b steps o := by
  induction h using Relation.ReflTransGen.head_induction_on with
  | refl => exact hc
  | head hs _ ih => exact .skip hs ih

/-- If a round without a step leaves what is seen as it is, and any other round and any step can be
matched where the same is seen, then courses can be matched. -/
theorem CourseOf.simulate
    (hskip : ∀ {b b₁}, turned b .skip b₁ → b₁.seen = b.seen)
    (hturn : ∀ {b t b₁ b'}, turned b t b₁ → t ≠ .skip → b.seen = b'.seen →
      ∃ b₁', AfterSkips turned' b' t b₁' ∧ b₁.seen = b₁'.seen)
    (hstep : ∀ {b r b₁ b'}, stepped b r b₁ → b.seen = b'.seen → ∃ b₁', stepped' b' r b₁' ∧ b₁.seen = b₁'.seen)
    (h : CourseOf turned stepped b steps o) (hb : b.seen = b'.seen) : CourseOf turned' stepped' b' steps o := by
  -- what is seen agrees at the beginning of each round, but the rounds need not agree in number
  induction h generalizing b' with
  | cut b => exact .cut b'
  | skip h rest ih => exact ih ((hskip h).trans hb)
  | finish h =>
    obtain ⟨b₁', ⟨b₀, hs, h'⟩, he⟩ := hturn h (by decide) hb
    rw [he]
    exact .of_skips hs (.finish h')
  | begun h =>
    obtain ⟨b₁', ⟨b₀, hs, h'⟩, he⟩ := hturn h (by decide) hb
    rw [he]
    exact .of_skips hs (.begun h')
  | fail h hf =>
    obtain ⟨b₁', ⟨b₀, hs, h'⟩, he⟩ := hturn h (by decide) hb
    obtain ⟨b₂', hf', he'⟩ := hstep hf he
    rw [he, he']
    exact .of_skips hs (.fail h' hf')
  | step h ho rest ih =>
    obtain ⟨b₁', ⟨b₀, hs, h'⟩, he⟩ := hturn h (by decide) hb
    obtain ⟨b₂', ho', he'⟩ := hstep ho he
    rw [he]
    exact .of_skips hs (.step h' ho' (ih he'))

end Simulation

/-! ## Courses and outcomes -/

section Outcome

variable {env : Environment κ σ} {m : Mode κ} {b b' : Bench κ σ} {r : Except Fault Unit}

/-- Rounds are a course with their result. -/
theorem RoundsOf.course {turned : Bench κ σ → Turn → Bench κ σ → Prop}
    {stepped : Bench κ σ → Except Fault Unit → Bench κ σ → Prop} {steps : List (Bench κ σ)}
    (h : RoundsOf turned stepped b steps r b') :
    CourseOf turned stepped b (steps.map Bench.seen) (some (r, b'.seen)) := by
  induction h with
  | skip h _ ih => exact .skip h ih
  | finish h => exact .finish h
  | fail h hs => exact .fail h hs
  | step h hs _ ih => exact .step h hs ih

theorem Course.yields_loop {steps : List (Machine κ × σ)} {v : Machine κ × σ}
    (h : Course env m b steps (some (r, v))) : ∃ b', (Script.ask (.loop m)).Yields env b r b' ∧ b'.seen = v := by
  generalize ho : some (r, v) = o at h
  induction h with
  | cut b => cases ho
  | skip h rest ih =>
    obtain ⟨b', hr, hv⟩ := ih ho
    exact ⟨b', yields_loop_of_skip h hr, hv⟩
  | finish h =>
    cases ho
    exact ⟨_, yields_loop_of_finish h, rfl⟩
  | begun h => cases ho
  | fail h hf =>
    cases ho
    exact ⟨_, yields_loop_of_fail h hf, rfl⟩
  | step h hs rest ih =>
    obtain ⟨b', hr, hv⟩ := ih ho
    exact ⟨b', yields_loop_of_step h hs hr, hv⟩

/-- What a run comes to is what its courses come to. -/
theorem yields_loop_iff_course {v : Machine κ × σ} :
    (∃ b', (Script.ask (.loop m)).Yields env b r b' ∧ b'.seen = v) ↔
      ∃ steps, Course env m b steps (some (r, v)) := by
  constructor
  · rintro ⟨b', h, rfl⟩
    obtain ⟨steps, hr⟩ := exists_rounds_of_loop h
    exact ⟨_, hr.course⟩
  · rintro ⟨steps, h⟩
    exact h.yields_loop

/-- The first round of a run that ends is the one that there is. -/
theorem Course.after_turn {steps : List (Machine κ × σ)} {x : Except Fault Unit × Machine κ × σ} {t : Turn}
    {b₁ : Bench κ σ} (h : Course env m b steps (some x)) (ht : Turned env m b t b₁) :
    CourseOf.AfterTurn (Turned env m) (Script.step.Yields env) steps x t b₁ := by
  obtain ⟨t', b₁', ht', hx⟩ := CourseOf.round h
  obtain ⟨rfl, rfl⟩ := ht.unique ht'
  exact hx

theorem Course.after_step {steps : List (Machine κ × σ)} {x : Except Fault Unit × Machine κ × σ} {b₁ b₂ : Bench κ σ}
    (h : Course env m b steps (some x)) (ht : Turned env m b .step b₁) (hs : Script.step.Yields env b₁ r b₂) :
    CourseOf.AfterStep (Turned env m) (Script.step.Yields env) steps x b₁ r b₂ := by
  obtain ⟨r', b₂', hs', hx⟩ := h.after_turn ht
  obtain ⟨rfl, rfl⟩ := hs.unique hs'
  exact hx

/-- Every course is a beginning of the one that comes to a result, and it comes to no other result. -/
theorem Course.begins {steps steps' : List (Machine κ × σ)} {o : Option (Except Fault Unit × Machine κ × σ)}
    {x : Except Fault Unit × Machine κ × σ} (h : Course env m b steps o) (h' : Course env m b steps' (some x)) :
    steps <+: steps' ∧ (o = none ∨ steps = steps' ∧ o = some x) := by
  unfold Course at h
  -- the induction is on the course that may break off; the other one follows it
  induction h generalizing steps' with
  | cut b => exact ⟨⟨steps', rfl⟩, .inl rfl⟩
  | skip ht rest ih => exact ih (h'.after_turn ht)
  | finish ht =>
    obtain ⟨rfl, rfl⟩ := h'.after_turn ht
    exact ⟨⟨[], rfl⟩, .inr ⟨rfl, rfl⟩⟩
  | begun ht =>
    obtain ⟨r, b₂, -, hx⟩ := h'.after_turn ht
    cases r with
    | ok _ =>
      obtain ⟨rest', rfl, -⟩ := hx
      exact ⟨⟨rest', rfl⟩, .inl rfl⟩
    | error fault =>
      obtain ⟨rfl, -⟩ := hx
      exact ⟨⟨[], rfl⟩, .inl rfl⟩
  | fail ht hf =>
    obtain ⟨rfl, rfl⟩ := h'.after_step ht hf
    exact ⟨⟨[], rfl⟩, .inr ⟨rfl, rfl⟩⟩
  | step ht hs rest ih =>
    obtain ⟨rest', rfl, hx⟩ := h'.after_step ht hs
    obtain ⟨hle, hend⟩ := ih hx
    exact ⟨List.cons_prefix_cons.2 ⟨rfl, hle⟩, hend.imp_right fun ⟨he, ho⟩ => ⟨he ▸ rfl, ho⟩⟩

/-- A run that ends has one course and one result. -/
theorem Course.unique {steps steps' : List (Machine κ × σ)} {x x' : Except Fault Unit × Machine κ × σ}
    (h : Course env m b steps (some x)) (h' : Course env m b steps' (some x')) : steps = steps' ∧ x = x' := by
  obtain ⟨-, ho | ⟨rfl, ho⟩⟩ := h.begins h'
  · cases ho
  · exact ⟨rfl, Option.some.inj ho⟩

/-- `s` comes to what a run comes to from `b`, once the requests that wait there are dropped. -/
def Script.RunsIn (s : Script κ σ (Except Fault Unit)) (env : Environment κ σ) (m : Mode κ) (b : Bench κ σ) :
    Prop :=
  ∀ r v, (∃ b', s.Yields env b r b' ∧ b'.seen = v) ↔ ∃! steps, Course env m b.dropRequests steps (some (r, v))

theorem existsUnique_course {v : Machine κ × σ} :
    (∃! steps, Course env m b steps (some (r, v))) ↔ ∃ steps, Course env m b steps (some (r, v)) := by
  constructor
  · rintro ⟨steps, h, -⟩
    exact ⟨steps, h⟩
  · rintro ⟨steps, h⟩
    exact ⟨steps, h, fun steps' h' => (h'.unique h).1⟩

theorem unpacedRun_runsIn (g : Guard κ) : (Script.unpacedRun g).RunsIn env (.unpaced g) b := by
  intro r v
  rw [existsUnique_course, ← yields_loop_iff_course]
  constructor
  · rintro ⟨b', h, rfl⟩
    obtain ⟨b₁, hr, he⟩ := Script.yields_unpacedRun.1 h
    refine ⟨b₁, hr, ?_⟩
    cases r <;> cases he <;> rfl
  · rintro ⟨b₁, hr, rfl⟩
    cases r with
    | ok u => exact ⟨_, Script.yields_unpacedRun.2 ⟨b₁, hr, rfl⟩, rfl⟩
    | error fault => exact ⟨_, Script.yields_unpacedRun.2 ⟨b₁, hr, rfl⟩, rfl⟩

end Outcome

end Micro8051
