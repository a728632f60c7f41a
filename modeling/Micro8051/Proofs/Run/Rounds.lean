/-
The rounds of a run, with the benches where its steps begin. Beside the callbacks that a step or the
condition of the run may call, this is all that a run does: what goes before and comes after is dropping
requests and reporting.
-/
import Micro8051.Proofs.Bench.Yields

namespace Micro8051

variable {κ σ : Type} {env : Environment κ σ} {m : Mode κ} {b b' : Bench κ σ} {r : Except Fault Unit}

/-! ## Runs -/

/-- The ways to run a machine until something ends the run. -/
inductive Run (κ : Type) where
  | paced
  /-- As long as a condition holds. -/
  | unpaced (g : Guard κ)
  /-- Until a number of instructions have run. -/
  | limited (limit : UInt64)

namespace Run

def script : Run κ → Script κ σ (Except Fault Unit)
  | paced => .start
  | unpaced g => .unpacedRun g
  | limited limit => .runLimited limit

/-- How the rounds of a run go that begins on a chip. -/
def mode (c : Chip) : Run κ → Mode κ
  | paced => .paced
  | unpaced g => .unpaced g
  | limited limit => .unpaced (.below c.executed limit)

end Run

/-! ## Rounds -/

/-- The rounds that begin at `b` come to the result `r` and leave `b'`, and their steps begin at the benches
`steps`, one after the other. What the beginnings of rounds come to is told by `turned`, and what steps come
to by `stepped`. -/
inductive RoundsOf (turned : Bench κ σ → Turn → Bench κ σ → Prop)
    (stepped : Bench κ σ → Except Fault Unit → Bench κ σ → Prop) :
    Bench κ σ → List (Bench κ σ) → Except Fault Unit → Bench κ σ → Prop where
  | skip {b b₁ b' : Bench κ σ} {steps : List (Bench κ σ)} {r : Except Fault Unit} (h : turned b .skip b₁)
      (rest : RoundsOf turned stepped b₁ steps r b') : RoundsOf turned stepped b steps r b'
  | finish {b b' : Bench κ σ} (h : turned b .finish b') : RoundsOf turned stepped b [] (.ok ()) b'
  | fail {b b₁ b' : Bench κ σ} {fault : Fault} (h : turned b .step b₁) (hs : stepped b₁ (.error fault) b') :
      RoundsOf turned stepped b [b₁] (.error fault) b'
  | step {b b₁ b₂ b' : Bench κ σ} {steps : List (Bench κ σ)} {r : Except Fault Unit} (h : turned b .step b₁)
      (hs : stepped b₁ (.ok ()) b₂) (rest : RoundsOf turned stepped b₂ steps r b') :
      RoundsOf turned stepped b (b₁ :: steps) r b'

/-- The rounds of a run on a bench. -/
def Rounds (env : Environment κ σ) (m : Mode κ) :
    Bench κ σ → List (Bench κ σ) → Except Fault Unit → Bench κ σ → Prop :=
  RoundsOf (Turned env m) (Script.step.Yields env)

theorem RoundsOf.mono {turned turned' : Bench κ σ → Turn → Bench κ σ → Prop}
    {stepped stepped' : Bench κ σ → Except Fault Unit → Bench κ σ → Prop} {steps : List (Bench κ σ)}
    (hturn : ∀ {b t b₁}, turned b t b₁ → turned' b t b₁) (hstep : ∀ {b r b₁}, stepped b r b₁ → stepped' b r b₁)
    (h : RoundsOf turned stepped b steps r b') : RoundsOf turned' stepped' b steps r b' := by
  induction h with
  | skip h _ ih => exact .skip (hturn h) ih
  | finish h => exact .finish (hturn h)
  | fail h hs => exact .fail (hturn h) (hstep hs)
  | step h hs _ ih => exact .step (hturn h) (hstep hs) ih

/-- A run that ends has gone through rounds. -/
theorem exists_rounds_of_roundsOn {answers : Answers κ σ} {n : Nat} (h : roundsOn answers env m n b = some (r, b')) :
    ∃ steps, RoundsOf (fun b t b₁ => turnOn answers env m b = some (t, b₁))
      (fun b r b₁ => Script.step.runWith answers b = some (r, b₁)) b steps r b' := by
  induction n generalizing b with
  | zero => cases h
  | succ n ih =>
    rw [roundsOn] at h
    cases ht : turnOn answers env m b with
    | none => rw [ht] at h; cases h
    | some x =>
      rw [ht] at h
      obtain ⟨_ | _ | _, b₁⟩ := x
      · simp only at h
        cases hs : Script.step.runWith answers b₁ with
        | none => rw [hs] at h; cases h
        | some y =>
          rw [hs] at h
          obtain ⟨fault | _, b₂⟩ := y
          · cases h
            exact ⟨_, .fail ht hs⟩
          · obtain ⟨steps, hr⟩ := ih h
            exact ⟨_, .step ht hs hr⟩
      · obtain ⟨steps, hr⟩ := ih h
        exact ⟨steps, .skip ht hr⟩
      · cases h
        exact ⟨[], .finish ht⟩

theorem exists_rounds_of_loop (h : (Script.ask (.loop m)).Yields env b r b') : ∃ steps, Rounds env m b steps r b' := by
  obtain ⟨n, h⟩ := Script.yields_loop.1 h
  obtain ⟨steps, hr⟩ := exists_rounds_of_roundsOn h
  exact ⟨steps, hr.mono (fun h => ⟨n, h⟩) fun h => ⟨n, h⟩⟩

/-- A run goes through rounds, once the requests that wait are dropped. Before and after it reports. -/
theorem Run.exists_rounds {run : Run κ} (h : run.script.Yields env b r b') : ∃ steps j b₁,
    Rounds env (run.mode b.machine.chip) { b.dropRequests with journal := j } steps r b₁ ∧
      b' = { b₁ with journal := b'.journal } := by
  have hunpaced {g : Guard κ} (h : (Script.unpacedRun g).Yields env b r b') : ∃ steps j b₁,
      Rounds env (.unpaced g) { b.dropRequests with journal := j } steps r b₁ ∧
        b' = { b₁ with journal := b'.journal } := by
    obtain ⟨b₁, hl, he⟩ := Script.yields_unpacedRun.1 h
    obtain ⟨steps, hr⟩ := exists_rounds_of_loop hl
    refine ⟨steps, _, b₁, hr, ?_⟩
    cases r <;> cases he <;> rfl
  cases run with
  | unpaced g => exact hunpaced h
  | limited limit => exact hunpaced h
  | paced =>
    obtain ⟨b₁, hl, he⟩ := Script.yields_start.1 h
    obtain ⟨steps, hr⟩ := exists_rounds_of_loop hl
    refine ⟨steps, _, b₁, hr, ?_⟩
    cases r <;> cases he <;> rfl

end Micro8051
