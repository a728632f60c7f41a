/-
Moments of scripts. Beside the outcome of a script there is its course from one moment to the next:
what the script at hand has still to do, on which bench, and what goes on once it has ended. Scripts
run for one another, so the latter is a stack: callbacks that are told of an event, conditions of
runs and steps of runs. A script that never ends has a next moment for ever.
-/
import Micro8051.Proofs.Run.Course

namespace Micro8051

variable {κ σ α : Type}

/-! ## Moments -/

/-- What a script is run for. -/
inductive Role where
  /-- It is the script as a whole. -/
  | whole
  | callback
  /-- It tells whether a run goes on. -/
  | condition
  | step
  deriving DecidableEq

/-- The results of the scripts in a role, where those of the script as a whole are of type `α`. -/
@[reducible] def Role.Result (α : Type) : Role → Type
  | .whole => α
  | .callback => Unit
  | .condition => Bool
  | .step => Except Fault Unit

/-- What goes on when a script in some role has ended. What waits longest is at the bottom. -/
inductive Stack (κ σ α : Type) : Role → Type where
  | base : Stack κ σ α .whole
  /-- The callbacks `rest` are told of the event as well, and then all are put back. -/
  | telling {r : Role} (o : Occasion) (rest : List (Callback κ)) (next : Script κ σ (r.Result α))
      (below : Stack κ σ α r) : Stack κ σ α .callback
  /-- The run takes its next step, or ends. -/
  | checking {r : Role} (g : Guard κ) (next : Except Fault Unit → Script κ σ (r.Result α))
      (below : Stack κ σ α r) : Stack κ σ α .condition
  /-- The run goes on with its next round, or ends. -/
  | stepping {r : Role} (m : Mode κ) (next : Except Fault Unit → Script κ σ (r.Result α))
      (below : Stack κ σ α r) : Stack κ σ α .step

/-- A moment: the script at hand, what goes on after it, and the bench. -/
structure Moment (κ σ α : Type) where
  role : Role
  script : Script κ σ (role.Result α)
  stack : Stack κ σ α role
  bench : Bench κ σ

namespace Moment

/-- The first moment of a script. -/
def start (s : Script κ σ α) (b : Bench κ σ) : Moment κ σ α := ⟨.whole, s, .base, b⟩

section Next

variable (env : Environment κ σ) {r : Role}

/-- The first of some callbacks is told of an event; if there is none, those taken out are put
back. -/
def tell (o : Occasion) (cs : List (Callback κ)) (next : Script κ σ (r.Result α))
    (below : Stack κ σ α r) (b : Bench κ σ) : Moment κ σ α :=
  match cs with
  | [] => ⟨r, next, below, { b with machine := b.machine.onRegistry Registry.leave }⟩
  | c :: rest => ⟨.callback, c.respond env o, .telling o rest next below, b⟩

/-- The callbacks that wait for an event are taken out, if there are any, and are told. -/
def serve (o : Occasion) (next : Script κ σ (r.Result α)) (below : Stack κ σ α r) (b : Bench κ σ) :
    Moment κ σ α :=
  match b.machine.registry.callbacks o.slot with
  | [] => ⟨r, next, below, b⟩
  | cs => tell env o cs next below { b with machine := b.machine.onRegistry fun g => g.enter o.slot }

/-- A round of a run begins. -/
def round (m : Mode κ) (next : Except Fault Unit → Script κ σ (r.Result α)) (below : Stack κ σ α r)
    (b : Bench κ σ) : Moment κ σ α :=
  if b.stopPending then
    ⟨r, next (.ok ()), below, b.dropStop⟩
  else
    match m with
    | .paced =>
      match b.wait env.schedule with
      | (.tick, b) => ⟨.step, Script.step, .stepping .paced next below, b⟩
      | (.stop, b) => ⟨r, next (.ok ()), below, b⟩
      | (.interrupt source, b) =>
        ⟨r, .call (.loop .paced) next, below, (Act.report (.interruptIgnored source)).apply b⟩
    | .unpaced g => ⟨.condition, g.holds env, .checking g next below, b⟩

/-- The script at hand has ended with a result. -/
def resume : {r : Role} → Stack κ σ α r → r.Result α → Bench κ σ → Option (Moment κ σ α)
  | _, .base, _, _ => none
  | _, .telling o rest next below, _, b => some (tell env o rest next below b)
  | _, .checking g next below, holds, b =>
    if holds then some ⟨.step, Script.step, .stepping (.unpaced g) next below, b⟩
    else some ⟨_, next (.ok ()), below, b⟩
  | _, .stepping m next below, .ok _, b => some ⟨_, .call (.loop m) next, below, b⟩
  | _, .stepping _ next below, .error fault, b => some ⟨_, next (.error fault), below, b⟩

/-- The next moment; there is none if the script as a whole has ended. -/
def advance : Moment κ σ α → Option (Moment κ σ α)
  | ⟨_, .done x, stack, b⟩ => resume env stack x b
  | ⟨r, .look next, stack, b⟩ => some ⟨r, next b.machine b.world, stack, b⟩
  | ⟨r, .act a next, stack, b⟩ => some ⟨r, next, stack, a.apply b⟩
  | ⟨_, .call (.serve o) next, stack, b⟩ => some (serve env o (next ()) stack b)
  | ⟨_, .call (.loop m) next, stack, b⟩ => some (round env m next stack b)

/-- The moment `k` moments later, or the last one. -/
def after (M : Moment κ σ α) : Nat → Moment κ σ α
  | 0 => M
  | k + 1 => (advance env (M.after k)).getD (M.after k)

theorem advance_after {M : Moment κ σ α} {k : Nat} (h : (advance env (M.after env k)).isSome) :
    advance env (M.after env k) = some (M.after env (k + 1)) := by
  obtain ⟨M', hM⟩ := Option.isSome_iff_exists.1 h
  rw [after, hM, Option.getD_some]

theorem after_succ {M M' : Moment κ σ α} (h : advance env M = some M') (k : Nat) :
    M.after env (k + 1) = M'.after env k := by
  induction k with
  | zero =>
    change (advance env M).getD M = M'
    rw [h, Option.getD_some]
  | succ k ih => rw [after, ih, after]

end Next

end Moment

/-! ## Rounds -/

/-- The moment after the beginning of a round. A waiting request to stop ends the run. Otherwise a paced
run takes a step or goes on with another round, and an unpaced one looks whether its condition holds. -/
theorem round_cases (env : Environment κ σ) {r : Role} (m : Mode κ)
    (next : Except Fault Unit → Script κ σ (r.Result α)) (below : Stack κ σ α r) (b : Bench κ σ) :
    (b.stopPending ∧ Moment.round env m next below b = ⟨r, next (.ok ()), below, b.dropStop⟩) ∨
    (¬ b.stopPending ∧ m = .paced ∧ ∃ b₁, b.wait env.schedule = (.tick, b₁) ∧ b₁.seen = b.seen ∧
      Moment.round env m next below b = ⟨.step, Script.step, .stepping m next below, b₁⟩) ∨
    (¬ b.stopPending ∧ m = .paced ∧ ∃ source b₁, b.wait env.schedule = (.interrupt source, b₁) ∧
      b₁.seen = b.seen ∧ Moment.round env m next below b =
        ⟨r, .call (.loop m) next, below, (Act.report (.interruptIgnored source)).apply b₁⟩) ∨
    ¬ b.stopPending ∧ ∃ g, m = .unpaced g ∧
      Moment.round env m next below b = ⟨.condition, g.holds env, .checking g next below, b⟩ := by
  unfold Moment.round
  rcases em (b.stopPending = true) with hp | hp
  · rw [if_pos hp]
    exact .inl ⟨hp, rfl⟩
  · rw [if_neg hp]
    cases m with
    | unpaced g => exact .inr (.inr (.inr ⟨hp, g, rfl, rfl⟩))
    | paced =>
      obtain ⟨b₁, hw, hs⟩ | ⟨source, b₁, hw, hs, -⟩ := wait_cases env.schedule hp
      · exact .inr (.inl ⟨hp, rfl, b₁, hw, hs, by simp only [hw]⟩)
      · exact .inr (.inr (.inl ⟨hp, rfl, source, b₁, hw, hs, by simp only [hw]⟩))

end Micro8051
