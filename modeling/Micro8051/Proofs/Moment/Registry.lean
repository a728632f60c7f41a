/-
The registry from one moment to the next. Each moment changes the registry in one way or leaves it as
it is, and the lists that are taken out belong, one by one, to the events that are served on the stack.
-/
import Micro8051.Proofs.Moment.Advance
import Micro8051.Proofs.Registry.Changes

namespace Micro8051

variable {κ σ α : Type} {env : Environment κ σ} {r : Role} {M M' : Moment κ σ α}

namespace Moment

@[reducible] def registry (M : Moment κ σ α) : Registry (Callback κ) := M.bench.machine.registry

/-- What a moment changes in the registry. -/
def change : Moment κ σ α → Registry.Change (Callback κ)
  | ⟨_, .act (.register s c) _, _, _⟩ => .add s (.custom c)
  | ⟨_, .act .clearHooks _, _, _⟩ => .clearHooks
  | ⟨_, .act .clearBreakpoints _, _, _⟩ => .clearBreakpoints
  | ⟨_, .call (.serve o) _, _, b⟩ =>
    match b.machine.registry.callbacks o.slot with
    | [] => .keep
    | _ => .enter o.slot
  | ⟨_, .done _, .telling _ [] _ _, _⟩ => .leave
  | _ => .keep

/-- The callback that begins to run next, with the event it is told of. -/
def told? : Moment κ σ α → Option (Occasion × Callback κ)
  | ⟨_, .call (.serve o) _, _, b⟩ =>
    match b.machine.registry.callbacks o.slot with
    | [] => none
    | c :: _ => some (o, c)
  | ⟨_, .done _, .telling o (c :: _) _ _, _⟩ => some (o, c)
  | _ => none

end Moment

open Moment

theorem registry_round (m : Mode κ) (next : Except Fault Unit → Script κ σ (r.Result α)) (below : Stack κ σ α r)
    (b : Bench κ σ) : (Moment.round env m next below b).registry = b.machine.registry := by
  obtain ⟨-, e⟩ | ⟨-, -, b₁, -, hs, e⟩ | ⟨-, -, source, b₁, -, hs, e⟩ | ⟨-, g, -, e⟩ :=
    round_cases env m next below b
  · rw [e]
    rfl
  · rw [e]
    exact congrArg Machine.registry (seen_eq.1 hs).1
  · rw [e]
    exact congrArg Machine.registry (seen_eq.1 hs).1
  · rw [e]

theorem registry_advance (h : M.advance env = some M') : M'.registry = M.registry.changed M.change := by
  obtain ⟨r, s, stack, b⟩ := M
  cases s with
  | done x =>
    cases stack with
    | base => cases h
    | telling o cs next below => cases cs <;> · cases h; rfl
    | checking g next below => cases x <;> · cases h; rfl
    | stepping m next below => cases x <;> · cases h; rfl
  | look next => cases h; rfl
  | act a next => cases h; cases a <;> rfl
  | call c next =>
    cases c with
    | loop m => cases h; exact registry_round m next stack b
    | serve o =>
      cases h
      unfold Moment.serve Moment.change
      cases hc : b.machine.registry.callbacks o.slot <;> simp only [hc] <;> rfl

/-! ## Lists that are taken out -/

/-- The events that are served, the innermost first. -/
def Stack.serving : {r : Role} → Stack κ σ α r → List Occasion
  | _, .base => []
  | _, .telling o _ _ below => o :: below.serving
  | _, .checking _ _ below => below.serving
  | _, .stepping _ _ below => below.serving

/-- The lists that are taken out are those of the events that are served. Each has callbacks, and those
that are not told yet are at its end. -/
inductive Stack.Matches : {r : Role} → Stack κ σ α r → List (Slot × List (Callback κ)) → Prop
  | base : Stack.base.Matches []
  | telling {r : Role} {o : Occasion} {rest cs : List (Callback κ)} {next : Script κ σ (r.Result α)}
      {below : Stack κ σ α r} {running : List (Slot × List (Callback κ))} (hrest : rest <:+ cs) (hcs : cs ≠ [])
      (h : below.Matches running) : (Stack.telling o rest next below).Matches ((o.slot, cs) :: running)
  | checking {r : Role} {g : Guard κ} {next : Except Fault Unit → Script κ σ (r.Result α)} {below : Stack κ σ α r}
      {running : List (Slot × List (Callback κ))} (h : below.Matches running) :
      (Stack.checking g next below).Matches running
  | stepping {r : Role} {m : Mode κ} {next : Except Fault Unit → Script κ σ (r.Result α)} {below : Stack κ σ α r}
      {running : List (Slot × List (Callback κ))} (h : below.Matches running) :
      (Stack.stepping m next below).Matches running

namespace Stack.Matches

variable {stack : Stack κ σ α r} {running : List (Slot × List (Callback κ))}

theorem slots_eq (h : stack.Matches running) : running.map Prod.fst = stack.serving.map Occasion.slot := by
  induction h with
  | base => rfl
  | telling _ _ _ ih => exact congrArg _ ih
  | checking _ ih => exact ih
  | stepping _ ih => exact ih

theorem ne_nil (h : stack.Matches running) : ∀ e ∈ running, e.2 ≠ [] := by
  induction h with
  | base => exact fun e he => absurd he List.not_mem_nil
  | telling _ hcs _ ih => exact List.forall_mem_cons.2 ⟨hcs, ih⟩
  | checking _ ih => exact ih
  | stepping _ ih => exact ih

end Stack.Matches

/-- The lists that are taken out belong to the events that are served. -/
@[reducible] def Moment.Matched (M : Moment κ σ α) : Prop := M.stack.Matches M.registry.running

theorem matched_round {m : Mode κ} {next : Except Fault Unit → Script κ σ (r.Result α)} {below : Stack κ σ α r}
    {b : Bench κ σ} (h : below.Matches b.machine.registry.running) : (Moment.round env m next below b).Matched := by
  rw [Moment.Matched, registry_round]
  obtain ⟨-, e⟩ | ⟨-, -, b₁, -, -, e⟩ | ⟨-, -, source, b₁, -, -, e⟩ | ⟨-, g, -, e⟩ :=
    round_cases env m next below b
  · rw [e]
    exact h
  · rw [e]
    exact .stepping h
  · rw [e]
    exact h
  · rw [e]
    exact .checking h

theorem Moment.Matched.advance (hM : M.Matched) (h : M.advance env = some M') : M'.Matched := by
  obtain ⟨r, s, stack, b⟩ := M
  cases s with
  | done x =>
    cases stack with
    | base => cases h
    | telling o cs next below =>
      obtain ⟨running, hrun⟩ : ∃ running, running = b.machine.registry.running := ⟨_, rfl⟩
      rw [Moment.Matched, Moment.registry, ← hrun] at hM
      cases hM with
      | telling hrest hcs hbelow =>
        cases cs with
        | nil =>
          cases h
          rw [Moment.Matched]
          simpa [Moment.tell, Moment.registry, Machine.onRegistry, Registry.leave, ← hrun] using hbelow
        | cons c rest =>
          cases h
          rw [Moment.Matched]
          simpa [Moment.tell, Moment.registry, ← hrun] using
            Stack.Matches.telling ((List.suffix_cons c rest).trans hrest) hcs hbelow
    | checking g next below =>
      cases hM with
      | checking hbelow =>
        cases x with
        | false => cases h; exact hbelow
        | true => cases h; exact .stepping hbelow
    | stepping m next below =>
      cases hM with
      | stepping hbelow => cases x <;> · cases h; exact hbelow
  | look next => cases h; exact hM
  | act a next => cases h; cases a <;> exact hM
  | call c next =>
    cases c with
    | loop m => cases h; exact matched_round hM
    | serve o =>
      cases h
      unfold Moment.serve
      cases hc : b.machine.registry.callbacks o.slot with
      | nil => exact hM
      | cons c rest =>
        have hrest : rest <:+ b.machine.registry.callbacks o.slot := by
          rw [hc]
          exact List.suffix_cons c rest
        exact .telling hrest (by simp [hc]) hM

/-! ## Sequences of moments -/

section Sequence

variable {M : Nat → Moment κ σ α} {n : Nat}

theorem registry_of_moments (hrun : ∀ k < n, (M k).advance env = some (M (k + 1))) :
    ∀ k < n, (M (k + 1)).registry = (M k).registry.changed (M k).change :=
  fun k hk => registry_advance (hrun k hk)

theorem matched_of_moments (h0 : (M 0).Matched) (hrun : ∀ k < n, (M k).advance env = some (M (k + 1))) :
    ∀ k ≤ n, (M k).Matched
  | 0, _ => h0
  | k + 1, hk => (matched_of_moments h0 hrun k (by omega)).advance (hrun k hk)

theorem matched_start {s : Script κ σ α} {b : Bench κ σ} (hb : b.machine.registry.running = []) :
    (Moment.start s b).Matched := by
  rw [Moment.Matched, Moment.start, Moment.registry, hb]
  exact .base

/-- What the first `k` moments register in a slot, in the order of registration. -/
def registered (M : Nat → Moment κ σ α) (t : Slot) (k : Nat) : List (Callback κ) :=
  Registry.added (fun k => (M k).change) t k

end Sequence

end Micro8051
