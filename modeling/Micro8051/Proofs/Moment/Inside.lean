/-
Moments inside a suspended script. What runs above it on the stack takes out lists of callbacks of its own and
puts them back, and leaves the stack below and the lists taken out before as they are, until it has ended.
-/
import Micro8051.Proofs.Moment.Registry

namespace Micro8051

variable {κ σ α : Type} {env : Environment κ σ} {ρ r : Role} {low : Stack κ σ α ρ} {M M' : Moment κ σ α}

/-- A stack has `low` at its bottom, and above it the lists `inner` are taken out. Of each of them, the callbacks
that are not told yet are at the end. -/
inductive Stack.RestsOn (low : Stack κ σ α ρ) : {r : Role} → Stack κ σ α r → List (Slot × List (Callback κ)) → Prop
  | refl : RestsOn low low []
  | telling {r : Role} {o : Occasion} {rest cs : List (Callback κ)} {next : Script κ σ (r.Result α)}
      {below : Stack κ σ α r} {inner : List (Slot × List (Callback κ))} (hrest : rest <:+ cs)
      (h : RestsOn low below inner) : RestsOn low (.telling o rest next below) ((o.slot, cs) :: inner)
  | checking {r : Role} {g : Guard κ} {next : Except Fault Unit → Script κ σ (r.Result α)} {below : Stack κ σ α r}
      {inner : List (Slot × List (Callback κ))} (h : RestsOn low below inner) :
      RestsOn low (.checking g next below) inner
  | stepping {r : Role} {m : Mode κ} {next : Except Fault Unit → Script κ σ (r.Result α)} {below : Stack κ σ α r}
      {inner : List (Slot × List (Callback κ))} (h : RestsOn low below inner) :
      RestsOn low (.stepping m next below) inner

theorem Stack.RestsOn.length_serving {stack : Stack κ σ α r} {inner : List (Slot × List (Callback κ))}
    (h : low.RestsOn stack inner) : stack.serving.length = inner.length + low.serving.length := by
  induction h with
  | refl => exact (Nat.zero_add _).symm
  | telling _ _ ih => simp only [Stack.serving, List.length_cons, ih]; omega
  | checking _ ih => exact ih
  | stepping _ ih => exact ih

theorem Stack.RestsOn.round {stack : Stack κ σ α r} {inner : List (Slot × List (Callback κ))} {m : Mode κ}
    {next : Except Fault Unit → Script κ σ (r.Result α)} {b : Bench κ σ} (h : low.RestsOn stack inner) :
    low.RestsOn (Moment.round env m next stack b).stack inner := by
  obtain ⟨-, e⟩ | ⟨-, -, b₁, -, -, e⟩ | ⟨-, -, source, b₁, -, -, e⟩ | ⟨-, g, -, e⟩ :=
    round_cases env m next stack b
  · rw [e]
    exact h
  · rw [e]
    exact .stepping h
  · rw [e]
    exact h
  · rw [e]
    exact .checking h

/-- The moment is inside the script that `low` suspends. What has been going on inside has made the registry
`g` out of one where nothing was taken out; in truth the lists `outer` were. -/
structure Moment.Inside (low : Stack κ σ α ρ) (g : Registry (Callback κ)) (outer : List (Slot × List (Callback κ)))
    (M : Moment κ σ α) : Prop where
  stack : low.RestsOn M.stack g.running
  registry : M.registry = g.onto outer

namespace Moment.Inside

variable {g : Registry (Callback κ)} {outer : List (Slot × List (Callback κ))}

theorem length_serving (h : M.Inside low g outer) :
    M.stack.serving.length = g.running.length + low.serving.length :=
  h.stack.length_serving

theorem callbacks (h : M.Inside low g outer) (t : Slot) : M.registry.callbacks t = g.callbacks t :=
  congrArg (fun g => g.callbacks t) h.registry

/-- The stack after an event is served: its list, if there is one, is taken out on top of the others. -/
theorem stack_serve {o : Occasion} {next : Unit → Script κ σ (r.Result α)} {stack : Stack κ σ α r} {b : Bench κ σ}
    (h : Moment.Inside low g outer ⟨r, .call (.serve o) next, stack, b⟩)
    (hM : Moment.advance env ⟨r, .call (.serve o) next, stack, b⟩ = some M') :
    low.RestsOn M'.stack (g.changed (Moment.change ⟨r, .call (.serve o) next, stack, b⟩)).running ∧
      Moment.change ⟨r, .call (.serve o) next, stack, b⟩ ≠ .leave := by
  have hstack := h.stack
  have hcallbacks : b.machine.registry.callbacks o.slot = g.callbacks o.slot := h.callbacks o.slot
  cases hM
  unfold Moment.change Moment.serve
  cases hc : b.machine.registry.callbacks o.slot with
  | nil =>
    simp only [hc]
    exact ⟨hstack, fun h => by cases h⟩
  | cons c rest =>
    simp only [hc]
    refine ⟨.telling ?_ hstack, fun h => by cases h⟩
    rw [← hcallbacks, hc]
    exact List.suffix_cons c rest

/-- The stack after a script has ended: what was suspended last goes on, if it is above `low`. -/
theorem stack_done {x : r.Result α} {stack : Stack κ σ α r} {b : Bench κ σ} (hstack : low.RestsOn stack g.running)
    (hM : Moment.advance env ⟨r, .done x, stack, b⟩ = some M') :
    (low.RestsOn M'.stack (g.changed (Moment.change ⟨r, .done x, stack, b⟩)).running ∧
        (Moment.change ⟨r, .done x, stack, b⟩ = .leave → g.running ≠ [])) ∨
      ∃ x' b', (⟨r, .done x, stack, b⟩ : Moment κ σ α) = ⟨ρ, .done x', low, b'⟩ ∧ g.running = [] := by
  obtain ⟨running, hrun⟩ : ∃ running, running = g.running := ⟨_, rfl⟩
  rw [← hrun] at hstack
  cases hstack with
  | refl => exact .inr ⟨x, b, rfl, hrun.symm⟩
  | checking hbelow =>
    left
    rw [hrun] at hbelow
    cases x with
    | false => cases hM; exact ⟨hbelow, fun h => by cases h⟩
    | true => cases hM; exact ⟨.stepping hbelow, fun h => by cases h⟩
  | stepping hbelow =>
    left
    rw [hrun] at hbelow
    cases x <;> · cases hM; exact ⟨hbelow, fun h => by cases h⟩
  | telling hrest hbelow =>
    left
    rename_i rest cs next below inner
    have hne : g.running ≠ [] := by rw [← hrun]; exact List.cons_ne_nil _ _
    refine ⟨?_, fun _ => hne⟩
    cases rest with
    | nil =>
      cases hM
      have hleave : (g.changed .leave).running = inner := by
        simp only [Registry.changed, Registry.leave, ← hrun]
      exact hleave ▸ hbelow
    | cons c rest =>
      cases hM
      show low.RestsOn _ g.running
      rw [← hrun]
      exact .telling ((List.suffix_cons c rest).trans hrest) hbelow

/-- The stack after the next moment, unless what is inside has ended. -/
theorem stack_advance (h : M.Inside low g outer) (hM : M.advance env = some M') :
    (low.RestsOn M'.stack (g.changed M.change).running ∧ (M.change = .leave → g.running ≠ [])) ∨
      ∃ x b, M = ⟨ρ, .done x, low, b⟩ ∧ g.running = [] := by
  obtain ⟨r, s, stack, b⟩ := M
  cases s with
  | done x => exact stack_done h.stack hM
  | look next =>
    cases hM
    exact .inl ⟨h.stack, fun h => by cases h⟩
  | act a next =>
    cases hM
    have hstack : low.RestsOn stack g.running := h.stack
    cases a <;> exact .inl ⟨hstack, fun h => by cases h⟩
  | call c next =>
    cases c with
    | loop m =>
      cases hM
      exact .inl ⟨h.stack.round, fun h => by cases h⟩
    | serve o =>
      obtain ⟨hstack, hne⟩ := h.stack_serve hM
      exact .inl ⟨hstack, fun he => absurd he hne⟩

/-- Inside a suspended script, what goes on changes the registry as if nothing had been taken out before. -/
theorem advance (h : M.Inside low g outer) (hM : M.advance env = some M') :
    M'.Inside low (g.changed M.change) outer ∨ ∃ x b, M = ⟨ρ, .done x, low, b⟩ ∧ g.running = [] := by
  refine (h.stack_advance hM).imp ?_ id
  rintro ⟨hstack, hleave⟩
  exact ⟨hstack, by rw [registry_advance hM, h.registry, Registry.changed_onto outer hleave]⟩

/-- A callback that begins to run inside is held there, and its event is served above `low`. -/
theorem told (h : M.Inside low g outer) (hM : M.advance env = some M') {o : Occasion} {c : Callback κ}
    (ht : M.told? = some (o, c)) :
    (c ∈ g.held o.slot ∧ low.serving.length < M'.stack.serving.length) ∨
      ∃ x b, M = ⟨ρ, .done x, low, b⟩ ∧ g.running = [] := by
  have hlength := h.length_serving
  obtain ⟨r, s, stack, b⟩ := M
  have hstack : low.RestsOn stack g.running := h.stack
  simp only at hlength
  cases s with
  | look next => cases ht
  | act a next => cases ht
  | call d next =>
    cases d with
    | loop m => cases ht
    | serve o' =>
      left
      have hcallbacks : b.machine.registry.callbacks o'.slot = g.callbacks o'.slot := h.callbacks o'.slot
      cases hM
      unfold Moment.told? at ht
      unfold Moment.serve
      cases hc : b.machine.registry.callbacks o'.slot with
      | nil => simp only [hc] at ht; cases ht
      | cons c' rest =>
        simp only [hc] at ht ⊢
        cases ht
        refine ⟨List.mem_append_right _ ?_, ?_⟩
        · rw [← hcallbacks, hc]
          exact List.mem_cons_self
        · simp only [Moment.tell, Stack.serving, List.length_cons, hlength]
          omega
  | done x =>
    obtain ⟨running, hrun⟩ : ∃ running, running = g.running := ⟨_, rfl⟩
    rw [← hrun] at hstack hlength
    cases hstack with
    | refl => exact .inr ⟨x, b, rfl, hrun.symm⟩
    | checking hbelow => cases ht
    | stepping hbelow => cases ht
    | telling hrest hbelow =>
      left
      rename_i rest cs next below inner
      cases rest with
      | nil => cases ht
      | cons c' rest =>
        cases ht
        cases hM
        refine ⟨List.mem_append_left _ ?_, ?_⟩
        · rw [Registry.takenOut_of_cons hrun.symm, if_pos rfl]
          exact List.mem_append_right _ (hrest.subset List.mem_cons_self)
        · simp only [Moment.tell, Stack.serving, List.length_cons] at hlength ⊢
          omega

end Moment.Inside

end Micro8051
