/-
The events that a script comes across: those whose callbacks it calls itself, in order. What these
callbacks come across in turn is not among them. A script that comes to an end has come across the same
events each time (`Script.Passes.unique`).
-/
import Micro8051.Proofs.Bench.Yields

namespace Micro8051

variable {κ σ α β : Type} {env : Environment κ σ} {b b' b₁ b₂ : Bench κ σ} {os os' : List Occasion}

namespace Script

/-- On `b` the script has the result `a` and leaves `b'`, and on its way it comes across the events `os`. -/
inductive Passes (env : Environment κ σ) : Script κ σ α → Bench κ σ → List Occasion → α → Bench κ σ → Prop where
  | done (a : α) (b : Bench κ σ) : Passes env (.done a) b [] a b
  | look {next : Machine κ → σ → Script κ σ α} {b b' : Bench κ σ} {os : List Occasion} {a : α}
      (rest : Passes env (next b.machine b.world) b os a b') : Passes env (.look next) b os a b'
  | act {x : Act κ σ} {next : Script κ σ α} {b b' : Bench κ σ} {os : List Occasion} {a : α}
      (rest : Passes env next (x.apply b) os a b') : Passes env (.act x next) b os a b'
  | serve {o : Occasion} {next : Unit → Script κ σ α} {b b₁ b' : Bench κ σ} {os : List Occasion} {a : α}
      (h : (Script.serve o).Yields env b () b₁) (rest : Passes env (next ()) b₁ os a b') :
      Passes env (.call (.serve o) next) b (o :: os) a b'
  | loop {m : Mode κ} {next : Except Fault Unit → Script κ σ α} {b b₁ b' : Bench κ σ} {os : List Occasion}
      {r : Except Fault Unit} {a : α} (h : (ask (.loop m)).Yields env b r b₁)
      (rest : Passes env (next r) b₁ os a b') : Passes env (.call (.loop m) next) b os a b'

/-- Two scripts, one after the other. -/
theorem Passes.bind {s : Script κ σ α} {k : α → Script κ σ β} {a : α} {r : β} (h : s.Passes env b os a b₁)
    (h' : (k a).Passes env b₁ os' r b') : (s >>= k).Passes env b (os ++ os') r b' := by
  rw [bind_eq_bind]
  induction h with
  | done a b => exact h'
  | look _ ih => exact .look (ih h')
  | act _ ih => exact .act (ih h')
  | serve hs _ ih => exact .serve hs (ih h')
  | loop hl _ ih => exact .loop hl (ih h')

theorem Passes.yields {s : Script κ σ α} {a : α} (h : s.Passes env b os a b') : s.Yields env b a b' := by
  induction h with
  | done a b => exact yields_pure.2 ⟨rfl, rfl⟩
  | look _ ih => exact ih
  | act _ ih => exact ih
  | serve hs _ ih => exact yields_bind.2 ⟨(), _, hs, ih⟩
  | loop hl _ ih => exact yields_bind.2 ⟨_, _, hl, ih⟩

theorem Passes.unique {s : Script κ σ α} {a a' : α} (h : s.Passes env b os a b₁) (h' : s.Passes env b os' a' b₂) :
    os = os' ∧ a = a' ∧ b₁ = b₂ := by
  induction h generalizing os' with
  | done a b =>
    cases h'
    exact ⟨rfl, rfl, rfl⟩
  | look _ ih =>
    cases h' with
    | look rest => exact ih rest
  | act _ ih =>
    cases h' with
    | act rest => exact ih rest
  | serve hs _ ih =>
    cases h' with
    | serve hs' rest =>
      obtain ⟨-, rfl⟩ := hs.unique hs'
      obtain ⟨rfl, he⟩ := ih rest
      exact ⟨rfl, he⟩
  | loop hl _ ih =>
    cases h' with
    | loop hl' rest =>
      obtain ⟨rfl, rfl⟩ := hl.unique hl'
      exact ih rest

/-! ## Scripts of one step -/

theorem passes_chip {f : Chip → α} : (chip f).Passes env b [] (f b.machine.chip) b := .look (.done _ b)

theorem passes_perform {x : Act κ σ} : (perform x).Passes env b [] () (x.apply b) := .act (.done _ _)

theorem passes_serve {o : Occasion} (h : (serve o).Yields env b () b') : (serve o).Passes env b [o] () b' :=
  .serve h (.done _ _)

end Script

end Micro8051
