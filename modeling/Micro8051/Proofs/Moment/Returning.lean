/-
Callbacks that return. A script that starts no run comes to an end if each callback that begins to run
meanwhile does. Nothing else is asked of the callbacks.
-/
import Micro8051.Proofs.Bench.Only
import Micro8051.Proofs.Moment.Outcome
import Micro8051.Proofs.Moment.Registry

namespace Micro8051

variable {κ σ α : Type} {env : Environment κ σ} {r : Role} {b b' : Bench κ σ} {o : Occasion}

namespace Moment

/-- Each callback that begins to run from this moment on comes to an end. -/
def Returning (env : Environment κ σ) (M : Moment κ σ α) : Prop :=
  ∀ M₁ M₂ o c, M.Reaches env M₁ → M₁.told? = some (o, c) → M₁.advance env = some M₂ →
    ∃ b', (c.respond env o).Yields env M₂.bench () b'

variable {M M' : Moment κ σ α}

theorem Returning.reaches (h : M.Returning env) (hM : M.Reaches env M') : M'.Returning env :=
  fun M₁ M₂ o c hr => h M₁ M₂ o c (hM.trans hr)

theorem Returning.advance (h : M.Returning env) (hM : M.advance env = some M') : M'.Returning env :=
  h.reaches (.single hM)

end Moment

open Moment

/-- The moments of a script that has an outcome come to it, whatever is suspended meanwhile. -/
theorem Script.Yields.reaches {s : Script κ σ (r.Result α)} {x : r.Result α} (h : s.Yields env b x b')
    (below : Stack κ σ α r) : Reaches env ⟨r, s, below, b⟩ ⟨r, .done x, below, b'⟩ := by
  obtain ⟨n, h⟩ := h
  exact (answer_reached env n).runWith h below

section Serving

variable {next : Script κ σ (r.Result α)} {below : Stack κ σ α r}

/-- The callbacks that are still to be told return one after the other. -/
theorem exists_told_of_returning {cs : List (Callback κ)}
    (h : Returning env ⟨.callback, .done (), .telling o cs next below, b⟩) : ∃ b', Told env o cs b b' := by
  induction cs generalizing b with
  | nil => exact ⟨b, told_nil.2 rfl⟩
  | cons c rest ih =>
    obtain ⟨b₁, hc⟩ := h _ _ o c .refl rfl rfl
    have hreach : Reaches env ⟨.callback, .done (), .telling o (c :: rest) next below, b⟩
        ⟨.callback, .done (), .telling o rest next below, b₁⟩ :=
      .head rfl (hc.reaches (r := .callback) (.telling o rest next below))
    obtain ⟨b', ht⟩ := ih (h.reaches hreach)
    exact ⟨b', told_cons.2 ⟨b₁, hc, ht⟩⟩

/-- An event is served if its callbacks return. -/
theorem exists_serve_of_returning {k : Unit → Script κ σ (r.Result α)}
    (h : Returning env ⟨r, .call (.serve o) k, below, b⟩) :
    ∃ b', (Script.serve o).Yields env b () b' := by
  cases hc : b.machine.registry.callbacks o.slot with
  | nil => exact ⟨b, Script.yields_serve_of_nil hc⟩
  | cons c rest =>
    have hne : b.machine.registry.callbacks o.slot ≠ [] := by
      rw [hc]
      exact List.cons_ne_nil c rest
    have hadvance : (⟨r, .call (.serve o) k, below, b⟩ : Moment κ σ α).advance env =
        some ⟨.callback, c.respond env o, .telling o rest (k ()) below,
          { b with machine := b.machine.onRegistry fun g => g.enter o.slot }⟩ := by
      rw [Moment.advance, serve_of_ne_nil hne, hc]
      rfl
    have htold : (⟨r, .call (.serve o) k, below, b⟩ : Moment κ σ α).told? = some (o, c) := by
      simp only [told?, hc]
    obtain ⟨b₁, hy⟩ := h _ _ o c .refl htold hadvance
    have hreach : Reaches env ⟨r, .call (.serve o) k, below, b⟩
        ⟨.callback, .done (), .telling o rest (k ()) below, b₁⟩ :=
      .head hadvance (hy.reaches (r := .callback) (.telling o rest (k ()) below))
    obtain ⟨b₂, ht⟩ := exists_told_of_returning (h.reaches hreach)
    have hall : Told env o (b.machine.registry.callbacks o.slot)
        { b with machine := b.machine.onRegistry fun g => g.enter o.slot } b₂ := by
      rw [hc]
      exact told_cons.2 ⟨b₁, hy, ht⟩
    exact ⟨_, Script.yields_serve_of_told hne hall⟩

end Serving

/-- A script that starts no run comes to an end if the callbacks return. -/
theorem exists_yields_of_returning {P : Act κ σ → Prop} {s : Script κ σ (r.Result α)} {below : Stack κ σ α r}
    (hs : s.Only P fun c => ∀ m, c ≠ .loop m) (h : Returning env ⟨r, s, below, b⟩) :
    ∃ x b', s.Yields env b x b' := by
  induction s generalizing b with
  | done x => exact ⟨x, b, Script.yields_pure.2 ⟨rfl, rfl⟩⟩
  | look next ih => exact ih _ _ (hs _ _) (h.advance rfl)
  | act a next ih => exact ih hs.2 (h.advance rfl)
  | call c next ih =>
    cases c with
    | loop m => exact absurd rfl (hs.1 m)
    | serve o =>
      obtain ⟨b₁, hserve⟩ := exists_serve_of_returning h
      obtain ⟨n, hn⟩ := Script.yields_ask.1 hserve
      obtain ⟨x, b', hx⟩ := ih () (hs.2 ()) (h.reaches (answer_reached env n _ _ _ _ hn next below))
      exact ⟨x, b', Script.yields_bind.2 ⟨(), b₁, hserve, hx⟩⟩

/-- A machine starts no run by itself. -/
theorem Script.noRuns_suffices : Suffices (fun _ : Act κ σ => True) fun c => ∀ m, c ≠ .loop m where
  serve _ _ h := by cases h
  report _ := trivial
  setData _ _ := trivial
  setXdata _ _ := trivial
  jump _ := trivial

/-! ## Scripts that have come to an end -/

section After

variable {M M' : Moment κ σ α} {n : Nat}

/-- There is no next moment only if the script as a whole has ended. -/
theorem exists_done_of_advance (h : M.advance env = none) : ∃ x b', M = ⟨.whole, .done x, .base, b'⟩ := by
  obtain ⟨r, s, stack, b⟩ := M
  cases s with
  | look next => cases h
  | act a next => cases h
  | call c next => cases c <;> cases h
  | done x =>
    cases stack with
    | base => exact ⟨x, b, rfl⟩
    | telling o cs next below => cases h
    | checking g next below => cases x <;> cases h
    | stepping m next below => cases x <;> cases h

/-- Of a script that comes to its end, the moments are known. -/
theorem Moment.Reaches.exists_after (hend : (M.after env n).advance env = none) (h : M.Reaches env M') :
    ∃ k ≤ n, M' = M.after env k := by
  induction h with
  | refl => exact ⟨0, n.zero_le, rfl⟩
  | @tail M₁ M₂ _ hM ih =>
    obtain ⟨k, hk, rfl⟩ := ih
    have hne : k ≠ n := by
      rintro rfl
      rw [hend] at hM
      cases hM
    have hnext := advance_after env (Option.isSome_iff_exists.2 ⟨M₂, hM⟩)
    exact ⟨k + 1, by omega, Option.some.inj (hM.symm.trans hnext)⟩

/-- The callback that begins to run, if one does, comes to an end within a bound. -/
def Moment.returnsWithin (env : Environment κ σ) (bound : Nat) (M : Moment κ σ α) : Bool :=
  match M.told?, M.advance env with
  | some (o, c), some M' => ((c.respond env o).run env bound M'.bench).isSome
  | _, _ => true

theorem Moment.returning_of_after {bound : Nat} (hend : (M.after env n).advance env = none)
    (h : ∀ k < n, (M.after env k).returnsWithin env bound = true) : M.Returning env := by
  intro M₁ M₂ o c hM₁ ht hM₂
  obtain ⟨k, hk, rfl⟩ := Moment.Reaches.exists_after hend hM₁
  have hne : k ≠ n := by
    rintro rfl
    rw [hend] at hM₂
    cases hM₂
  have hreturns := h k (by omega)
  unfold returnsWithin at hreturns
  rw [ht, hM₂] at hreturns
  obtain ⟨⟨u, b'⟩, hb'⟩ := Option.isSome_iff_exists.1 hreturns
  exact ⟨b', bound, hb'⟩

end After

end Micro8051
