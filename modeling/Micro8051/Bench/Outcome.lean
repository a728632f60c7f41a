/-
Outcomes of scripts: the outcome of a script in two parts is the outcome of the parts one after the
other, and an outcome stays the same when the bound grows.
-/
import Micro8051.Bench.Run

namespace Micro8051

variable {κ σ α β : Type}

/-! ## Scripts in parts -/

namespace Script

theorem bind_eq_bind (s : Script κ σ α) (k : α → Script κ σ β) : s >>= k = s.bind k := rfl

theorem runWith_bind (answers : Answers κ σ) (s : Script κ σ α) (k : α → Script κ σ β)
    (b : Bench κ σ) :
    (s >>= k).runWith answers b = (s.runWith answers b).bind fun r => (k r.1).runWith answers r.2 := by
  rw [bind_eq_bind]
  induction s generalizing b with
  | done a => rfl
  | look next ih => exact ih b.machine b.world b
  | act a next ih => exact ih (a.apply b)
  | call c next ih =>
    simp only [bind, runWith]
    cases answers c b with
    | none => rfl
    | some r => exact ih r.1 r.2

@[simp] theorem runWith_pure (answers : Answers κ σ) (a : α) (b : Bench κ σ) :
    (pure a : Script κ σ α).runWith answers b = some (a, b) := rfl

theorem runWith_map (answers : Answers κ σ) (f : α → β) (s : Script κ σ α) (b : Bench κ σ) :
    (f <$> s).runWith answers b = (s.runWith answers b).map fun r => (f r.1, r.2) := by
  rw [← bind_pure_comp, runWith_bind]
  cases s.runWith answers b <;> rfl

@[simp] theorem runWith_view (answers : Answers κ σ) (f : Machine κ → σ → α) (b : Bench κ σ) :
    (view f).runWith answers b = some (f b.machine b.world, b) := rfl

@[simp] theorem runWith_chip (answers : Answers κ σ) (f : Chip → α) (b : Bench κ σ) :
    (chip f : Script κ σ α).runWith answers b = some (f b.machine.chip, b) := rfl

@[simp] theorem runWith_perform (answers : Answers κ σ) (a : Act κ σ) (b : Bench κ σ) :
    (perform a).runWith answers b = some ((), a.apply b) := rfl

@[simp] theorem runWith_ask (answers : Answers κ σ) (c : Call κ) (b : Bench κ σ) :
    (ask c : Script κ σ _).runWith answers b = answers c b := by
  simp only [ask, runWith]
  cases answers c b <;> rfl

end Script

/-! ## Growing bounds -/

/-- Whatever `answers` answers, `more` answers alike. -/
def Answers.Extends (more answers : Answers κ σ) : Prop :=
  ∀ c b r, answers c b = some r → more c b = some r

namespace Answers.Extends

variable {more answers : Answers κ σ}

theorem runWith (h : Answers.Extends more answers) {s : Script κ σ α} {b : Bench κ σ}
    {r : α × Bench κ σ} (hs : s.runWith answers b = some r) : s.runWith more b = some r := by
  induction s generalizing b with
  | done a => exact hs
  | look next ih => exact ih _ _ hs
  | act a next ih => exact ih hs
  | call c next ih =>
    simp only [Script.runWith] at hs ⊢
    cases hc : answers c b with
    | none => simp [hc] at hs
    | some x =>
      rw [hc] at hs
      rw [h c b x hc]
      exact ih _ hs

theorem tellAll (h : Answers.Extends more answers) {env : Environment κ σ} {o : Occasion}
    {cs : List (Callback κ)} {b b' : Bench κ σ} (ht : tellAll answers env o cs b = some b') :
    Micro8051.tellAll more env o cs b = some b' := by
  induction cs generalizing b with
  | nil => exact ht
  | cons c rest ih =>
    simp only [Micro8051.tellAll] at ht ⊢
    cases hc : (c.respond env o).runWith answers b with
    | none => simp [hc] at ht
    | some x =>
      rw [hc] at ht
      rw [h.runWith hc]
      exact ih ht

theorem serveOn (h : Answers.Extends more answers) {env : Environment κ σ} {o : Occasion}
    {b b' : Bench κ σ} (hs : serveOn answers env o b = some b') :
    Micro8051.serveOn more env o b = some b' := by
  unfold Micro8051.serveOn at hs ⊢
  cases hg : b.machine.registry.callbacks o.slot with
  | nil => simpa only [hg] using hs
  | cons c rest =>
    simp only [hg] at hs ⊢
    split at hs
    · cases hs
    · next b1 ht =>
      rw [h.tellAll ht]
      exact hs

theorem turnOn (h : Answers.Extends more answers) {env : Environment κ σ} {m : Mode κ}
    {b : Bench κ σ} {r : Turn × Bench κ σ} (ht : turnOn answers env m b = some r) :
    Micro8051.turnOn more env m b = some r := by
  unfold Micro8051.turnOn at ht ⊢
  split
  · next hp => simpa only [hp, if_true] using ht
  · next hp =>
    rw [if_neg hp] at ht
    cases m with
    | paced => exact ht
    | unpaced g =>
      simp only at ht ⊢
      cases hg : (g.holds env).runWith answers b with
      | none => simp [hg] at ht
      | some x =>
        rw [hg] at ht
        rw [h.runWith hg]
        exact ht

theorem roundsOn (h : Answers.Extends more answers) {env : Environment κ σ} {m : Mode κ} {n : Nat}
    {b : Bench κ σ} {r : Except Fault Unit × Bench κ σ} (hr : roundsOn answers env m n b = some r)
    {k : Nat} (hk : n ≤ k) : Micro8051.roundsOn more env m k b = some r := by
  -- the bound counts rounds, so the induction is on it and not on the script of a round
  induction n generalizing b k with
  | zero => cases hr
  | succ n ih =>
    obtain ⟨k, rfl⟩ : ∃ j, k = j + 1 := ⟨k - 1, by omega⟩
    simp only [Micro8051.roundsOn] at hr ⊢
    cases hm : Micro8051.turnOn answers env m b with
    | none => simp [hm] at hr
    | some x =>
      rw [hm] at hr
      rw [h.turnOn hm]
      obtain ⟨_ | _ | _, b1⟩ := x
      · simp only at hr ⊢
        cases hs : Script.step.runWith answers b1 with
        | none => simp [hs] at hr
        | some y =>
          rw [hs] at hr
          rw [h.runWith hs]
          obtain ⟨_ | _, b2⟩ := y
          · exact hr
          · exact ih hr (by omega)
      · exact ih hr (by omega)
      · exact hr

end Answers.Extends

theorem answer_extends (env : Environment κ σ) {n k : Nat} (h : n ≤ k) :
    Answers.Extends (answer env k) (answer env n) := by
  induction n generalizing k with
  | zero => intro c b r hr; cases c <;> cases hr
  | succ n ih =>
    obtain ⟨k, rfl⟩ : ∃ j, k = j + 1 := ⟨k - 1, by omega⟩
    have hn := ih (show n ≤ k by omega)
    intro c b r hr
    cases c with
    | serve o =>
      simp only [answer] at hr ⊢
      cases hs : serveOn (answer env n) env o b with
      | none => simp [hs] at hr
      | some b1 =>
        rw [hs] at hr
        rw [hn.serveOn hs]
        exact hr
    | loop m => exact hn.roundsOn hr (by omega)

/-- An outcome stays the same when the bound grows. -/
theorem Script.run_mono (env : Environment κ σ) {n k : Nat} (h : n ≤ k) {s : Script κ σ α}
    {b : Bench κ σ} {r : α × Bench κ σ} (hs : s.run env n b = some r) : s.run env k b = some r :=
  (answer_extends env h).runWith hs

/-- A script has one outcome. -/
theorem Script.run_unique (env : Environment κ σ) {n k : Nat} {s : Script κ σ α} {b : Bench κ σ}
    {r r' : α × Bench κ σ} (h : s.run env n b = some r) (h' : s.run env k b = some r') : r = r' := by
  have e := run_mono env (Nat.le_max_left n k) h
  rw [run_mono env (Nat.le_max_right n k) h'] at e
  exact (Option.some.inj e).symm

/-- On `b` the script has the result `a` and leaves `b'`. -/
def Script.Yields (env : Environment κ σ) (s : Script κ σ α) (b : Bench κ σ) (a : α)
    (b' : Bench κ σ) : Prop :=
  ∃ bound, s.run env bound b = some (a, b')

end Micro8051
