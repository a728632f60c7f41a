/-
Moments and outcomes. A script has an outcome exactly if its moments come to an end, and the last
moment shows it (`yields_iff_reaches`).

One direction is by induction on the bound of the outcome. For the other, a moment is given the
outcomes of its script followed by what goes on after it (`Moment.Yields`); going back from a moment
to the one before loses none of them.
-/
import Micro8051.Proofs.Moment.Advance

namespace Micro8051

variable {κ σ α : Type} {env : Environment κ σ} {r : Role} {b b₁ b₂ b' : Bench κ σ}

namespace Moment

/-- `M'` is `M`, or one of the moments after it. -/
def Reaches (env : Environment κ σ) : Moment κ σ α → Moment κ σ α → Prop :=
  Relation.ReflTransGen fun M M' => M.advance env = some M'

end Moment

open Moment

theorem reaches_of_moments {M : Nat → Moment κ σ α} {n : Nat}
    (hrun : ∀ k < n, (M k).advance env = some (M (k + 1))) :
    ∀ k ≤ n, (M 0).Reaches env (M k) := by
  intro k hk
  induction k with
  | zero => exact .refl
  | succ k ih => exact (ih (by omega)).tail (hrun k (by omega))

/-- The moments that a moment reaches are those after it. -/
theorem Moment.reaches_iff_exists_after {M M' : Moment κ σ α} : M.Reaches env M' ↔ ∃ k, M.after env k = M' := by
  constructor
  · intro h
    induction h with
    | refl => exact ⟨0, rfl⟩
    | tail _ hnext ih =>
      obtain ⟨k, rfl⟩ := ih
      exact ⟨k + 1, by rw [Moment.after, hnext, Option.getD_some]⟩
  · rintro ⟨k, rfl⟩
    induction k with
    | zero => exact .refl
    | succ k ih =>
      rw [Moment.after]
      cases hnext : (M.after env k).advance env with
      | none => exact ih
      | some N => exact ih.tail hnext

/-! ## From outcomes to moments -/

section Next

variable {next : Script κ σ (r.Result α)} {below : Stack κ σ α r} {o : Occasion}

theorem serve_of_nil (h : b.machine.registry.callbacks o.slot = []) :
    serve env o next below b = ⟨r, next, below, b⟩ := by
  unfold serve
  rw [h]

theorem serve_of_ne_nil (h : b.machine.registry.callbacks o.slot ≠ []) :
    serve env o next below b = tell env o (b.machine.registry.callbacks o.slot) next below
      { b with machine := b.machine.onRegistry fun g => g.enter o.slot } := by
  unfold serve
  split
  · exact absurd ‹_› h
  · rfl

end Next

/-- The moment after the beginning of a round of a run that turns out as a step, is skipped, or ends
the run. -/
def Moment.ofTurn (m : Mode κ) (next : Except Fault Unit → Script κ σ (r.Result α)) (below : Stack κ σ α r)
    (b : Bench κ σ) : Turn → Moment κ σ α
  | .step => ⟨.step, Script.step, .stepping m next below, b⟩
  | .skip => ⟨r, .call (.loop m) next, below, b⟩
  | .finish => ⟨r, next (.ok ()), below, b⟩

/-- Whatever `answers` answers, the moments of a call come to. -/
def Answers.Reached (answers : Answers κ σ) (env : Environment κ σ) : Prop :=
  ∀ (c : Call κ) (b b' : Bench κ σ) (x : c.Answer), answers c b = some (x, b') →
    ∀ {α : Type} {r : Role} (next : c.Answer → Script κ σ (r.Result α)) (below : Stack κ σ α r),
      Reaches env ⟨r, .call c next, below, b⟩ ⟨r, next x, below, b'⟩

namespace Answers.Reached

variable {answers : Answers κ σ}

theorem runWith (h : answers.Reached env) {s : Script κ σ (r.Result α)} {x : r.Result α}
    (hs : s.runWith answers b = some (x, b')) (below : Stack κ σ α r) :
    Reaches env ⟨r, s, below, b⟩ ⟨r, .done x, below, b'⟩ := by
  induction s generalizing b with
  | done a => cases hs; exact .refl
  | look next ih => exact .head rfl (ih _ _ hs)
  | act a next ih => exact .head rfl (ih hs)
  | call c next ih =>
    rw [Script.runWith] at hs
    cases hc : answers c b with
    | none => rw [hc] at hs; cases hs
    | some y =>
      rw [hc] at hs
      exact (h c b y.2 y.1 hc next below).trans (ih y.1 hs)

theorem tellAll (h : answers.Reached env) {o : Occasion} {cs : List (Callback κ)}
    (ht : tellAll answers env o cs b = some b') (next : Script κ σ (r.Result α)) (below : Stack κ σ α r) :
    Reaches env (tell env o cs next below b)
      ⟨r, next, below, { b' with machine := b'.machine.onRegistry Registry.leave }⟩ := by
  induction cs generalizing b with
  | nil => cases ht; exact .refl
  | cons c rest ih =>
    rw [Micro8051.tellAll] at ht
    cases hc : (c.respond env o).runWith answers b with
    | none => rw [hc] at ht; cases ht
    | some y =>
      rw [hc] at ht
      exact (h.runWith (r := .callback) hc (.telling o rest next below)).trans (.head rfl (ih ht))

theorem serveOn (h : answers.Reached env) {o : Occasion} (hs : serveOn answers env o b = some b')
    (next : Script κ σ (r.Result α)) (below : Stack κ σ α r) :
    Reaches env (serve env o next below b) ⟨r, next, below, b'⟩ := by
  unfold Micro8051.serveOn at hs
  split at hs
  · rename_i hc
    cases hs
    rw [serve_of_nil hc]
    exact .refl
  · rename_i hc
    cases ht : Micro8051.tellAll answers env o (b.machine.registry.callbacks o.slot)
        { b with machine := b.machine.onRegistry fun g => g.enter o.slot } with
    | none => simp only [ht] at hs; cases hs
    | some b₁ =>
      simp only [ht] at hs
      cases hs
      rw [serve_of_ne_nil hc]
      exact h.tellAll ht next below

/-- The beginning of a round leads to what the round turns out as. -/
theorem turnOn (h : answers.Reached env) {m : Mode κ} {t : Turn} (ht : turnOn answers env m b = some (t, b'))
    (next : Except Fault Unit → Script κ σ (r.Result α)) (below : Stack κ σ α r) :
    Reaches env ⟨r, .call (.loop m) next, below, b⟩ (ofTurn m next below b' t) := by
  refine .head (b := Moment.round env m next below b) rfl ?_
  unfold Micro8051.turnOn at ht
  unfold Moment.round
  split at ht
  · rename_i hp
    cases ht
    rw [if_pos hp]
    exact .refl
  · rename_i hp
    rw [if_neg hp]
    cases m with
    | paced =>
      simp only at ht ⊢
      generalize b.wait env.schedule = w at ht ⊢
      obtain ⟨_ | _ | source, b₁⟩ := w <;> · cases ht; exact .refl
    | unpaced g =>
      simp only at ht ⊢
      cases hg : (g.holds env).runWith answers b with
      | none => rw [hg] at ht; cases ht
      | some y =>
        obtain ⟨v, b₁⟩ := y
        rw [hg] at ht
        have hv := h.runWith (r := .condition) hg (.checking g next below)
        cases v <;> · cases ht; exact hv.tail rfl

theorem roundsOn (h : answers.Reached env) {m : Mode κ} {n : Nat} {x : Except Fault Unit}
    (hr : roundsOn answers env m n b = some (x, b')) (next : Except Fault Unit → Script κ σ (r.Result α))
    (below : Stack κ σ α r) : Reaches env ⟨r, .call (.loop m) next, below, b⟩ ⟨r, next x, below, b'⟩ := by
  induction n generalizing b with
  | zero => cases hr
  | succ n ih =>
    rw [Micro8051.roundsOn] at hr
    cases ht : Micro8051.turnOn answers env m b with
    | none => rw [ht] at hr; cases hr
    | some y =>
      rw [ht] at hr
      obtain ⟨t, b₁⟩ := y
      have hturn := h.turnOn ht next below
      cases t with
      | finish => cases hr; exact hturn
      | skip => exact hturn.trans (ih hr)
      | step =>
        simp only at hr
        cases hs : Script.step.runWith answers b₁ with
        | none => rw [hs] at hr; cases hr
        | some z =>
          obtain ⟨v, b₂⟩ := z
          rw [hs] at hr
          have hstep := hturn.trans (h.runWith (r := .step) hs (.stepping m next below))
          cases v with
          | error fault => cases hr; exact hstep.tail rfl
          | ok u => exact (hstep.tail rfl).trans (ih hr)

end Answers.Reached

theorem answer_reached (env : Environment κ σ) (n : Nat) : (answer env n).Reached env := by
  induction n with
  | zero => intro c b b' x hx; cases c <;> cases hx
  | succ n ih =>
    intro c b b' x hx α r next below
    cases c with
    | serve o =>
      rw [answer] at hx
      cases hs : serveOn (answer env n) env o b with
      | none => rw [hs] at hx; cases hx
      | some b₁ =>
        rw [hs] at hx
        cases hx
        exact .head rfl (ih.serveOn hs (next ()) below)
    | loop m => exact ih.roundsOn hx next below

/-! ## From moments to outcomes -/

/-- The outcomes of a script that are taken on by `rest`. -/
def Script.Leads {τ : Type} (env : Environment κ σ) (s : Script κ σ τ) (b : Bench κ σ)
    (rest : τ → Bench κ σ → Prop) : Prop :=
  ∃ x b₁, s.Yields env b x b₁ ∧ rest x b₁

theorem Script.leads_bind {τ ρ : Type} {s : Script κ σ τ} {k : τ → Script κ σ ρ} {rest : ρ → Bench κ σ → Prop} :
    (s >>= k).Leads env b rest ↔ s.Leads env b fun x b₁ => (k x).Leads env b₁ rest := by
  constructor
  · rintro ⟨y, b₂, h, hr⟩
    obtain ⟨x, b₁, hs, hk⟩ := Script.yields_bind.1 h
    exact ⟨x, b₁, hs, y, b₂, hk, hr⟩
  · rintro ⟨x, b₁, hs, y, b₂, hk, hr⟩
    exact ⟨y, b₂, Script.yields_bind.2 ⟨x, b₁, hs, hk⟩, hr⟩

/-- What goes on after the result of a step of a run. -/
def FromStep {τ : Type} (env : Environment κ σ) (m : Mode κ) (next : Except Fault Unit → Script κ σ τ)
    (rest : τ → Bench κ σ → Prop) : Except Fault Unit → Bench κ σ → Prop
  | .ok _, b => (Script.call (.loop m) next).Leads env b rest
  | .error fault, b => (next (.error fault)).Leads env b rest

/-- `x` and `b` lead to the result `a` and the bench `b'` by what goes on after them. -/
def Stack.Yields (env : Environment κ σ) (a : α) (b' : Bench κ σ) :
    {r : Role} → Stack κ σ α r → r.Result α → Bench κ σ → Prop
  | _, .base, x, b => x = a ∧ b = b'
  | _, .telling o rest next below, _, b =>
    ∃ b₁, Told env o rest b b₁ ∧
      next.Leads env { b₁ with machine := b₁.machine.onRegistry Registry.leave } (below.Yields env a b')
  | _, .checking g next below, true, b =>
    Script.step.Leads env b (FromStep env (.unpaced g) next (below.Yields env a b'))
  | _, .checking _ next below, false, b => (next (.ok ())).Leads env b (below.Yields env a b')
  | _, .stepping m next below, x, b => FromStep env m next (below.Yields env a b') x b

/-- The outcomes of a moment. -/
def Moment.Yields (env : Environment κ σ) (M : Moment κ σ α) (a : α) (b' : Bench κ σ) : Prop :=
  M.script.Leads env M.bench (M.stack.Yields env a b')

section Back

variable {τ : Type} {rest : τ → Bench κ σ → Prop} {next : Except Fault Unit → Script κ σ τ} {m : Mode κ}

theorem Script.leads_call {c : Call κ} {next : c.Answer → Script κ σ τ} :
    (Script.call c next).Leads env b rest ↔
      ∃ x b₁, (Script.ask c).Yields env b x b₁ ∧ (next x).Leads env b₁ rest :=
  Script.leads_bind (s := Script.ask c) (k := next)

theorem leads_of_finish (ht : Turned env m b .finish b₁) (h : (next (.ok ())).Leads env b₁ rest) :
    (Script.call (.loop m) next).Leads env b rest :=
  Script.leads_call.2 ⟨_, _, yields_loop_of_finish ht, h⟩

theorem leads_of_skip (ht : Turned env m b .skip b₁) (h : (Script.call (.loop m) next).Leads env b₁ rest) :
    (Script.call (.loop m) next).Leads env b rest := by
  obtain ⟨x, b₂, hx, h⟩ := Script.leads_call.1 h
  exact Script.leads_call.2 ⟨x, b₂, yields_loop_of_skip ht hx, h⟩

theorem leads_of_step (ht : Turned env m b .step b₁) (h : Script.step.Leads env b₁ (FromStep env m next rest)) :
    (Script.call (.loop m) next).Leads env b rest := by
  obtain ⟨x, b₂, hs, h⟩ := h
  cases x with
  | error fault => exact Script.leads_call.2 ⟨_, _, yields_loop_of_fail ht hs, h⟩
  | ok u =>
    obtain ⟨y, b₃, hy, h⟩ := Script.leads_call.1 h
    exact Script.leads_call.2 ⟨y, b₃, yields_loop_of_step ht hs hy, h⟩

end Back

section Moments

variable {a : α} {below : Stack κ σ α r}

theorem yields_tell {o : Occasion} {cs : List (Callback κ)} {next : Script κ σ (r.Result α)}
    (h : (tell env o cs next below b).Yields env a b') :
    (Stack.telling o cs next below).Yields env a b' () b := by
  cases cs with
  | nil => exact ⟨b, told_nil.2 rfl, h⟩
  | cons c rest =>
    obtain ⟨u, b₁, hc, b₂, ht, h⟩ := h
    exact ⟨b₂, told_cons.2 ⟨b₁, hc, ht⟩, h⟩

theorem yields_serve {o : Occasion} {next : Unit → Script κ σ (r.Result α)}
    (h : (serve env o (next ()) below b).Yields env a b') :
    (⟨r, .call (.serve o) next, below, b⟩ : Moment κ σ α).Yields env a b' := by
  rcases em (b.machine.registry.callbacks o.slot = []) with hc | hc
  · rw [serve_of_nil hc] at h
    exact Script.leads_call.2 ⟨(), b, Script.yields_serve_of_nil hc, h⟩
  · rw [serve_of_ne_nil hc] at h
    obtain ⟨b₁, ht, h⟩ := yields_tell h
    exact Script.leads_call.2 ⟨(), _, Script.yields_serve_of_told hc ht, h⟩

theorem yields_round {m : Mode κ} {next : Except Fault Unit → Script κ σ (r.Result α)}
    (h : (Moment.round env m next below b).Yields env a b') :
    (⟨r, .call (.loop m) next, below, b⟩ : Moment κ σ α).Yields env a b' := by
  obtain ⟨hp, e⟩ | ⟨hp, rfl, b₁, hw, -, e⟩ | ⟨hp, rfl, source, b₁, hw, -, e⟩ | ⟨hp, g, rfl, e⟩ :=
    round_cases env m next below b
  · rw [e] at h
    exact leads_of_finish (turned_finish hp) h
  · rw [e] at h
    exact leads_of_step ⟨0, turnOn_of_tick hp hw⟩ h
  · rw [e] at h
    exact leads_of_skip ⟨0, turnOn_of_interrupt hp hw⟩ h
  · rw [e] at h
    obtain ⟨v, b₁, hv, h⟩ := h
    cases v with
    | false => exact leads_of_finish (turned_unpaced (v := false) hp hv) h
    | true => exact leads_of_step (turned_unpaced (v := true) hp hv) h

/-- The outcomes of a moment are outcomes of the moment before. -/
theorem yields_of_advance {M M' : Moment κ σ α} (hM : M.advance env = some M') (h : M'.Yields env a b') :
    M.Yields env a b' := by
  obtain ⟨r, s, stack, b⟩ := M
  cases s with
  | done x =>
    refine ⟨x, b, Script.yields_pure.2 ⟨rfl, rfl⟩, ?_⟩
    cases stack with
    | base => cases hM
    | telling o cs next below => cases hM; exact yields_tell h
    | checking g next below => cases x <;> · cases hM; exact h
    | stepping m next below => cases x <;> · cases hM; exact h
  | look next =>
    cases hM
    obtain ⟨x, b₁, ⟨n, hx⟩, h⟩ := h
    exact ⟨x, b₁, ⟨n, hx⟩, h⟩
  | act c next =>
    cases hM
    obtain ⟨x, b₁, ⟨n, hx⟩, h⟩ := h
    exact ⟨x, b₁, ⟨n, hx⟩, h⟩
  | call c next =>
    cases c with
    | serve o => cases hM; exact yields_serve h
    | loop m => cases hM; exact yields_round h

theorem yields_of_reaches {M : Moment κ σ α} (h : M.Reaches env ⟨.whole, .done a, .base, b'⟩) :
    M.Yields env a b' := by
  induction h using Relation.ReflTransGen.head_induction_on with
  | refl => exact ⟨a, b', Script.yields_pure.2 ⟨rfl, rfl⟩, rfl, rfl⟩
  | head hM _ ih => exact yields_of_advance hM ih

end Moments

/-- A script has an outcome exactly if its moments come to an end, and the last one shows it. -/
theorem yields_iff_reaches {s : Script κ σ α} {a : α} :
    s.Yields env b a b' ↔ (start s b).Reaches env ⟨.whole, .done a, .base, b'⟩ := by
  constructor
  · rintro ⟨n, h⟩
    exact (answer_reached env n).runWith (r := .whole) h .base
  · intro h
    obtain ⟨x, b₁, hs, rfl, rfl⟩ := yields_of_reaches h
    exact hs

end Micro8051
