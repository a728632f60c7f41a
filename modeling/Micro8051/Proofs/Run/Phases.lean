/-
Phases of a run. At each moment a run is about to begin or to end, or it is between two rounds, or its
condition or one of its steps is in progress, with whatever runs inside them. A step fails before it
does anything, so a step that has done something comes to its end (`Script.Settles`).
-/
import Micro8051.Proofs.Moment.Outcome

namespace Micro8051

variable {κ σ α β : Type} {env : Environment κ σ}

/-! ## Results of scripts -/

namespace Script

/-- All results of a script satisfy `P`. -/
def Results (P : α → Prop) : Script κ σ α → Prop
  | .done x => P x
  | .look next => ∀ m w, (next m w).Results P
  | .act _ next => next.Results P
  | .call _ next => ∀ x, (next x).Results P

theorem Results.bind {P : β → Prop} {s : Script κ σ α} {k : α → Script κ σ β} (h : ∀ x, (k x).Results P) :
    (s >>= k).Results P := by
  rw [bind_eq_bind]
  induction s with
  | done x => exact h x
  | look next ih => exact fun m w => ih m w
  | act a next ih => exact ih
  | call c next ih => exact fun x => ih x

/-- A script that fails, if it does, before it acts or makes a call. -/
def Settles : Script κ σ (Except Fault Unit) → Prop
  | .done _ => True
  | .look next => ∀ m w, (next m w).Settles
  | .act _ next => next.Results (· = .ok ())
  | .call _ next => ∀ x, (next x).Results (· = .ok ())

theorem Results.settles {s : Script κ σ (Except Fault Unit)} (h : s.Results (· = .ok ())) : s.Settles := by
  induction s with
  | done x => trivial
  | look next ih => exact fun m w => ih m w (h m w)
  | act a next => exact h
  | call c next => exact h

theorem Settles.chip_bind {f : Chip → α} {k : α → Script κ σ (Except Fault Unit)} (h : ∀ x, (k x).Settles) :
    (chip f >>= k).Settles :=
  fun m _ => h (f m.chip)

theorem step_settles : (step : Script κ σ (Except Fault Unit)).Settles := by
  refine .chip_bind fun pc => .chip_bind fun fetched => ?_
  cases fetched with
  | error fault => trivial
  | ok d =>
    -- what is left to come after the fetch is `ok`, whatever the breakpoints do
    refine Results.settles (.bind fun _ => .bind fun now => ?_)
    split
    · exact .bind fun _ => .bind fun _ => .bind fun _ => rfl
    · exact .bind fun _ => rfl

/-- A script that makes no calls and has the result `x`. -/
def Ends (x : α) : Script κ σ α → Prop
  | .done y => y = x
  | .look next => ∀ m w, (next m w).Ends x
  | .act _ next => next.Ends x
  | .call _ _ => False

/-- A script that comes to the rounds of a run and has their result. -/
def Opens : Script κ σ (Except Fault Unit) → Prop
  | .done _ => False
  | .look next => ∀ m w, (next m w).Opens
  | .act _ next => next.Opens
  | .call (.serve _) _ => False
  | .call (.loop _) next => ∀ x, (next x).Ends x

/-- The scripts that run a machine until something ends the run. -/
inductive IsRun : Script κ σ (Except Fault Unit) → Prop where
  | paced : IsRun start
  | unpaced (g : Guard κ) : IsRun (unpacedRun g)
  | limited (limit : UInt64) : IsRun (runLimited limit)

theorem unpacedRun_opens (g : Guard κ) : (unpacedRun g : Script κ σ _).Opens := by
  intro x
  cases x with
  | ok u => rfl
  | error fault => rfl

theorem IsRun.opens {s : Script κ σ (Except Fault Unit)} (h : s.IsRun) : s.Opens := by
  cases h with
  | unpaced g => exact unpacedRun_opens g
  | limited limit => exact fun m w => unpacedRun_opens _
  | paced =>
    refine fun m w m' w' x => ?_
    cases x with
    | ok u => exact fun _ _ _ _ => rfl
    | error fault => rfl

end Script

/-! ## What is in progress -/

/-- What the script next to the bottom of a stack is run for. For a run this tells what is in progress: a
step, its condition, or neither. -/
def Stack.inProgress : {r : Role} → Stack κ σ α r → Role
  | _, .base => .whole
  | _, .telling _ _ _ below => if below.inProgress = .whole then .callback else below.inProgress
  | _, .checking _ _ below => if below.inProgress = .whole then .condition else below.inProgress
  | _, .stepping _ _ below => if below.inProgress = .whole then .step else below.inProgress

/-- A step or the condition of a run is in progress, with the script `s` at hand. A step has nothing but
`ok` to come to. -/
inductive Stack.Within : Role → {r : Role} → Script κ σ (r.Result (Except Fault Unit)) →
    Stack κ σ (Except Fault Unit) r → Prop
  | step {m : Mode κ} {s : Script κ σ (Except Fault Unit)}
      {next : Except Fault Unit → Script κ σ (Except Fault Unit)} (hs : s.Results (· = .ok ()))
      (hn : ∀ x, (next x).Ends x) : Within .step (r := .step) s (.stepping (r := .whole) m next .base)
  | condition {g : Guard κ} {s : Script κ σ Bool} {next : Except Fault Unit → Script κ σ (Except Fault Unit)}
      (hn : ∀ x, (next x).Ends x) : Within .condition (r := .condition) s (.checking (r := .whole) g next .base)
  | telling {ρ r : Role} {o : Occasion} {rest : List (Callback κ)} {s : Script κ σ Unit}
      {next : Script κ σ (r.Result (Except Fault Unit))} {below : Stack κ σ (Except Fault Unit) r}
      (h : Within ρ next below) : Within ρ (r := .callback) s (.telling o rest next below)
  | checking {ρ r : Role} {g : Guard κ} {s : Script κ σ Bool}
      {next : Except Fault Unit → Script κ σ (r.Result (Except Fault Unit))}
      {below : Stack κ σ (Except Fault Unit) r} (h : Within ρ (.call (.loop (.unpaced g)) next) below) :
      Within ρ (r := .condition) s (.checking g next below)
  | stepping {ρ r : Role} {m : Mode κ} {s : Script κ σ (Except Fault Unit)}
      {next : Except Fault Unit → Script κ σ (r.Result (Except Fault Unit))}
      {below : Stack κ σ (Except Fault Unit) r} (h : Within ρ (.call (.loop m) next) below) :
      Within ρ (r := .step) s (.stepping m next below)

/-- What a run is about. -/
inductive Phase where
  | opening
  /-- A round is about to begin. -/
  | between
  | checking
  /-- A step has begun and may fail. -/
  | fetching
  | executing
  | ended (x : Except Fault Unit)

/-- What is in progress in a phase. -/
def Phase.inProgress : Phase → Role
  | .opening => .whole
  | .between => .whole
  | .checking => .condition
  | .fetching => .step
  | .executing => .step
  | .ended _ => .whole

/-- A run is in a phase at a moment. -/
inductive Moment.At : Phase → Moment κ σ (Except Fault Unit) → Prop
  | opening {s : Script κ σ (Except Fault Unit)} {b : Bench κ σ} (hs : s.Opens) :
      At .opening ⟨.whole, s, .base, b⟩
  | between {m : Mode κ} {next : Except Fault Unit → Script κ σ (Except Fault Unit)} {b : Bench κ σ}
      (hn : ∀ x, (next x).Ends x) : At .between ⟨.whole, .call (.loop m) next, .base, b⟩
  | checking {M : Moment κ σ (Except Fault Unit)} (h : M.stack.Within .condition M.script) : At .checking M
  | fetching {m : Mode κ} {s : Script κ σ (Except Fault Unit)}
      {next : Except Fault Unit → Script κ σ (Except Fault Unit)} {b : Bench κ σ} (hs : s.Settles)
      (hn : ∀ x, (next x).Ends x) : At .fetching ⟨.step, s, .stepping (r := .whole) m next .base, b⟩
  | executing {M : Moment κ σ (Except Fault Unit)} (h : M.stack.Within .step M.script) : At .executing M
  | ended {s : Script κ σ (Except Fault Unit)} {b : Bench κ σ} {x : Except Fault Unit} (hs : s.Ends x) :
      At (.ended x) ⟨.whole, s, .base, b⟩

theorem Stack.Within.inProgress_eq {ρ r : Role} {s : Script κ σ (r.Result (Except Fault Unit))}
    {stack : Stack κ σ (Except Fault Unit) r} (h : stack.Within ρ s) : stack.inProgress = ρ ∧ ρ ≠ .whole := by
  induction h with
  | step _ _ => exact ⟨rfl, by decide⟩
  | condition _ => exact ⟨rfl, by decide⟩
  | telling _ ih => exact ⟨by rw [inProgress, ih.1, if_neg ih.2], ih.2⟩
  | checking _ ih => exact ⟨by rw [inProgress, ih.1, if_neg ih.2], ih.2⟩
  | stepping _ ih => exact ⟨by rw [inProgress, ih.1, if_neg ih.2], ih.2⟩

theorem Moment.At.inProgress_eq {p : Phase} {M : Moment κ σ (Except Fault Unit)} (h : M.At p) :
    M.stack.inProgress = p.inProgress := by
  cases h with
  | opening _ => rfl
  | between _ => rfl
  | checking h => exact h.inProgress_eq.1
  | fetching _ _ => rfl
  | executing h => exact h.inProgress_eq.1
  | ended _ => rfl

/-! ## From one phase to the next -/

/-- The phases that may come next, by whether a request to stop waits. -/
def Phase.next (pending : Bool) : Phase → Phase → Prop
  | .opening, _ => True
  | .between, p => pending → p = .ended (.ok ())
  | .checking, p => p = .checking ∨ p = .fetching ∨ p = .ended (.ok ())
  | .fetching, p => p = .fetching ∨ p = .executing ∨ p = .between ∨ ∃ fault, p = .ended (.error fault)
  | .executing, p => p = .executing ∨ p = .between
  | .ended x, p => p = .ended x

section Next

variable {ρ r : Role} {M M' : Moment κ σ (Except Fault Unit)}

namespace Stack.Within

variable {stack : Stack κ σ (Except Fault Unit) r}

/-- The script at hand may be replaced by one that has no further results. -/
theorem rest {s s' : Script κ σ (r.Result (Except Fault Unit))} (h : stack.Within ρ s)
    (hs : ∀ P, s.Results P → s'.Results P) : stack.Within ρ s' := by
  cases h with
  | step hok hn => exact .step (hs _ hok) hn
  | condition hn => exact .condition hn
  | telling h => exact .telling h
  | checking h => exact .checking h
  | stepping h => exact .stepping h

theorem look {next : Machine κ → σ → Script κ σ (r.Result (Except Fault Unit))} (h : stack.Within ρ (.look next))
    (m : Machine κ) (w : σ) : stack.Within ρ (next m w) :=
  h.rest fun _ hs => hs m w

theorem act {a : Act κ σ} {next : Script κ σ (r.Result (Except Fault Unit))} (h : stack.Within ρ (.act a next)) :
    stack.Within ρ next :=
  h.rest fun _ hs => hs

theorem answer {c : Call κ} {next : c.Answer → Script κ σ (r.Result (Except Fault Unit))}
    (h : stack.Within ρ (.call c next)) (x : c.Answer) : stack.Within ρ (next x) :=
  h.rest fun _ hs => hs x

theorem serve {o : Occasion} {next : Unit → Script κ σ (r.Result (Except Fault Unit))} {b : Bench κ σ}
    (h : stack.Within ρ (.call (.serve o) next)) :
    (Moment.serve env o (next ()) stack b).stack.Within ρ (Moment.serve env o (next ()) stack b).script := by
  unfold Moment.serve
  cases b.machine.registry.callbacks o.slot with
  | nil => exact h.answer ()
  | cons c rest => exact .telling (h.answer ())

theorem round {m : Mode κ} {next : Except Fault Unit → Script κ σ (r.Result (Except Fault Unit))} {b : Bench κ σ}
    (h : stack.Within ρ (.call (.loop m) next)) :
    (Moment.round env m next stack b).stack.Within ρ (Moment.round env m next stack b).script := by
  obtain ⟨-, e⟩ | ⟨-, -, b₁, -, -, e⟩ | ⟨-, -, source, b₁, -, -, e⟩ | ⟨-, g, rfl, e⟩ :=
    round_cases env m next stack b
  · rw [e]
    exact h.answer _
  · rw [e]
    exact .stepping h
  · rw [e]
    exact h
  · rw [e]
    exact .checking h

end Stack.Within

/-- What is in progress goes on, or it ends, and so does the run or another step or round begins. -/
theorem Stack.Within.advance (h : M.stack.Within ρ M.script) (hM : M.advance env = some M') :
    M'.stack.Within ρ M'.script ∨ (ρ = .step ∧ M'.At .between) ∨
      (ρ = .condition ∧ (M'.At .fetching ∨ M'.At (.ended (.ok ())))) := by
  obtain ⟨r, s, stack, b⟩ := M
  cases s with
  | look next => cases hM; exact .inl (h.look _ _)
  | act a next => cases hM; exact .inl h.act
  | call c next =>
    cases c with
    | serve o => cases hM; exact .inl h.serve
    | loop m => cases hM; exact .inl h.round
  | done x =>
    cases h with
    | step hs hn =>
      obtain rfl : x = .ok () := hs
      cases hM
      exact .inr (.inl ⟨rfl, .between hn⟩)
    | condition hn =>
      refine .inr (.inr ⟨rfl, ?_⟩)
      cases x with
      | false => cases hM; exact .inr (.ended (hn _))
      | true => cases hM; exact .inl (.fetching Script.step_settles hn)
    | telling h =>
      rename_i rest _ _
      cases rest with
      | nil => cases hM; exact .inl h
      | cons c rest => cases hM; exact .inl (.telling h)
    | checking h =>
      cases x with
      | false => cases hM; exact .inl (h.answer _)
      | true => cases hM; exact .inl (.stepping h)
    | stepping h =>
      cases x with
      | ok u => cases hM; exact .inl h
      | error fault => cases hM; exact .inl (h.answer _)

/-- A round begins: a waiting request to stop ends the run. -/
theorem Moment.round_at (env : Environment κ σ) {m : Mode κ} {next : Except Fault Unit → Script κ σ (Except Fault Unit)}
    {b : Bench κ σ} (hn : ∀ x, (next x).Ends x) :
    ∃ p, (Moment.round (r := .whole) env m next .base b).At p ∧ Phase.between.next b.stopPending p := by
  obtain ⟨-, e⟩ | ⟨hp, -, b₁, -, -, e⟩ | ⟨hp, -, source, b₁, -, -, e⟩ | ⟨hp, g, -, e⟩ :=
    round_cases (r := .whole) env m next .base b
  · rw [e]
    exact ⟨_, .ended (hn _), fun _ => rfl⟩
  · rw [e]
    exact ⟨_, .fetching Script.step_settles hn, fun h => absurd h hp⟩
  · rw [e]
    exact ⟨_, .between hn, fun h => absurd h hp⟩
  · rw [e]
    exact ⟨_, .checking (.condition hn), fun h => absurd h hp⟩

theorem Moment.At.advance {p : Phase} (h : M.At p) (hM : M.advance env = some M') :
    ∃ p', M'.At p' ∧ p.next M.bench.stopPending p' := by
  cases h with
  | @opening s b hs =>
    cases s with
    | done x => exact hs.elim
    | look next => cases hM; exact ⟨_, .opening (hs _ _), trivial⟩
    | act a next => cases hM; exact ⟨.opening, .opening hs, trivial⟩
    | call c next =>
      cases c with
      | serve o => exact hs.elim
      | loop m =>
        cases hM
        obtain ⟨p', h', -⟩ := Moment.round_at env (m := m) (b := b) hs
        exact ⟨p', h', trivial⟩
  | between hn => cases hM; exact Moment.round_at env hn
  | checking h =>
    obtain h | ⟨e, -⟩ | ⟨-, h | h⟩ := h.advance hM
    · exact ⟨_, .checking h, .inl rfl⟩
    · cases e
    · exact ⟨_, h, .inr (.inl rfl)⟩
    · exact ⟨_, h, .inr (.inr rfl)⟩
  | executing h =>
    obtain h | ⟨-, h⟩ | ⟨e, -⟩ := h.advance hM
    · exact ⟨_, .executing h, .inl rfl⟩
    · exact ⟨_, h, .inr rfl⟩
    · cases e
  | @fetching m s next b hs hn =>
    cases s with
    | done x =>
      cases x with
      | ok u => cases hM; exact ⟨_, .between hn, .inr (.inr (.inl rfl))⟩
      | error fault => cases hM; exact ⟨_, .ended (hn _), .inr (.inr (.inr ⟨fault, rfl⟩))⟩
    | look next' => cases hM; exact ⟨_, .fetching (hs _ _) hn, .inl rfl⟩
    | act a next' => cases hM; exact ⟨_, .executing (.step hs hn), .inr (.inl rfl)⟩
    | call c next' =>
      -- the step is about to make a call, and from here on it can only come to `ok`
      have h : (Stack.stepping (r := .whole) m next .base).Within .step (.call c next') := .step hs hn
      refine ⟨_, .executing ?_, .inr (.inl rfl)⟩
      cases c with
      | serve o => cases hM; exact h.serve
      | loop m' => cases hM; exact h.round
  | @ended s b x hs =>
    cases s with
    | done y => cases hM
    | look next => cases hM; exact ⟨_, .ended (hs _ _), rfl⟩
    | act a next => cases hM; exact ⟨.ended x, .ended hs, rfl⟩
    | call c next => exact hs.elim

/-- A run that is ending comes to its end with its result. -/
theorem Moment.At.reaches (env : Environment κ σ) {x : Except Fault Unit} (h : M.At (.ended x)) :
    ∃ b', M.Reaches env ⟨.whole, .done x, .base, b'⟩ := by
  cases h with
  | @ended s b _ hs =>
    induction s generalizing b with
    | done y =>
      obtain rfl : y = x := hs
      exact ⟨b, .refl⟩
    | look next ih =>
      obtain ⟨b', h⟩ := ih b.machine b.world (hs _ _) (b := b)
      exact ⟨b', .head rfl h⟩
    | act a next ih =>
      obtain ⟨b', h⟩ := ih hs (b := a.apply b)
      exact ⟨b', .head rfl h⟩
    | call c next => exact hs.elim

end Next

end Micro8051
