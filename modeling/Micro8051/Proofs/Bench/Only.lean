/-
Scripts that do only certain things. A property of benches that their acts and calls keep they keep as well,
and they come to an end where each of their calls does (`Script.Only.exists_yields`). What a machine does by
itself is to serve events, to store bytes, to move the program counter, to count and to report.
-/
import Micro8051.Proofs.Bench.Yields

namespace Micro8051

variable {κ σ α β : Type} {env : Environment κ σ} {P : Act κ σ → Prop} {Q : Call κ → Prop} {I : Bench κ σ → Prop}
  {b b' : Bench κ σ}

namespace Script

/-- All acts of a script satisfy `P`, and all its calls satisfy `Q`. -/
def Only (P : Act κ σ → Prop) (Q : Call κ → Prop) : Script κ σ α → Prop
  | .done _ => True
  | .look next => ∀ m w, (next m w).Only P Q
  | .act a next => P a ∧ next.Only P Q
  | .call c next => Q c ∧ ∀ x, (next x).Only P Q

/-! ## What such scripts keep -/

namespace Only

theorem keeps {answers : Answers κ σ} {s : Script κ σ α} {a : α} (h : s.Only P Q)
    (hact : ∀ x, P x → ∀ b, I b → I (x.apply b))
    (hcall : ∀ c, Q c → ∀ b x b', answers c b = some (x, b') → I b → I b')
    (hs : s.runWith answers b = some (a, b')) (hb : I b) : I b' := by
  induction s generalizing b with
  | done x =>
    cases hs
    exact hb
  | look next ih => exact ih _ _ (h _ _) hs hb
  | act x next ih => exact ih h.2 hs (hact x h.1 b hb)
  | call c next ih =>
    rw [runWith] at hs
    cases hc : answers c b with
    | none => rw [hc] at hs; cases hs
    | some y =>
      rw [hc] at hs
      exact ih y.1 (h.2 y.1) hs (hcall c h.1 b y.1 y.2 hc hb)

/-- Without runs, only the serving of events has to keep the property as well. -/
theorem keeps_of_serve {answers : Answers κ σ} {s : Script κ σ α} {a : α} (h : s.Only P fun c => ∀ m, c ≠ .loop m)
    (hact : ∀ x, P x → ∀ b, I b → I (x.apply b))
    (hserve : ∀ o b b', answers (.serve o) b = some ((), b') → I b → I b')
    (hs : s.runWith answers b = some (a, b')) (hb : I b) : I b' := by
  refine h.keeps hact ?_ hs hb
  intro c hc b₁ x b₂ hx
  cases c with
  | serve o => exact hserve o b₁ b₂ hx
  | loop m => exact absurd rfl (hc m)

/-- A script comes to an end if each of its calls does, on the benches that it comes to. -/
theorem exists_yields {s : Script κ σ α} (h : s.Only P Q) (hact : ∀ x, P x → ∀ b, I b → I (x.apply b))
    (hcall : ∀ c, Q c → ∀ b, I b → ∃ x b', (ask c).Yields env b x b' ∧ I b') (hb : I b) :
    ∃ a b', s.Yields env b a b' ∧ I b' := by
  induction s generalizing b with
  | done a => exact ⟨a, b, yields_pure.2 ⟨rfl, rfl⟩, hb⟩
  | look next ih => exact ih b.machine b.world (h _ _) hb
  | act x next ih => exact ih h.2 (hact x h.1 b hb)
  | call c next ih =>
    obtain ⟨x, b₁, hc, hb₁⟩ := hcall c h.1 b hb
    obtain ⟨a, b', hs, hb'⟩ := ih x (h.2 x) hb₁
    exact ⟨a, b', yields_bind.2 ⟨x, b₁, hc, hs⟩, hb'⟩

/-! ## Scripts in parts -/

theorem pure (a : α) : (Pure.pure a : Script κ σ α).Only P Q := trivial

theorem bind {s : Script κ σ α} {k : α → Script κ σ β} (h : s.Only P Q) (hk : ∀ a, (k a).Only P Q) :
    (s >>= k).Only P Q := by
  rw [bind_eq_bind]
  induction s with
  | done a => exact hk a
  | look next ih => exact fun m w => ih m w (h m w)
  | act a next ih => exact ⟨h.1, ih h.2⟩
  | call c next ih => exact ⟨h.1, fun x => ih x (h.2 x)⟩

theorem map {s : Script κ σ α} (h : s.Only P Q) (f : α → β) : (f <$> s).Only P Q := by
  rw [← bind_pure_comp]
  exact h.bind fun a => .pure (f a)

theorem view (f : Machine κ → σ → α) : (Script.view f : Script κ σ α).Only P Q := fun _ _ => trivial

theorem chip (f : Chip → α) : (Script.chip f : Script κ σ α).Only P Q := fun _ _ => trivial

theorem perform {a : Act κ σ} (h : P a) : (Script.perform a).Only P Q := ⟨h, trivial⟩

theorem ask {c : Call κ} (h : Q c) : (Script.ask c : Script κ σ c.Answer).Only P Q := ⟨h, fun _ => trivial⟩

end Only

/-! ## What machines do -/

/-- The acts `P` and the calls `Q` are enough for what a machine does by itself, but for counting. -/
structure Suffices (P : Act κ σ → Prop) (Q : Call κ → Prop) : Prop where
  serve : ∀ o, Q (.serve o)
  report : ∀ r, P (.report r)
  setData : ∀ addr v, P (.edit fun c => c.setData addr v)
  setXdata : ∀ addr v, P (.edit fun c => c.setXdata addr v)
  jump : ∀ pc, P (.edit fun c => c.jump pc)

namespace Suffices

variable (h : Suffices P Q)
include h

theorem read (addr : UInt8) : (Script.read addr).Only P Q :=
  (Only.chip _).bind fun v => (Only.ask (h.serve _)).bind fun _ => .pure v

theorem write (addr v : UInt8) : (Script.write addr v).Only P Q :=
  (Only.chip _).bind fun _ => (Only.ask (h.serve _)).bind fun _ => .perform (h.setData addr v)

theorem ofCycles (p : Cycles α) : (Script.ofCycles p).Only P Q := by
  induction p with
  | done a => exact .pure a
  | read addr next ih => exact (h.read addr).bind ih
  | write addr v next ih => exact (h.write addr v).bind fun _ => ih
  | bank next ih => exact (Only.chip Chip.bank).bind ih
  | readExternal addr next ih => exact (Only.chip _).bind ih
  | writeExternal addr v next ih => exact (Only.perform (h.setXdata addr v)).bind fun _ => ih

theorem execute (d : Decoded) : (Script.execute d).Only P Q :=
  (h.ofCycles d.cycles).bind fun pc => .perform (h.jump pc)

theorem visit (pc : UInt16) : (Script.visit pc).Only P Q := by
  refine (Only.view _).bind fun n => ?_
  have hserve : (Script.serve (.visiting pc)).Only P Q := .ask (h.serve _)
  dsimp only
  split
  · exact (Only.perform (h.report _)).bind fun _ => hserve
  · exact hserve

theorem step (hcount : P (.edit Chip.count)) : Script.step.Only P Q := by
  refine (Only.chip Chip.pc).bind fun pc => (Only.chip _).bind fun fetched => ?_
  cases fetched with
  | error fault => exact .pure _
  | ok d =>
    refine (h.visit pc).bind fun _ => (Only.chip Chip.pc).bind fun now => ?_
    dsimp only
    split
    · exact (Only.perform (h.report _)).bind fun _ => (h.execute d).bind fun _ =>
        (Only.perform hcount).bind fun _ => .pure _
    · exact (Only.perform (h.report _)).bind fun _ => .pure _

/-- A traced latch reports. -/
theorem latch (env : Environment κ σ) (r : Sfr) (o : Occasion) : ((Callback.latch r).respond env o).Only P Q := by
  cases o with
  | writing addr old new => exact (Only.chip Chip.pc).bind fun pc => .perform (h.report _)
  | reading addr v => exact .pure ()
  | visiting pc => exact .pure ()

end Suffices

end Script

/-! ## Callbacks that do only certain things -/

/-- All that the callbacks do satisfies `P`, and they start no runs. -/
def Environment.Only (P : Act κ σ → Prop) (env : Environment κ σ) : Prop :=
  ∀ c o, (env.respond c o).Only P fun d => ∀ m, d ≠ .loop m

namespace Environment.Only

variable (h : env.Only P) (hP : Script.Suffices P fun d : Call κ => ∀ m, d ≠ .loop m)
  (hact : ∀ x, P x → ∀ b, I b → I (x.apply b)) (hreg : ∀ b f, I b → I { b with machine := b.machine.onRegistry f })
include h hP

theorem respond (c : Callback κ) (o : Occasion) : (c.respond env o).Only P fun d => ∀ m, d ≠ .loop m := by
  cases c with
  | custom c => exact h c o
  | latch r => exact hP.latch env r o

include hact

theorem keeps_tellAll {answers : Answers κ σ} (hserve : ∀ o b b', answers (.serve o) b = some ((), b') → I b → I b')
    {o : Occasion} {cs : List (Callback κ)} (ht : tellAll answers env o cs b = some b') (hb : I b) : I b' := by
  induction cs generalizing b with
  | nil =>
    cases ht
    exact hb
  | cons c rest ih =>
    rw [tellAll] at ht
    cases hc : (c.respond env o).runWith answers b with
    | none => rw [hc] at ht; cases ht
    | some y =>
      rw [hc] at ht
      exact ih ht ((h.respond hP c o).keeps_of_serve hact hserve hc hb)

include hreg

theorem keeps_answer (n : Nat) : ∀ o b b', answer env n (.serve o) b = some ((), b') → I b → I b' := by
  induction n with
  | zero => intro o b b' hx; cases hx
  | succ n ih =>
    intro o b b' hx hb
    rw [answer] at hx
    cases hs : serveOn (answer env n) env o b with
    | none => rw [hs] at hx; cases hx
    | some b₁ =>
      rw [hs] at hx
      cases hx
      unfold serveOn at hs
      split at hs
      · cases hs
        exact hb
      · split at hs
        · cases hs
        · rename_i b₂ ht
          cases hs
          exact hreg _ _ (h.keeps_tellAll hP hact ih ht (hreg _ _ hb))

/-- What the callbacks keep, scripts that do no more than they do keep as well. -/
theorem keeps {s : Script κ σ α} (hs : s.Only P fun d => ∀ m, d ≠ .loop m) {a : α} (hy : s.Yields env b a b')
    (hb : I b) : I b' := by
  obtain ⟨n, hy⟩ := hy
  exact hs.keeps_of_serve hact (h.keeps_answer hP hact hreg n) hy hb

end Environment.Only

end Micro8051
