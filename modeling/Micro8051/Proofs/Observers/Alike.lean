/-
Scripts that do alike. Two scripts are alike if they do the same where they find the same chip and the same
part of the world, whatever else they find; they may report different things. A script that is alike to
itself looks neither at the registry nor at the rest of the world. All that a machine does is of this kind:
its accesses, steps and runs. Only the report of a visit tells how many callbacks there are.
-/
import Micro8051.Proofs.Run.Rounds

namespace Micro8051

variable {κ σ τ α β : Type} {others : σ → τ}

/-- Two changes that come to the same in the part of the world that `others` shows. -/
inductive Act.Alike (others : σ → τ) : Act κ σ → Act κ σ → Prop
  | edit (f : Chip → Chip) : Alike others (.edit f) (.edit f)
  | remember {f f' : σ → σ} (h : ∀ w w', others w = others w' → others (f w) = others (f' w')) :
      Alike others (.remember f) (.remember f')
  | report (r r' : Record) : Alike others (.report r) (.report r')
  | register (s : Slot) (c : κ) : Alike others (.register s c) (.register s c)
  | clearHooks : Alike others .clearHooks .clearHooks
  | clearBreakpoints : Alike others .clearBreakpoints .clearBreakpoints
  | raise (source : UInt8) : Alike others (.raise source) (.raise source)
  | dropInterrupt : Alike others .dropInterrupt .dropInterrupt

namespace Script

/-- Two scripts that do the same where they find the same chip and the same part of the world. -/
inductive Alike (others : σ → τ) : Script κ σ α → Script κ σ α → Prop
  | done (a : α) : Alike others (.done a) (.done a)
  | look {next next' : Machine κ → σ → Script κ σ α}
      (h : ∀ m m' w w', m.chip = m'.chip → others w = others w' → Alike others (next m w) (next' m' w')) :
      Alike others (.look next) (.look next')
  | act {a a' : Act κ σ} {s s' : Script κ σ α} (ha : a.Alike others a') (h : Alike others s s') :
      Alike others (.act a s) (.act a' s')
  | reportLeft (r : Record) {s s' : Script κ σ α} (h : Alike others s s') : Alike others (.act (.report r) s) s'
  | reportRight (r : Record) {s s' : Script κ σ α} (h : Alike others s s') : Alike others s (.act (.report r) s')
  | call (c : Call κ) {next next' : c.Answer → Script κ σ α} (h : ∀ x, Alike others (next x) (next' x)) :
      Alike others (.call c next) (.call c next')

/-- A script that looks at the chip and at a part of the world only. -/
def Discreet (others : σ → τ) (s : Script κ σ α) : Prop := s.Alike others s

/-! ## Scripts in parts -/

theorem Alike.bind {s s' : Script κ σ α} {k k' : α → Script κ σ β} (h : s.Alike others s')
    (hk : ∀ a, (k a).Alike others (k' a)) : (s >>= k).Alike others (s' >>= k') := by
  rw [bind_eq_bind, bind_eq_bind]
  induction h with
  | done a => exact hk a
  | look _ ih => exact .look ih
  | act ha _ ih => exact .act ha ih
  | reportLeft r _ ih => exact .reportLeft r ih
  | reportRight r _ ih => exact .reportRight r ih
  | call c _ ih => exact .call c ih

namespace Discreet

theorem pure (a : α) : (Pure.pure a : Script κ σ α).Discreet others := .done a

theorem bind {s : Script κ σ α} {k : α → Script κ σ β} (h : s.Discreet others) (hk : ∀ a, (k a).Discreet others) :
    (s >>= k).Discreet others :=
  Alike.bind h hk

theorem map {s : Script κ σ α} (h : s.Discreet others) (f : α → β) : (f <$> s).Discreet others := by
  rw [← bind_pure_comp]
  exact h.bind fun a => .pure (f a)

theorem chip (f : Chip → α) : (Script.chip f : Script κ σ α).Discreet others := by
  refine .look fun m m' w w' hm _ => ?_
  rw [hm]
  exact .done _

theorem perform {a : Act κ σ} (h : a.Alike others a) : (Script.perform a).Discreet others := .act h (.done ())

theorem ask (c : Call κ) : (Script.ask c : Script κ σ c.Answer).Discreet others := .call c fun x => .done x

/-! ## What machines do -/

theorem read (addr : UInt8) : (Script.read addr : Script κ σ UInt8).Discreet others :=
  (chip _).bind fun v => (ask (.serve (.reading addr v))).bind fun _ => .pure v

theorem write (addr v : UInt8) : (Script.write addr v : Script κ σ Unit).Discreet others :=
  (chip _).bind fun old => (ask (.serve (.writing addr old v))).bind fun _ => perform (.edit _)

theorem ofCycles (p : Cycles α) : (Script.ofCycles p : Script κ σ α).Discreet others := by
  induction p with
  | done a => exact .pure a
  | read addr next ih => exact (read addr).bind ih
  | write addr v next ih => exact (write addr v).bind fun _ => ih
  | bank next ih => exact (chip Chip.bank).bind ih
  | readExternal addr next ih => exact (chip _).bind ih
  | writeExternal addr v next ih => exact (perform (.edit _)).bind fun _ => ih

theorem execute (d : Decoded) : (Script.execute d : Script κ σ Unit).Discreet others :=
  (ofCycles d.cycles).bind fun _ => perform (.edit _)

/-- Callbacks are told of a visit alike, but how many there are is reported. -/
theorem visit (pc : UInt16) : (Script.visit pc : Script κ σ Unit).Discreet others := by
  refine .look fun m m' w w' _ _ => ?_
  have hserve : (Script.serve (.visiting pc) : Script κ σ Unit).Discreet others := ask _
  dsimp only [Script.bind]
  split
  · split
    · exact .act (.report _ _) hserve
    · exact .reportLeft _ hserve
  · split
    · exact .reportRight _ hserve
    · exact hserve

theorem step : (Script.step : Script κ σ (Except Fault Unit)).Discreet others := by
  refine (chip Chip.pc).bind fun pc => (chip _).bind fun fetched => ?_
  cases fetched with
  | error fault => exact .pure _
  | ok d =>
    refine (visit pc).bind fun _ => (chip Chip.pc).bind fun now => ?_
    split
    · exact (perform (.report _ _)).bind fun _ => (execute d).bind fun _ =>
        (perform (.edit _)).bind fun _ => .pure _
    · exact (perform (.report _ _)).bind fun _ => .pure _

theorem dropRequests : (Script.dropRequests : Script κ σ Unit).Discreet others :=
  (perform (.edit _)).bind fun _ => perform .dropInterrupt

theorem unpacedRun (g : Guard κ) : (Script.unpacedRun g : Script κ σ (Except Fault Unit)).Discreet others := by
  refine dropRequests.bind fun _ => (ask _).bind fun r => ?_
  cases r with
  | ok u => exact .pure _
  | error fault => exact (perform (.report _ _)).bind fun _ => .pure _

theorem start : (Script.start : Script κ σ (Except Fault Unit)).Discreet others := by
  refine dropRequests.bind fun _ => (chip Chip.pc).bind fun pc => (chip _).bind fun period =>
    (perform (.report _ _)).bind fun _ => (ask _).bind fun r => ?_
  cases r with
  | ok u => exact (chip _).bind fun _ => (chip _).bind fun _ => (perform (.report _ _)).bind fun _ => .pure _
  | error fault => exact (perform (.report _ _)).bind fun _ => .pure _

theorem run (run : Run κ) : (run.script : Script κ σ (Except Fault Unit)).Discreet others := by
  cases run with
  | paced => exact start
  | unpaced g => exact unpacedRun g
  | limited limit => exact (chip Chip.executed).bind fun n => unpacedRun (.below n limit)

end Discreet

end Script

end Micro8051
