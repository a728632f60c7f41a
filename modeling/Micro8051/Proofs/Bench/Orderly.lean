/-
Scripts on machines without hooks. An idle script leaves the chip as it is, but for a request to stop,
and the registry as well. An orderly script may also take steps and start runs, and its acts are those
of a given kind. A step looks for its instruction first, then visits it, then announces and executes it;
what it looks up and reports on the way is the same to the machine as nothing (`Script.Approaches`).
-/
import Micro8051.Bench.Quiet
import Micro8051.Proofs.Bench.Only
import Micro8051.Proofs.Chip.Frame
import Micro8051.Proofs.Run.Phases

namespace Micro8051

variable {κ σ α β : Type}

/-! ## Chips and requests to stop -/

namespace Chip

/-- The chip but for a request to stop. -/
def core (c : Chip) : Chip := c.onPacer Pacer.dropStop

theorem pc_eq_of_core {c c' : Chip} (h : c.core = c') : c.pc = c'.pc := h ▸ rfl

theorem code_eq_of_core {c c' : Chip} (h : c.core = c') : c.code = c'.code := h ▸ rfl

end Chip

/-- Cycles do not look at the pacer. -/
theorem Cycles.onChip_onPacer (p : Cycles α) (c : Chip) (f : Pacer → Pacer) :
    p.onChip (c.onPacer f) = ((p.onChip c).1, (p.onChip c).2.onPacer f) := by
  induction p generalizing c with
  | done a => rfl
  | read addr next ih => exact ih _ c
  | write addr v next ih => exact ih (c.setData addr v)
  | bank next ih => exact ih _ c
  | readExternal addr next ih => exact ih _ c
  | writeExternal addr v next ih => exact ih (c.setXdata addr v)

theorem Chip.stepped_onPacer (c : Chip) (f : Pacer → Pacer) : (c.onPacer f).stepped = c.stepped.onPacer f := by
  have hsame : (c.onPacer f).current? = c.current? := rfl
  cases hd : c.current? with
  | none => rw [stepped_of_current?_eq_none hd, stepped_of_current?_eq_none (hsame.trans hd)]
  | some d =>
    rw [stepped_of_current? hd, stepped_of_current? (hsame.trans hd), execute, execute, Cycles.onChip_onPacer]
    rfl

theorem Chip.core_stepped (c : Chip) : c.stepped.core = c.core.stepped := (c.stepped_onPacer _).symm

/-! ## Acts and scripts -/

/-- An act that leaves the chip as it is, but for a request to stop, and the registry as well. Only a step
announces an instruction. -/
def Act.Idle : Act κ σ → Prop
  | .edit f => ∀ c, (f c).core = c.core
  | .report r => ∀ pc mnemonic, r ≠ .executing pc mnemonic
  | .remember _ | .raise _ | .dropInterrupt => True
  | .register .. | .clearHooks | .clearBreakpoints => False

/-- An act that registers no hook. -/
def Act.Hookless : Act κ σ → Prop
  | .register s _ => s.isHook = false
  | .report r => ∀ pc mnemonic, r ≠ .executing pc mnemonic
  | _ => True

theorem Act.Idle.hookless {a : Act κ σ} (h : a.Idle) : a.Hookless := by
  cases a with
  | report r => exact h
  | register s c => exact h.elim
  | _ => trivial

/-- A call that an access to memory makes. -/
def Call.IsAccess : Call κ → Prop
  | .serve o => o.slot.isHook
  | .loop _ => False

/-- If the run goes on as long as a condition of the caller's holds, the condition is one of `C`. -/
def Mode.Under (C : κ → Prop) (m : Mode κ) : Prop := ∀ c, m = .unpaced (.tripwire c) → C c

namespace Script

variable {P : Act κ σ → Prop} {C : κ → Prop}

/-- A script that changes nothing, but may request a stop. -/
@[reducible] def Idle (s : Script κ σ α) : Prop := s.Only Act.Idle Call.IsAccess

/-- A script that visits no instruction but by taking steps, and whose other acts satisfy `P`. It may start
runs, if their conditions are among `C`. -/
inductive Orderly (P : Act κ σ → Prop) (C : κ → Prop) : Script κ σ α → Prop where
  | done (a : α) : Orderly P C (.done a)
  | look {next : Machine κ → σ → Script κ σ α} (h : ∀ m w, Orderly P C (next m w)) : Orderly P C (.look next)
  | act {a : Act κ σ} {next : Script κ σ α} (ha : P a) (h : Orderly P C next) : Orderly P C (.act a next)
  | access {o : Occasion} {next : Unit → Script κ σ α} (ho : o.slot.isHook) (h : Orderly P C (next ())) :
      Orderly P C (.call (.serve o) next)
  | loop {m : Mode κ} {next : Except Fault Unit → Script κ σ α} (hm : m.Under C) (h : ∀ x, Orderly P C (next x)) :
      Orderly P C (.call (.loop m) next)
  | step {s : Script κ σ α} {k : Except Fault Unit → Script κ σ α} (hs : s = Script.step >>= k)
      (h : ∀ x, Orderly P C (k x)) : Orderly P C s

namespace Orderly

theorem bind {s : Script κ σ α} {k : α → Script κ σ β} (h : s.Orderly P C) (hk : ∀ a, (k a).Orderly P C) :
    (s >>= k).Orderly P C := by
  induction h with
  | done a => exact hk a
  | look _ ih => exact .look ih
  | act ha _ ih => exact .act ha ih
  | access ho _ ih => exact .access ho ih
  | loop hm _ ih => exact .loop hm ih
  | step hs _ ih =>
    rw [hs]
    exact .step (bind_assoc _ _ _) ih

theorem dropRequests (hP : ∀ a : Act κ σ, a.Idle → P a) : (dropRequests : Script κ σ Unit).Orderly P C :=
  .act (hP _ fun _ => rfl) (.act (hP _ trivial) (.done ()))

theorem report {r : Record} (hP : ∀ a : Act κ σ, a.Idle → P a) (hr : ∀ pc mnemonic, r ≠ .executing pc mnemonic) :
    (report r : Script κ σ Unit).Orderly P C :=
  .act (hP (.report r) hr) (.done ())

theorem unpacedRun (hP : ∀ a : Act κ σ, a.Idle → P a) {g : Guard κ} (hg : (Mode.unpaced g).Under C) :
    (unpacedRun g : Script κ σ (Except Fault Unit)).Orderly P C := by
  refine (dropRequests hP).bind fun _ => .loop hg fun x => ?_
  cases x with
  | ok u => exact .done _
  | error fault => exact (report hP (by rintro _ _ ⟨⟩)).bind fun _ => .done _

theorem start (hP : ∀ a : Act κ σ, a.Idle → P a) : (start : Script κ σ (Except Fault Unit)).Orderly P C := by
  refine (dropRequests hP).bind fun _ => .look fun m _ => .look fun m' _ => ?_
  refine (report hP (by rintro _ _ ⟨⟩)).bind fun _ => .loop (by rintro _ ⟨⟩) fun x => ?_
  cases x with
  | ok u => exact .look fun m _ => .look fun m' _ => (report hP (by rintro _ _ ⟨⟩)).bind fun _ => .done _
  | error fault => exact (report hP (by rintro _ _ ⟨⟩)).bind fun _ => .done _

theorem isRun (hP : ∀ a : Act κ σ, a.Idle → P a) {s : Script κ σ (Except Fault Unit)} (hs : s.IsRun)
    (hC : ∀ c, s = runWhile c → C c) : s.Orderly P C := by
  cases hs with
  | paced => exact start hP
  | unpaced g =>
    refine unpacedRun hP ?_
    rintro c ⟨⟩
    exact hC c rfl
  | limited limit => exact .look fun m _ => unpacedRun hP (by rintro _ ⟨⟩)

/-- The condition of a run is orderly if those of the caller's are. -/
theorem holds {env : Environment κ σ} (h : ∀ c, C c → (env.holds c).Orderly P C) {g : Guard κ}
    (hg : (Mode.unpaced g).Under C) : (g.holds env).Orderly P C := by
  cases g with
  | always => exact .done true
  | below start limit => exact .look fun _ _ => .done _
  | tripwire c => exact h c (hg c rfl)

end Orderly

/-! ## The parts of a step -/

/-- On a machine `m` with world `w` the script comes to `t` by looking and reporting alone. -/
inductive Approaches (m : Machine κ) (w : σ) : Script κ σ α → Script κ σ α → Prop where
  | refl (s : Script κ σ α) : Approaches m w s s
  | look {next : Machine κ → σ → Script κ σ α} {t : Script κ σ α} (h : Approaches m w (next m w) t) :
      Approaches m w (.look next) t
  | report {r : Record} {next t : Script κ σ α} (hr : ∀ pc mnemonic, r ≠ .executing pc mnemonic)
      (h : Approaches m w next t) : Approaches m w (.act (.report r) next) t

/-- What is left of a step at `pc` when its breakpoints have run. -/
def afterVisit (pc : UInt16) (d : Decoded) : Script κ σ (Except Fault Unit) := do
  let now ← chip Chip.pc
  if now = pc then
    report (.executing pc d.row.mnemonic)
    execute d
    edit Chip.count
  else
    report (.dropped pc d.row.mnemonic now)
  return .ok ()

/-- What is left of a step when the program counter is known. -/
def stepAt (pc : UInt16) : Script κ σ (Except Fault Unit) := do
  match ← chip fun c => fetch c.code pc with
  | .error fault => return .error fault
  | .ok d =>
    visit pc
    afterVisit pc d

theorem step_eq : (step : Script κ σ _) = chip Chip.pc >>= stepAt := rfl

/-- An instruction that is executed and counted. -/
def carryOut (d : Decoded) : Script κ σ Unit := do
  execute d
  edit Chip.count

section Parts

variable {m : Machine κ} {w : σ} {pc : UInt16} {d : Decoded} {k : Except Fault Unit → Script κ σ α}

theorem stepAt_approaches_of_error {fault : Fault} (hf : fetch m.chip.code pc = .error fault) :
    (stepAt pc >>= k).Approaches m w (k (.error fault)) := by
  refine .look ?_
  simp only [hf]
  exact .refl _

/-- Where there is an instruction, a step comes to its breakpoints. -/
theorem stepAt_approaches_of_ok (hf : fetch m.chip.code pc = .ok d) :
    (stepAt pc >>= k).Approaches m w (.call (.serve (.visiting pc)) fun _ => afterVisit pc d >>= k) := by
  refine .look ?_
  simp only [hf]
  refine .look ?_
  dsimp only [Script.bind]
  by_cases hn : m.registry.count (.visit pc) ≠ 0
  · rw [if_pos hn]
    exact .report (by rintro _ _ ⟨⟩) (.refl _)
  · rw [if_neg hn]
    exact .refl _

/-- If the program counter has not moved, the instruction is announced and carried out. -/
theorem afterVisit_approaches (hpc : m.chip.pc = pc) :
    (afterVisit pc d >>= k).Approaches m w
      (.act (.report (.executing pc d.row.mnemonic)) (carryOut d >>= fun _ => k (.ok ()))) := by
  refine .look ?_
  dsimp only [Script.bind]
  rw [if_pos hpc]
  -- carrying out and counting are the two parts that the step has left
  have hrest : (carryOut d >>= fun _ => k (.ok ())) =
      ((execute d >>= fun _ => edit Chip.count >>= fun _ => pure (.ok ())) >>= k) := by
    simp only [carryOut, bind_eq_bind, bind_assoc]
    rfl
  rw [hrest]
  exact .refl _

end Parts

/-! ## Instructions that nobody watches -/

/-- Events are served without a callback; runs are left aside. -/
def unheard : Answers κ σ
  | .serve _, b => some ((), b)
  | .loop _, _ => none

theorem runWith_ofCycles_unheard (p : Cycles α) (b : Bench κ σ) :
    (ofCycles p).runWith unheard b = some ((p.onChip b.machine.chip).1, b.withChip (p.onChip b.machine.chip).2) := by
  induction p generalizing b with
  | done a => rfl
  | read addr next ih => exact ih _ b
  | write addr v next ih => exact ih (b.withChip (b.machine.chip.setData addr v))
  | bank next ih => exact ih _ b
  | readExternal addr next ih => exact ih _ b
  | writeExternal addr v next ih => exact ih (b.withChip (b.machine.chip.setXdata addr v))

theorem runWith_carryOut_unheard (d : Decoded) (b : Bench κ σ) :
    (carryOut d).runWith unheard b = some ((), b.withChip (b.machine.chip.execute d).count) := by
  rw [carryOut, execute, runWith_bind, runWith_bind, runWith_ofCycles_unheard]
  rfl

/-- An instruction accesses memory and changes the chip, and nothing else. -/
theorem carryOut_only (d : Decoded) :
    (carryOut d : Script κ σ Unit).Only (fun a => ∃ f, a = .edit f) Call.IsAccess := by
  have hcycles : ∀ p : Cycles UInt16, (ofCycles p : Script κ σ _).Only (fun a => ∃ f, a = .edit f) Call.IsAccess := by
    intro p
    induction p with
    | done a => trivial
    | read addr next ih => exact fun m w => ⟨rfl, fun _ => ih _⟩
    | write addr v next ih => exact fun m w => ⟨rfl, fun _ => ⟨⟨_, rfl⟩, ih⟩⟩
    | bank next ih => exact fun m w => ih _
    | readExternal addr next ih => exact fun m w => ih _
    | writeExternal addr v next ih => exact ⟨⟨_, rfl⟩, ih⟩
  exact ((hcycles d.cycles).bind fun pc => .perform ⟨_, rfl⟩).bind fun _ => .perform ⟨_, rfl⟩

end Script

end Micro8051
