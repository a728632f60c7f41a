/-
Steps that fail. A step fails exactly if there is no instruction to fetch, and then nothing else happens: no
callback runs, and everything is as it was. A run fails with the step that fails, whatever callbacks and the
condition of the run did to the program before, and leaves the machine as that step found it.
-/
import Micro8051.Proofs.Machine.Unwatched
import Micro8051.Proofs.Moment.Registry
import Micro8051.Proofs.Run.Phases
import Micro8051.Proofs.Run.Rounds

namespace Micro8051

variable {κ σ α : Type} {env : Environment κ σ} {m : Mode κ} {b b' : Bench κ σ} {r : Except Fault Unit} {fault : Fault}

/-! ## Steps -/

namespace Script

/-- What holds of all results of a script holds of the one it yields. -/
theorem Results.of_yields {P : α → Prop} {s : Script κ σ α} {a : α} (h : s.Results P) (hs : s.Yields env b a b') :
    P a := by
  obtain ⟨n, hs⟩ := hs
  unfold run at hs
  induction s generalizing b with
  | done x => cases hs; exact h
  | look next ih => exact ih _ _ (h _ _) hs
  | act c next ih => exact ih h hs
  | call c next ih =>
    rw [runWith] at hs
    cases hc : answer env n c b with
    | none => rw [hc] at hs; cases hs
    | some x =>
      rw [hc] at hs
      exact ih x.1 (h x.1) hs

/-- With an instruction to execute, a step does not fail. -/
theorem ok_of_yields_step {d : Decoded} (hf : fetch b.machine.chip.code b.machine.chip.pc = .ok d)
    (h : step.Yields env b r b') : r = .ok () := by
  unfold step at h
  obtain ⟨_, _, hpc, h⟩ := yields_bind.1 h
  obtain ⟨rfl, rfl⟩ := yields_chip.1 hpc
  obtain ⟨_, _, hd, h⟩ := yields_bind.1 h
  obtain ⟨rfl, rfl⟩ := yields_chip.1 hd
  simp only [hf] at h
  refine Results.of_yields (P := (· = .ok ())) ?_ h
  refine .bind fun _ => .bind fun now => ?_
  split
  · exact .bind fun _ => .bind fun _ => .bind fun _ => rfl
  · exact .bind fun _ => rfl

theorem yields_step_error_iff : step.Yields env b (.error fault) b' ↔
    fetch b.machine.chip.code b.machine.chip.pc = .error fault ∧ b' = b := by
  constructor
  · intro h
    cases hf : fetch b.machine.chip.code b.machine.chip.pc with
    | ok d => cases ok_of_yields_step hf h
    | error fault' =>
      obtain ⟨e, rfl⟩ := h.unique (yields_step_of_fault hf)
      cases e
      exact ⟨rfl, rfl⟩
  · rintro ⟨hf, rfl⟩
    exact yields_step_of_fault hf

end Script

/-- A step that fails does so by itself: at no moment does anything else run, or is anything changed. -/
theorem moments_of_failing_step (hf : fetch b.machine.chip.code b.machine.chip.pc = .error fault)
    {M : Moment κ σ (Except Fault Unit)} (h : (Moment.start Script.step b).Reaches env M) :
    M.role = .whole ∧ M.told? = none ∧ M.bench = b := by
  -- the moments before and after the program counter is looked at, and the one after the fetch
  obtain rfl | ⟨M₁, hM₁, h⟩ := h.cases_head
  · exact ⟨rfl, rfl, rfl⟩
  cases hM₁
  obtain rfl | ⟨M₂, hM₂, h⟩ := h.cases_head
  · exact ⟨rfl, rfl, rfl⟩
  obtain rfl : M₂ = ⟨.whole, .done (.error fault), .base, b⟩ := by
    rw [← Option.some.inj hM₂]
    simp only [hf]
    rfl
  obtain rfl | ⟨M₃, hM₃, -⟩ := h.cases_head
  · exact ⟨rfl, rfl, rfl⟩
  · cases hM₃

/-- Where a step fails, all further steps fail alike. -/
theorem yields_step_of_steps (hf : fetch b.machine.chip.code b.machine.chip.pc = .error fault)
    (h : Relation.ReflTransGen (Bench.Next env) b b') : b' = b ∧ Script.step.Yields env b' (.error fault) b' := by
  induction h with
  | refl => exact ⟨rfl, Script.yields_step_of_fault hf⟩
  | tail _ hn ih =>
    obtain ⟨rfl, hs⟩ := ih
    obtain ⟨r, hr⟩ := hn
    obtain ⟨-, rfl⟩ := hs.unique hr
    exact ⟨rfl, hs⟩

/-! ## Runs -/

/-- There is an instruction where each of the steps begins, but for the last one if the run fails. This one
finds the fault, on the bench `b'`. -/
def StepsFetch (steps : List (Bench κ σ)) (b' : Bench κ σ) : Except Fault Unit → Prop
  | .ok _ => ∀ s ∈ steps, ∃ d, fetch s.machine.chip.code s.machine.chip.pc = .ok d
  | .error fault => ∃ before, steps = before ++ [b'] ∧
      (∀ s ∈ before, ∃ d, fetch s.machine.chip.code s.machine.chip.pc = .ok d) ∧
      fetch b'.machine.chip.code b'.machine.chip.pc = .error fault

/-- A step that fails is the last one of its run, and leaves the bench as it is. -/
theorem Rounds.stepsFetch {steps : List (Bench κ σ)} (h : Rounds env m b steps r b') : StepsFetch steps b' r := by
  unfold Rounds at h
  induction h with
  | skip _ _ ih => exact ih
  | finish _ => exact List.forall_mem_nil _
  | fail _ hs =>
    obtain ⟨hf, rfl⟩ := Script.yields_step_error_iff.1 hs
    exact ⟨[], rfl, List.forall_mem_nil _, hf⟩
  | @step b b₁ _ _ _ r _ hs _ ih =>
    have hfetch : ∃ d, fetch b₁.machine.chip.code b₁.machine.chip.pc = .ok d := by
      cases hf : fetch b₁.machine.chip.code b₁.machine.chip.pc with
      | ok d => exact ⟨d, rfl⟩
      | error fault => cases (Script.yields_step_of_fault hf).unique hs |>.1
    cases r with
    | ok u => exact List.forall_mem_cons.2 ⟨hfetch, ih⟩
    | error fault =>
      obtain ⟨before, rfl, hbefore, hf⟩ := ih
      exact ⟨b₁ :: before, rfl, List.forall_mem_cons.2 ⟨hfetch, hbefore⟩, hf⟩

/-- A step fails exactly if there is no instruction to fetch. Then no callback runs, and everything is as it
was. A run fails with the first of its steps that fails. It leaves the machine as this step found it, where
all further steps fail alike. -/
theorem failure_changes_nothing (env : Environment κ σ) (b b' : Bench κ σ) :
    (∀ fault, Script.step.Yields env b (.error fault) b' ↔
      fetch b.machine.chip.code b.machine.chip.pc = .error fault ∧ b' = b) ∧
    (∀ fault, fetch b.machine.chip.code b.machine.chip.pc = .error fault →
      ∀ M, (Moment.start Script.step b).Reaches env M → M.role = .whole ∧ M.told? = none ∧ M.bench = b) ∧
    ∀ (run : Run κ) (r : Except Fault Unit), run.script.Yields env b r b' → ∃ steps j b₁,
      Rounds env (run.mode b.machine.chip) { b.dropRequests with journal := j } steps r b₁ ∧
      StepsFetch steps b₁ r ∧ b' = { b₁ with journal := b'.journal } ∧
      ∀ fault, r = .error fault → ∀ b'', Relation.ReflTransGen (Bench.Next env) b' b'' →
        b'' = b' ∧ Script.step.Yields env b'' (.error fault) b'' := by
  refine ⟨fun fault => Script.yields_step_error_iff, fun fault hf M hM => moments_of_failing_step hf hM,
    fun run r h => ?_⟩
  obtain ⟨steps, j, b₁, hr, he⟩ := run.exists_rounds h
  refine ⟨steps, j, b₁, hr, hr.stepsFetch, he, ?_⟩
  rintro fault rfl b'' hb''
  obtain ⟨-, -, -, hf⟩ := hr.stepsFetch
  have hf' : fetch b'.machine.chip.code b'.machine.chip.pc = .error fault := by
    rw [he]
    exact hf
  exact yields_step_of_steps hf' hb''

/-- Callbacks that replace the program. -/
def reloading : Environment Unit Unit where
  respond _ _ := Script.edit fun c => c.load #[0xA5]
  holds _ := return true

/-- A machine whose program is replaced when its second instruction is about to run. -/
def reloadedBench : Bench Unit Unit where
  machine := { chip := (Chip.new Pacer.period1MHz {}).load #[0x00, 0x00, 0x00]
               registry := { waiting := [(.visit 1, .custom ())] } }
  world := ()

theorem reloaded_run_fails : ∃ b', (Run.limited 100).script.Yields reloading reloadedBench
      (.error (.outOfBounds 2 1)) b' ∧ b'.machine.chip.executed = 2 ∧ b'.machine.chip.code = #[0xA5] ∧
    (∃ steps j b₁, Rounds reloading (.unpaced (.below 0 100)) { reloadedBench.dropRequests with journal := j } steps
        (.error (.outOfBounds 2 1)) b₁ ∧ StepsFetch steps b₁ (.error (.outOfBounds 2 1))) ∧
    ∀ b'', Relation.ReflTransGen (Bench.Next reloading) b' b'' → b'' = b' := by
  have hrun : ((Run.limited 100).script.run reloading 5 reloadedBench).map
      (fun x => (x.1, x.2.machine.chip.executed, x.2.machine.chip.code)) =
        some (.error (.outOfBounds 2 1), 2, #[0xA5]) := by
    decide +kernel
  obtain ⟨⟨r, b'⟩, hb', hx⟩ := Option.map_eq_some_iff.1 hrun
  simp only [Prod.mk.injEq] at hx
  obtain ⟨rfl, hexecuted, hcode⟩ := hx
  obtain ⟨steps, j, b₁, hr, hs, -, hfinal⟩ :=
    (failure_changes_nothing reloading reloadedBench b').2.2 (.limited 100) _ ⟨5, hb'⟩
  exact ⟨b', ⟨5, hb'⟩, hexecuted, hcode, ⟨steps, j, b₁, hr, hs⟩, fun b'' h => (hfinal _ rfl b'' h).1⟩

end Micro8051
