/-
What clearing removes. A callback that runs after its slot was cleared was registered since, or it was
taken out at that moment by an access or visit in progress: such callbacks are put back, and run again.
So clearing removes all callbacks of a slot exactly if none of them is taken out.
-/
import Micro8051.Proofs.Callbacks.Conservation

namespace Micro8051

variable {κ σ α : Type} {env : Environment κ σ} {n : Nat}

/-! ## Callbacks that run -/

/-- A callback that begins to run is one of those that its slot holds. -/
theorem mem_held_of_told {M : Moment κ σ α} (hM : M.Matched) {o : Occasion} {c : Callback κ}
    (h : M.told? = some (o, c)) : c ∈ M.registry.held o.slot := by
  obtain ⟨r, s, stack, b⟩ := M
  cases s with
  | look next => cases h
  | act a next => cases h
  | call d next =>
    cases d with
    | loop m => cases h
    | serve o' =>
      unfold Moment.told? at h
      cases hc : b.machine.registry.callbacks o'.slot with
      | nil => simp only [hc] at h; cases h
      | cons c' rest =>
        simp only [hc] at h
        cases h
        refine List.mem_append_right _ ?_
        rw [Moment.registry, hc]
        exact List.mem_cons_self
  | done x =>
    cases stack with
    | base => cases h
    | checking g next below => cases h
    | stepping m next below => cases h
    | telling o' cs next below =>
      cases cs with
      | nil => cases h
      | cons c' rest =>
        cases h
        obtain ⟨running, hrun⟩ : ∃ running, running = b.machine.registry.running := ⟨_, rfl⟩
        rw [Moment.Matched, Moment.registry, ← hrun] at hM
        cases hM with
        | telling hrest hcs hbelow =>
          refine List.mem_append_left _ ?_
          rw [Moment.registry, Registry.takenOut_of_cons hrun.symm, if_pos rfl]
          exact List.mem_append_right _ (hrest.subset List.mem_cons_self)

/-- A list is taken out only for an access or visit in progress. -/
theorem takenOut_eq_nil_of_serving {M : Moment κ σ α} (hM : M.Matched) {t : Slot}
    (h : t ∉ M.stack.serving.map Occasion.slot) : M.registry.takenOut t = [] := by
  rw [← hM.slots_eq, List.mem_map] at h
  rw [Registry.takenOut, List.flatMap_eq_nil_iff]
  intro e he
  rw [List.mem_filter, List.mem_reverse, decide_eq_true_eq] at he
  exact absurd ⟨e, he⟩ h

/-! ## After a clearing -/

section Cleared

variable {M : Nat → Moment κ σ α} {i : Nat} {t : Slot}

theorem held_after_clearing (hrun : ∀ k < n, (M k).advance env = some (M (k + 1))) (hi : i < n)
    (hclear : (M i).change.clears t = true) : (M (i + 1)).registry.held t = (M i).registry.takenOut t := by
  rw [registry_of_moments hrun i hi, Registry.held_changed_of_clears hclear]

/-- What a slot holds after it was cleared was taken out at that moment, or registered since. -/
theorem mem_held_after_clearing (hrun : ∀ k < n, (M k).advance env = some (M (k + 1)))
    (hclear : (M i).change.clears t = true) {j : Nat} (hij : i < j) (hj : j ≤ n) {c : Callback κ}
    (hc : c ∈ (M j).registry.held t) :
    c ∈ (M i).registry.takenOut t ∨ ∃ k, i < k ∧ k < j ∧ (M k).change = .add t c := by
  obtain ⟨d, rfl⟩ : ∃ d, j = i + 1 + d := ⟨j - (i + 1), by omega⟩
  have hg : ∀ k < d, (M (i + 1 + (k + 1))).registry = (M (i + 1 + k)).registry.changed (M (i + 1 + k)).change :=
    fun k hk => registry_of_moments hrun (i + 1 + k) (by omega)
  rcases Registry.mem_held_of_changes (g := fun k => (M (i + 1 + k)).registry) hg hc with h | ⟨k, hk, h⟩
  · rw [held_after_clearing hrun (by omega) hclear] at h
    exact .inl h
  · exact .inr ⟨i + 1 + k, by omega, by omega, h⟩

end Cleared

/-- Take any script, any callbacks, a machine on which none of them runs, and a moment `i` that clears
the slot `t`. Whatever callback of `t` runs later was registered since, unless it was taken out at `i` by
an access or visit in progress. Those are kept: as long as `t` is not cleared again, it holds them, with
what was registered since behind them. -/
theorem clearing_keeps_takenOut (env : Environment κ σ) {s : Script κ σ α} {b : Bench κ σ}
    {M : Nat → Moment κ σ α} (h0 : M 0 = .start s b) (hb : b.machine.registry.running = [])
    (hrun : ∀ k < n, (M k).advance env = some (M (k + 1))) {i : Nat} (hi : i < n) {t : Slot}
    (hclear : (M i).change.clears t = true) :
    (∀ j o c, i < j → j ≤ n → (M j).told? = some (o, c) → o.slot = t →
      c ∈ (M i).registry.takenOut t ∨ ∃ k, i < k ∧ k < j ∧ (M k).change = .add t c) ∧
    (t ∉ (M i).stack.serving.map Occasion.slot → (M i).registry.takenOut t = []) ∧
    ∀ j, i < j → j ≤ n → (∀ k, i < k → k < j → (M k).change.clears t = false) →
      (M j).registry.takenOut t ++ (M j).registry.callbacks t =
        (M i).registry.takenOut t ++ registered (fun k => M (i + 1 + k)) t (j - (i + 1)) := by
  have hmatched := matched_of_moments (h0 ▸ matched_start hb) hrun
  refine ⟨?_, takenOut_eq_nil_of_serving (hmatched i hi.le), ?_⟩
  · rintro j o c hij hj htold rfl
    exact mem_held_after_clearing hrun hclear hij hj (mem_held_of_told (hmatched j hj) htold)
  · intro j hij hj hkept
    obtain ⟨d, rfl⟩ : ∃ d, j = i + 1 + d := ⟨j - (i + 1), by omega⟩
    have hg : ∀ k < d, (M (i + 1 + (k + 1))).registry = (M (i + 1 + k)).registry.changed (M (i + 1 + k)).change :=
      fun k hk => registry_of_moments hrun (i + 1 + k) (by omega)
    have h := Registry.held_of_changes (g := fun k => (M (i + 1 + k)).registry) hg
      fun k hk => hkept (i + 1 + k) (by omega) (by omega)
    rw [show i + 1 + d - (i + 1) = d by omega, ← held_after_clearing hrun hi hclear]
    exact h

/-! ## Callbacks that clear themselves -/

/-- A write hook that clears the hooks, and a breakpoint that clears the breakpoints. -/
def selfClearing : Environment Nat Unit where
  respond
    | 0, _ => Script.clearHooks
    | _, _ => Script.clearBreakpoints
  holds _ := pure true

/-- A machine whose program is a jump to itself. -/
def idlingBench : Bench Nat Unit :=
  { freshBench with machine := freshBench.machine.onChip fun c => c.load #[0x80, 0xFE] }

/-- The moments of a script that registers the hook and the breakpoint and comes to each of them
twice. -/
def selfCleared (k : Nat) : Moment Nat Unit Unit :=
  (Moment.start (do
    Script.register (.write 0x30) 0
    Script.register (.visit 0) 1
    Script.write 0x30 1
    let _ ← Script.step
    Script.write 0x30 2
    let _ ← Script.step) idlingBench).after selfClearing k

theorem selfCleared_advance : ∀ k < 34, (selfCleared k).advance selfClearing = some (selfCleared (k + 1)) := by
  have hsome : ∀ k < 34, ((selfCleared k).advance selfClearing).isSome := by decide +kernel
  exact fun k hk => Moment.advance_after selfClearing (hsome k hk)

theorem hook_kept_by_its_clearing :
    (selfCleared 4).change.clears (.write 0x30) = true ∧
    (selfCleared 4).registry.takenOut (.write 0x30) = [.custom 0] ∧
    (selfCleared 19).registry.takenOut (.write 0x30) ++ (selfCleared 19).registry.callbacks (.write 0x30) =
      (selfCleared 4).registry.takenOut (.write 0x30) ++
        registered (fun k => selfCleared (5 + k)) (.write 0x30) 14 := by
  have hclear : (selfCleared 4).change.clears (.write 0x30) = true := by decide +kernel
  have hkept : ∀ k < 19, 4 < k → (selfCleared k).change.clears (.write 0x30) = false := by decide +kernel
  exact ⟨hclear, by decide +kernel,
    (clearing_keeps_takenOut selfClearing rfl rfl selfCleared_advance (by decide) hclear).2.2 19
      (by decide) (by decide) fun k h4 hk => hkept k hk h4⟩

/-- After they have cleared themselves, and when no access or visit is in progress any more, the hook and
the breakpoint run again, though neither was registered again. -/
theorem not_clearing_removes :
    (∀ k < 34, (selfCleared k).advance selfClearing = some (selfCleared (k + 1))) ∧
    ((selfCleared 4).change = .clearHooks ∧ (selfCleared 6).stack.serving = [] ∧
      (selfCleared 19).told? = some (.writing 0x30 1 2, .custom 0) ∧
      ∀ k < 19, 4 < k → (selfCleared k).change ≠ .add (.write 0x30) (.custom 0)) ∧
    (selfCleared 12).change = .clearBreakpoints ∧ (selfCleared 14).stack.serving = [] ∧
      (selfCleared 27).told? = some (.visiting 0, .custom 1) ∧
      ∀ k < 27, 12 < k → (selfCleared k).change ≠ .add (.visit 0) (.custom 1) :=
  ⟨selfCleared_advance, by decide +kernel, by decide +kernel⟩

end Micro8051
