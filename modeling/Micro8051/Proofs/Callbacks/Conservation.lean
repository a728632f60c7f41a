/-
No callback is lost, doubled or moved out of its order by being run. At every moment of a script that
has not cleared callbacks, the callbacks registered in a slot, in the order of registration, are those
that accesses and visits in progress have taken out, followed by those that wait. When none is in
progress, all of them wait.
-/
import Micro8051.Proofs.Moment.Registry
import Micro8051.Proofs.Registry.Breakpoints

namespace Micro8051

variable {κ σ α : Type} {env : Environment κ σ} {n : Nat}

/-! ## Breakpoints from moment to moment -/

section Sequence

variable {M : Nat → Moment κ σ α}

/-- The map of breakpoints that is kept from moment to moment, from `f` on. -/
def breakpointMap (f : BreakpointMap (Callback κ)) (M : Nat → Moment κ σ α) : Nat → BreakpointMap (Callback κ)
  | 0 => f
  | k + 1 => (breakpointMap f M k).changed (M k).registry (M k).change

theorem shows_breakpointMap {f : BreakpointMap (Callback κ)} (hf : f.Shows (M 0).registry) (h0 : (M 0).Matched)
    (hrun : ∀ k < n, (M k).advance env = some (M (k + 1))) :
    ∀ k ≤ n, (breakpointMap f M k).Shows (M k).registry
  | 0, _ => hf
  | k + 1, hk => by
    rw [registry_of_moments hrun k hk]
    exact (shows_breakpointMap hf h0 hrun k (by omega)).changed
      (matched_of_moments h0 hrun k (by omega)).ne_nil (M k).change

end Sequence

/-! ## Conservation -/

/-- At a moment, the registry has kept what was registered in each slot, and `f` is the map of its
breakpoints. -/
structure Moment.Conserves (M : Moment κ σ α) (registered : Slot → List (Callback κ))
    (f : BreakpointMap (Callback κ)) : Prop where
  /-- A list is taken out for each access or visit in progress, and for nothing else. -/
  inProgress : M.registry.running.map Prod.fst = M.stack.serving.map Occasion.slot
  /-- The registered callbacks are those taken out and those that wait, each once and in order. -/
  once : ∀ t, M.registry.takenOut t ++ M.registry.callbacks t = registered t
  idle : M.stack.serving = [] → ∀ t, M.registry.callbacks t = registered t
  map : f.Shows M.registry
  keys : ∀ a, (f a).isSome ↔ a ∈ M.registry.breakpoints
  /-- The addresses with breakpoints, each once. -/
  addresses : ∀ a, a ∈ M.registry.breakpoints ↔ 0 < M.registry.count (.visit a)
  ascending : M.registry.breakpoints.Pairwise (· < ·)

/-- Take any script, any callbacks, and a machine on which none of them runs, whose breakpoints are in
the map `f`. At each moment that comes before the first clearing, the registry has kept what waited at
the start and what was registered since. -/
theorem callbacks_conserved (env : Environment κ σ) {s : Script κ σ α} {b : Bench κ σ}
    {f : BreakpointMap (Callback κ)} {M : Nat → Moment κ σ α} (h0 : M 0 = .start s b)
    (hb : b.machine.registry.running = []) (hf : f.Shows b.machine.registry)
    (hrun : ∀ k < n, (M k).advance env = some (M (k + 1)))
    (hclear : ∀ k < n, (M k).change ≠ .clearHooks ∧ (M k).change ≠ .clearBreakpoints) :
    ∀ k ≤ n, (M k).Conserves (fun t => b.machine.registry.callbacks t ++ registered M t k) (breakpointMap f M k) := by
  intro k hk
  have hreg : (M 0).registry = b.machine.registry := by rw [h0]; rfl
  have hmatched : (M 0).Matched := h0 ▸ matched_start hb
  have hm := matched_of_moments hmatched hrun k hk
  have hkept : ∀ j < k, ∀ t, (M j).change.clears t = false := by
    intro j hj t
    obtain ⟨h1, h2⟩ := hclear j (by omega)
    cases hch : (M j).change with
    | clearHooks => exact absurd hch h1
    | clearBreakpoints => exact absurd hch h2
    | _ => rfl
  have honce : ∀ t, (M k).registry.held t = b.machine.registry.callbacks t ++ registered M t k := by
    intro t
    have h := Registry.held_of_changes (g := fun k => (M k).registry)
      (fun j hj => registry_of_moments hrun j (by omega)) fun j hj => hkept j hj t
    simpa only [registered, hreg, Registry.held, Registry.takenOut_eq_nil hb t, List.nil_append] using h
  have hshows := shows_breakpointMap (hreg ▸ hf) hmatched hrun k hk
  refine ⟨hm.slots_eq, honce, fun hidle t => ?_, hshows, fun a => ?_, fun a => ?_, ?_⟩
  · have hnil : (M k).registry.running = [] := by
      have h := hm.slots_eq
      rwa [hidle, List.map_nil, List.map_eq_nil_iff] at h
    rw [← honce t, Registry.held, Registry.takenOut_eq_nil hnil, List.nil_append]
  · rw [hshows.isSome_iff, Registry.mem_breakpoints]
  · rw [Registry.mem_breakpoints, Registry.count, List.length_pos_iff]
  · exact Registry.breakpoints_ascending _

/-- On a new machine no breakpoint waits. -/
theorem empty_shows_new (period : Nat) (flags : Flags) (entropy : Entropy) :
    BreakpointMap.Shows .empty (Machine.new period flags entropy : Machine κ).registry := by
  unfold Machine.new
  refine ⟨fun a => ?_, fun a h => by cases h⟩
  split <;> rfl

/-- A write hook that registers another hook on its cell and writes the cell again. The other one, which
runs inside the first, registers a third one and a breakpoint. -/
def nestedHooks : Environment Nat Unit where
  respond
    | 0, _ => do
      Script.register (.write 0x30) 1
      Script.write 0x30 2
    | 1, _ => do
      Script.register (.write 0x30) 2
      Script.register (.visit 0x10) 3
    | _, _ => pure ()
  holds _ := pure true

/-- A new machine in a world without a state. -/
def freshBench : Bench Nat Unit := { machine := .standard, world := () }

/-- The moments of a script that registers the first hook and writes its cell. -/
def nested (k : Nat) : Moment Nat Unit Unit :=
  (Moment.start (do Script.register (.write 0x30) 0; Script.write 0x30 1) freshBench).after nestedHooks k

theorem nested_hooks_conserved :
    (nested 8).registry.takenOut (.write 0x30) = [.custom 0, .custom 1] ∧
    (nested 8).registry.callbacks (.write 0x30) = [.custom 2] ∧
    (nested 12).registry.callbacks (.write 0x30) = [.custom 0, .custom 1, .custom 2] ∧
    ∀ k ≤ 12, (nested k).Conserves
      (fun t => freshBench.machine.registry.callbacks t ++ registered nested t k) (breakpointMap .empty nested k) := by
  have hsome : ∀ k < 12, ((nested k).advance nestedHooks).isSome := by decide +kernel
  have hclear : ∀ k < 12, (nested k).change ≠ .clearHooks ∧ (nested k).change ≠ .clearBreakpoints := by
    decide +kernel
  refine ⟨by decide +kernel, by decide +kernel, by decide +kernel, ?_⟩
  exact callbacks_conserved nestedHooks rfl rfl (empty_shows_new _ _ _)
    (fun k hk => Moment.advance_after nestedHooks (hsome k hk)) hclear

end Micro8051
