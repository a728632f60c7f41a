/-
Breakpoints trace execution. On a machine without hooks, whose breakpoints change nothing but may request
a stop, the callbacks that a run calls are, instruction by instruction, those that are registered where
the instruction is, in the order of registration; they see the chip as it is before the instruction.

The moments of the run are followed from one instruction to the next (`Tracing`): between two
instructions, on the way to the breakpoints of the next one, among them, and while it is carried out. In
each of these stages it is known which callbacks have been told since the last instruction.
-/
import Micro8051.Proofs.Bench.Orderly
import Micro8051.Proofs.Moment.Registry

namespace Micro8051

variable {κ σ α : Type} {env : Environment κ σ} {P : Act κ σ → Prop} {C : κ → Prop} {r : Role}

/-! ## Events -/

/-- An instruction that is executed: its address, the chip before it, and the callbacks that are registered at
the address. -/
structure Execution (κ : Type) where
  addr : UInt16
  chip : Chip
  callbacks : List (Callback κ)

/-- What can be seen of a run from outside. Chips are shown but for a request to stop. -/
inductive TraceEvent (κ : Type) where
  /-- A callback is told that the instruction at `addr` is about to run. -/
  | told (addr : UInt16) (c : Callback κ) (chip : Chip)
  | executed (e : Execution κ)

/-- Each callback at the address is told once, in the order of registration. -/
def Execution.tells (e : Execution κ) : List (TraceEvent κ) := e.callbacks.map fun c => .told e.addr c e.chip

/-- The callbacks at the address are told, and then the instruction is executed. -/
def Execution.events (e : Execution κ) : List (TraceEvent κ) := e.tells ++ [.executed e]

namespace Moment

/-- What can be seen at a moment: a callback begins to run, or an instruction is announced, which happens
right before it is executed. -/
def event? (M : Moment κ σ α) : Option (TraceEvent κ) :=
  match M.told?, M.script with
  | some (.visiting pc, c), _ => some (.told pc c M.bench.machine.chip.core)
  | none, .act (.report (.executing pc _)) _ =>
    some (.executed ⟨pc, M.bench.machine.chip.core, M.registry.held (.visit pc)⟩)
  | _, _ => none

/-- What can be seen in the first `n` moments. -/
def events (env : Environment κ σ) (M : Moment κ σ α) : Nat → List (TraceEvent κ)
  | 0 => []
  | n + 1 => M.events env n ++ (M.after env n).event?.toList

theorem event?_act {a : Act κ σ} (h : a.Hookless) (next : Script κ σ (r.Result α)) (stack : Stack κ σ α r)
    (b : Bench κ σ) : event? ⟨r, .act a next, stack, b⟩ = none := by
  cases a with
  | report record =>
    cases record with
    | executing pc mnemonic => exact absurd rfl (h pc mnemonic)
    | _ => rfl
  | _ => rfl

theorem event?_serve_of_nil {o : Occasion} {b : Bench κ σ} (h : b.machine.registry.callbacks o.slot = [])
    (next : Unit → Script κ σ (r.Result α)) (stack : Stack κ σ α r) :
    event? ⟨r, .call (.serve o) next, stack, b⟩ = none := by
  simp only [event?, told?, h]

/-- At the end of a script nothing is seen any more. -/
theorem event?_of_advance {M : Moment κ σ α} (h : M.advance env = none) : M.event? = none := by
  obtain ⟨r, s, stack, b⟩ := M
  cases s with
  | done x =>
    cases stack with
    | base => rfl
    | telling o cs next below => cases h
    | checking g next below => cases x <;> cases h
    | stepping m next below => cases x <;> cases h
  | look next => cases h
  | act a next => cases h
  | call c next => cases c <;> cases h

end Moment

/-! ## Benches without hooks -/

/-- No hook is registered on the bench. If the acts `P` are idle, the chip is `c` but for a request to stop,
and the callbacks `G` are registered. -/
structure Bench.Still (P : Act κ σ → Prop) (G : Slot → List (Callback κ)) (c : Chip) (b : Bench κ σ) : Prop where
  hooks : ∀ s : Slot, s.isHook → b.machine.registry.held s = []
  chip : (∀ a, P a → a.Idle) → b.machine.chip.core = c.core
  held : (∀ a, P a → a.Idle) → ∀ t, b.machine.registry.held t = G t

namespace Act.Idle

variable {a : Act κ σ}

theorem registry (h : a.Idle) (b : Bench κ σ) : (a.apply b).machine.registry = b.machine.registry := by
  cases a with
  | register s c => exact h.elim
  | clearHooks => exact h.elim
  | clearBreakpoints => exact h.elim
  | _ => rfl

theorem core (h : a.Idle) (b : Bench κ σ) : (a.apply b).machine.chip.core = b.machine.chip.core := by
  cases a with
  | edit f => exact h b.machine.chip
  | _ => rfl

end Act.Idle

theorem Act.Hookless.running {a : Act κ σ} (b : Bench κ σ) :
    (a.apply b).machine.registry.running = b.machine.registry.running := by
  cases a <;> rfl

/-- An act that registers no hook leaves a machine without hooks. -/
theorem Act.Hookless.hooks {a : Act κ σ} (h : a.Hookless) {b : Bench κ σ} {s : Slot} (hs : s.isHook)
    (hb : b.machine.registry.held s = []) : (a.apply b).machine.registry.held s = [] := by
  have hmem : ∀ {t c}, a = .register t c → ¬ s = t := by
    rintro t c rfl rfl
    rw [show s.isHook = false from h] at hs
    cases hs
  cases a with
  | register t c =>
    change (b.machine.registry.add t (.custom c)).held s = []
    rw [Registry.held_add, hb, if_neg (hmem rfl)]
    rfl
  | clearHooks =>
    change b.machine.registry.clearHooks.held s = []
    rw [Registry.held_clearHooks, if_pos hs]
    exact (List.append_eq_nil_iff.1 hb).1
  | clearBreakpoints =>
    change b.machine.registry.clearBreakpoints.held s = []
    rw [Registry.held_clearBreakpoints, if_pos hs, hb]
  | _ => exact hb

namespace Bench.Still

variable {G : Slot → List (Callback κ)} {c : Chip} {b b' : Bench κ σ}

theorem congr (h : b.Still P G c) (hchip : b'.machine.chip.core = b.machine.chip.core)
    (hheld : ∀ t, b'.machine.registry.held t = b.machine.registry.held t) : b'.Still P G c where
  hooks s hs := (hheld s).trans (h.hooks s hs)
  chip hi := hchip.trans (h.chip hi)
  held hi t := (hheld t).trans (h.held hi t)

theorem of_machine (h : b.Still P G c) (hm : b'.machine = b.machine) : b'.Still P G c :=
  h.congr (by rw [hm]) fun _ => by rw [hm]

theorem idle (h : b.Still P G c) {a : Act κ σ} (ha : a.Idle) : (a.apply b).Still P G c :=
  h.congr (ha.core b) fun t => by rw [ha.registry b]

theorem act (h : b.Still P G c) (hP : ∀ a, P a → a.Hookless) {a : Act κ σ} (ha : P a) : (a.apply b).Still P G c where
  hooks _ hs := (hP a ha).hooks hs (h.hooks _ hs)
  chip hi := ((hi a ha).core b).trans (h.chip hi)
  held hi t := by rw [(hi a ha).registry b, h.held hi]

theorem callbacks (h : b.Still P G c) {s : Slot} (hs : s.isHook) : b.machine.registry.callbacks s = [] :=
  (List.append_eq_nil_iff.1 (h.hooks s hs)).2

end Bench.Still

/-! ## From one instruction to the next -/

/-- What goes on after the script at hand is orderly, and no callback is run meanwhile. -/
inductive Stack.Orderly (P : Act κ σ → Prop) (C : κ → Prop) : {r : Role} → Stack κ σ α r → Prop where
  | base : Stack.Orderly P C .base
  | checking {r : Role} {g : Guard κ} {next : Except Fault Unit → Script κ σ (r.Result α)} {below : Stack κ σ α r}
      (hg : (Mode.unpaced g).Under C) (hn : ∀ x, (next x).Orderly P C) (h : below.Orderly P C) :
      Stack.Orderly P C (.checking g next below)
  | stepping {r : Role} {m : Mode κ} {next : Except Fault Unit → Script κ σ (r.Result α)} {below : Stack κ σ α r}
      (hm : m.Under C) (hn : ∀ x, (next x).Orderly P C) (h : below.Orderly P C) :
      Stack.Orderly P C (.stepping m next below)

/-- On the bench the instruction `d` is about to be executed, as `e` has it. -/
structure Bench.About (b : Bench κ σ) (e : Execution κ) (d : Decoded) : Prop where
  core : b.machine.chip.core = e.chip
  pc : e.chip.pc = e.addr
  fetched : fetch e.chip.code e.addr = .ok d
  callbacks : b.machine.registry.held (.visit e.addr) = e.callbacks

namespace Bench.About

variable {b b' : Bench κ σ} {e : Execution κ} {d : Decoded}

theorem congr (h : b.About e d) (hcore : b'.machine.chip.core = b.machine.chip.core)
    (hheld : ∀ t, b'.machine.registry.held t = b.machine.registry.held t) : b'.About e d :=
  ⟨hcore.trans h.core, h.pc, h.fetched, (hheld _).trans h.callbacks⟩

theorem pc_eq (h : b.About e d) : b.machine.chip.pc = e.addr := (Chip.pc_eq_of_core h.core).trans h.pc

/-- Executed on the bench, the instruction makes a step of the chip. -/
theorem stepped (h : b.About e d) : (b.machine.chip.execute d).count.core = e.chip.stepped.core := by
  have hd : b.machine.chip.current? = some d := by
    rw [Chip.current?_eq_some, Chip.code_eq_of_core h.core, h.pc_eq]
    exact h.fetched
  rw [← Chip.stepped_of_current? hd, Chip.core_stepped, Chip.core_stepped, ← h.core]
  rfl

/-- While no callback runs, the callbacks of the instruction wait at its address. -/
theorem callbacks_waiting (h : b.About e d) (hrunning : b.machine.registry.running = []) :
    e.callbacks = b.machine.registry.callbacks (.visit e.addr) := by
  rw [← h.callbacks, Registry.held, Registry.takenOut_eq_nil hrunning, List.nil_append]

/-- While the callbacks of the instruction run, they are all in the list that was taken out for it. -/
theorem callbacks_taken (h : b.About e d) {cs : List (Callback κ)}
    (hrunning : b.machine.registry.running = [(.visit e.addr, cs)])
    (hwaiting : b.machine.registry.callbacks (.visit e.addr) = []) : e.callbacks = cs := by
  rw [← h.callbacks, Registry.held, hwaiting, Registry.takenOut_of_cons hrunning, if_pos rfl, List.append_nil]
  rfl

end Bench.About

/-- How far a script is that executes one instruction after the other. The list has what has been seen since
the last one. As long as the acts of conditions are idle, the next one begins at the chip `c`, but for a
request to stop, and the callbacks `G` are registered. -/
inductive Moment.Tracing (P : Act κ σ → Prop) (C : κ → Prop) (G : Slot → List (Callback κ)) (c : Chip) :
    List (TraceEvent κ) → Moment κ σ α → Prop where
  /-- No instruction is on its way, or it is not known yet whether there is one. -/
  | between {r : Role} {s t : Script κ σ (r.Result α)} {stack : Stack κ σ α r} {b : Bench κ σ}
      (hs : s.Approaches b.machine b.world t) (ht : t.Orderly P C) (hstack : stack.Orderly P C) (hb : b.Still P G c)
      (hrunning : b.machine.registry.running = []) : Tracing P C G c [] ⟨r, s, stack, b⟩
  /-- There is an instruction, and its breakpoints are next. -/
  | approaching {r : Role} {s : Script κ σ (r.Result α)} {stack : Stack κ σ α r} {b : Bench κ σ} {e : Execution κ}
      {d : Decoded} {k : Except Fault Unit → Script κ σ (r.Result α)}
      (hs : s.Approaches b.machine b.world
        (.call (.serve (.visiting e.addr)) fun _ => Script.afterVisit e.addr d >>= k))
      (he : b.About e d) (hk : ∀ x, (k x).Orderly P C) (hstack : stack.Orderly P C) (hb : b.Still P G c)
      (hrunning : b.machine.registry.running = []) : Tracing P C G c [] ⟨r, s, stack, b⟩
  /-- The last of the breakpoints `told` runs, and `cs` are still to be told. -/
  | telling {r : Role} {s : Script κ σ Unit} {below : Stack κ σ α r} {b : Bench κ σ} {e : Execution κ}
      {d : Decoded} {k : Except Fault Unit → Script κ σ (r.Result α)} (told cs : List (Callback κ)) (hs : s.Idle)
      (he : b.About e d) (hk : ∀ x, (k x).Orderly P C) (hstack : below.Orderly P C) (hb : b.Still P G c)
      (hrunning : b.machine.registry.running = [(.visit e.addr, told ++ cs)])
      (hwaiting : b.machine.registry.callbacks (.visit e.addr) = []) :
      Tracing P C G c (told.map fun c => .told e.addr c e.chip)
        ⟨.callback, s, .telling (.visiting e.addr) cs (Script.afterVisit e.addr d >>= k) below, b⟩
  /-- All breakpoints of the instruction have run, and it is about to be announced. -/
  | visited {r : Role} {s : Script κ σ (r.Result α)} {stack : Stack κ σ α r} {b : Bench κ σ} {e : Execution κ}
      {d : Decoded} {k : Except Fault Unit → Script κ σ (r.Result α)}
      (hs : s.Approaches b.machine b.world
        (.act (.report (.executing e.addr d.row.mnemonic)) (Script.carryOut d >>= fun _ => k (.ok ()))))
      (he : b.About e d) (hk : ∀ x, (k x).Orderly P C) (hstack : stack.Orderly P C) (hb : b.Still P G c)
      (hrunning : b.machine.registry.running = []) : Tracing P C G c e.tells ⟨r, s, stack, b⟩
  /-- The instruction is being carried out, and comes to the bench `b'`. -/
  | executing {r : Role} {t : Script κ σ Unit} {s : Script κ σ (r.Result α)} {stack : Stack κ σ α r}
      {b b' : Bench κ σ} (ht : t.Only (fun a => ∃ f, a = .edit f) Call.IsAccess)
      (hrun : t.runWith Script.unheard b = some ((), b')) (hsame : b'.machine.registry = b.machine.registry)
      (hs : s.Orderly P C) (hstack : stack.Orderly P C) (hb : b'.Still P G c)
      (hrunning : b.machine.registry.running = []) : Tracing P C G c [] ⟨r, t >>= fun _ => s, stack, b⟩

namespace Moment.Tracing

variable {G : Slot → List (Callback κ)} {c : Chip} {b : Bench κ σ} {stack : Stack κ σ α r} {M M' : Moment κ σ α}
  {seen : List (TraceEvent κ)}

/-- What a moment of the run may come to: nothing is seen or a callback is told, on the way to the next
instruction, or the instruction is executed after all its callbacks have been told. -/
inductive Progress (P : Act κ σ → Prop) (C : κ → Prop) (G : Slot → List (Callback κ)) (c : Chip)
    (seen : List (TraceEvent κ)) (M M' : Moment κ σ α) : Prop where
  | onward (h : M'.Tracing P C G c (seen ++ M.event?.toList)) : Progress P C G c seen M M'
  | executed {e : Execution κ} {d : Decoded} (hevent : M.event? = some (.executed e)) (hseen : seen = e.tells)
      (he : M.bench.About e d) (hb : M.bench.Still P G c) (h : M'.Tracing P C G e.chip.stepped []) :
      Progress P C G c seen M M'

theorem onward_of_event?_eq_none (he : M.event? = none) (h : M'.Tracing P C G c seen) :
    Progress P C G c seen M M' := by
  refine .onward ?_
  rw [he, Option.toList_none, List.append_nil]
  exact h

/-- An orderly script has ended, and the one below it goes on. -/
theorem advance_done {x : r.Result α} (hstack : stack.Orderly P C) (hb : b.Still P G c)
    (hrunning : b.machine.registry.running = []) (hM : advance env ⟨r, .done x, stack, b⟩ = some M') :
    Progress P C G c [] ⟨r, .done x, stack, b⟩ M' := by
  refine onward_of_event?_eq_none ?_ ?_
  · cases hstack <;> rfl
  · cases hstack with
    | base => cases hM
    | checking hg hn hbelow =>
      cases x with
      | true =>
        cases hM
        exact .between (.refl _) (.step (bind_pure _).symm fun _ => .done _) (.stepping hg hn hbelow) hb hrunning
      | false => cases hM; exact .between (.refl _) (hn _) hbelow hb hrunning
    | stepping hm hn hbelow =>
      cases x with
      | ok u => cases hM; exact .between (.refl _) (.loop hm hn) hbelow hb hrunning
      | error fault => cases hM; exact .between (.refl _) (hn _) hbelow hb hrunning

/-- A round of a run begins. -/
theorem advance_loop {m : Mode κ} {next : Except Fault Unit → Script κ σ (r.Result α)}
    (hconditions : ∀ c, C c → (env.holds c).Orderly P C) (hm : m.Under C) (hnext : ∀ x, (next x).Orderly P C)
    (hstack : stack.Orderly P C) (hb : b.Still P G c) (hrunning : b.machine.registry.running = [])
    (hM : advance env ⟨r, .call (.loop m) next, stack, b⟩ = some M') :
    Progress P C G c [] ⟨r, .call (.loop m) next, stack, b⟩ M' := by
  cases hM
  refine onward_of_event?_eq_none rfl ?_
  obtain ⟨-, e⟩ | ⟨-, -, b₁, -, hs, e⟩ | ⟨-, -, source, b₁, -, hs, e⟩ | ⟨-, g, rfl, e⟩ :=
    round_cases env m next stack b
  · -- a request to stop is dropped, which the chip `c` does not show
    rw [e]
    exact .between (.refl _) (hnext _) hstack (hb.congr rfl fun _ => rfl) hrunning
  · have hsame := (seen_eq.1 hs).1
    rw [e]
    refine .between (.refl _) (.step (bind_pure _).symm fun _ => .done _) (.stepping hm hnext hstack)
      (hb.of_machine hsame) ?_
    rw [hsame]
    exact hrunning
  · have hsame := (seen_eq.1 hs).1
    rw [e]
    exact .between (.refl _) (.loop hm hnext) hstack (hb.of_machine hsame)
      ((congrArg (fun m : Machine κ => m.registry.running) hsame).trans hrunning)
  · rw [e]
    exact .between (.refl _) (.holds hconditions hm) (.checking hm hnext hstack) hb hrunning

/-- An orderly script at hand. -/
theorem advance_orderly {s : Script κ σ (r.Result α)} (hP : ∀ a, P a → a.Hookless)
    (hconditions : ∀ c, C c → (env.holds c).Orderly P C) (hs : s.Orderly P C) (hstack : stack.Orderly P C)
    (hb : b.Still P G c) (hrunning : b.machine.registry.running = [])
    (hM : advance env ⟨r, s, stack, b⟩ = some M') : Progress P C G c [] ⟨r, s, stack, b⟩ M' := by
  cases hs with
  | done x => exact advance_done hstack hb hrunning hM
  | look h =>
    cases hM
    exact onward_of_event?_eq_none rfl (.between (.refl _) (h _ _) hstack hb hrunning)
  | act ha h =>
    cases hM
    refine onward_of_event?_eq_none (event?_act (hP _ ha) _ _ _) ?_
    exact .between (.refl _) h hstack (hb.act hP ha) ((Act.Hookless.running b).trans hrunning)
  | access ho h =>
    have hnil := hb.callbacks ho
    rw [advance, serve_of_nil hnil] at hM
    cases hM
    exact onward_of_event?_eq_none (event?_serve_of_nil hnil _ _) (.between (.refl _) h hstack hb hrunning)
  | loop hm h => exact advance_loop hconditions hm h hstack hb hrunning hM
  | @step _ k hs h =>
    rw [Script.step_eq] at hs
    subst hs
    cases hM
    refine onward_of_event?_eq_none rfl ?_
    cases hf : fetch b.machine.chip.code b.machine.chip.pc with
    | error fault => exact .between (Script.stepAt_approaches_of_error hf) (h _) hstack hb hrunning
    | ok d =>
      -- what is about to be executed is read off the bench
      have he : b.About ⟨_, b.machine.chip.core, b.machine.registry.held (.visit b.machine.chip.pc)⟩ d :=
        ⟨rfl, rfl, hf, rfl⟩
      exact .approaching (Script.stepAt_approaches_of_ok hf) he h hstack hb hrunning

/-- A callback at an address is idle, if those of the environment are. -/
theorem respond_idle (hcallbacks : ∀ c pc, (env.respond c (.visiting pc)).Idle) (c : Callback κ) (pc : UInt16) :
    (c.respond env (.visiting pc)).Idle := by
  cases c with
  | latch r => trivial
  | custom c => exact hcallbacks c pc

section Stages

variable {s : Script κ σ (r.Result α)} {e : Execution κ} {d : Decoded}
  {k : Except Fault Unit → Script κ σ (r.Result α)} (he : b.About e d) (hk : ∀ x, (k x).Orderly P C)
  (hstack : stack.Orderly P C) (hb : b.Still P G c)

include he hk hstack hb

/-- The way to the breakpoints of an instruction, and the first of them. -/
theorem advance_approaching (hcallbacks : ∀ c pc, (env.respond c (.visiting pc)).Idle)
    (hs : s.Approaches b.machine b.world
      (.call (.serve (.visiting e.addr)) fun _ => Script.afterVisit e.addr d >>= k))
    (hrunning : b.machine.registry.running = []) (hM : advance env ⟨r, s, stack, b⟩ = some M') :
    Progress P C G c [] ⟨r, s, stack, b⟩ M' := by
  cases hs with
  | look h =>
    cases hM
    exact onward_of_event?_eq_none rfl (.approaching h he hk hstack hb hrunning)
  | report hr h =>
    cases hM
    exact onward_of_event?_eq_none (event?_act (a := .report _) hr _ _ _)
      (.approaching h (he.congr rfl fun _ => rfl) hk hstack (hb.of_machine rfl) hrunning)
  | refl =>
    cases hc : b.machine.registry.callbacks (.visit e.addr) with
    | nil =>
      rw [advance, serve_of_nil hc] at hM
      cases hM
      refine onward_of_event?_eq_none (event?_serve_of_nil hc _ _) ?_
      have htells : e.tells = [] := by
        rw [Execution.tells, he.callbacks_waiting hrunning, hc, List.map_nil]
      rw [← htells]
      exact .visited (Script.afterVisit_approaches he.pc_eq) he hk hstack hb hrunning
    | cons callback rest =>
      -- the list is taken out, and what the registry holds stays the same
      have hne : b.machine.registry.callbacks (.visit e.addr) ≠ [] := by
        rw [hc]
        exact List.cons_ne_nil _ _
      rw [advance, serve_of_ne_nil hne, Occasion.slot, hc] at hM
      cases hM
      have hevent : event? (⟨r, .call (.serve (.visiting e.addr)) fun _ => Script.afterVisit e.addr d >>= k, stack, b⟩ :
          Moment κ σ α) = some (.told e.addr callback e.chip) := by
        simp only [event?, told?, Occasion.slot, hc, he.core]
      have hheld : ∀ t, (b.machine.registry.enter (.visit e.addr)).held t = b.machine.registry.held t :=
        fun t => b.machine.registry.held_enter _ t
      refine .onward ?_
      rw [hevent]
      refine .telling [callback] rest (respond_idle hcallbacks callback _) (he.congr rfl hheld) hk hstack
        (hb.congr rfl hheld) ?_ ?_
      · change (Slot.visit e.addr, b.machine.registry.callbacks (.visit e.addr)) :: b.machine.registry.running = _
        rw [hc, hrunning]
        rfl
      · exact (b.machine.registry.callbacks_enter _ _).trans (if_pos rfl)

/-- Among the breakpoints of an instruction. -/
theorem advance_telling {s : Script κ σ Unit} {told cs : List (Callback κ)}
    (hcallbacks : ∀ c pc, (env.respond c (.visiting pc)).Idle) (hs : s.Idle)
    (hrunning : b.machine.registry.running = [(.visit e.addr, told ++ cs)])
    (hwaiting : b.machine.registry.callbacks (.visit e.addr) = [])
    (hM : advance env ⟨.callback, s, .telling (.visiting e.addr) cs (Script.afterVisit e.addr d >>= k) stack, b⟩ =
      some M') :
    Progress P C G c (told.map fun c => .told e.addr c e.chip)
      ⟨.callback, s, .telling (.visiting e.addr) cs (Script.afterVisit e.addr d >>= k) stack, b⟩ M' := by
  cases s with
  | look next =>
    cases hM
    exact onward_of_event?_eq_none rfl (.telling told cs (hs _ _) he hk hstack hb hrunning hwaiting)
  | act a next =>
    cases hM
    have hreg := hs.1.registry b
    refine onward_of_event?_eq_none (event?_act hs.1.hookless _ _ _) (.telling told cs hs.2
      (he.congr (hs.1.core b) fun t => by rw [hreg]) hk hstack (hb.idle hs.1) ?_ ?_)
    · rw [hreg, hrunning]
    · rw [hreg, hwaiting]
  | call x next =>
    cases x with
    | loop m => exact hs.1.elim
    | serve o =>
      have hnil := hb.callbacks hs.1
      rw [advance, serve_of_nil hnil] at hM
      cases hM
      exact onward_of_event?_eq_none (event?_serve_of_nil hnil _ _)
        (.telling told cs (hs.2 _) he hk hstack hb hrunning hwaiting)
  | done u =>
    cases cs with
    | cons callback rest =>
      cases hM
      have hevent : event? (⟨.callback, .done u, .telling (.visiting e.addr) (callback :: rest)
          (Script.afterVisit e.addr d >>= k) stack, b⟩ : Moment κ σ α) = some (.told e.addr callback e.chip) := by
        simp only [event?, told?, he.core]
      have hmap : (told.map fun c => TraceEvent.told e.addr c e.chip) ++ [.told e.addr callback e.chip] =
          (told ++ [callback]).map fun c => TraceEvent.told e.addr c e.chip := by
        rw [List.map_append, List.map_singleton]
      refine .onward ?_
      rw [hevent, Option.toList_some, hmap]
      refine .telling (told ++ [callback]) rest (respond_idle hcallbacks callback _) he hk hstack hb ?_ hwaiting
      rw [hrunning, List.append_assoc]
      rfl
    | nil =>
      -- the list goes back, and the step goes on where it was
      cases hM
      have hheld : ∀ t, b.machine.registry.leave.held t = b.machine.registry.held t := b.machine.registry.held_leave
      have hall : e.callbacks = told := (he.callbacks_taken hrunning hwaiting).trans told.append_nil
      refine onward_of_event?_eq_none rfl ?_
      rw [← hall, ← Execution.tells]
      refine .visited (Script.afterVisit_approaches he.pc_eq) (he.congr rfl hheld) hk hstack (hb.congr rfl hheld) ?_
      change b.machine.registry.leave.running = []
      simp only [Registry.leave, hrunning]

/-- After the breakpoints of an instruction, and its announcement. -/
theorem advance_visited
    (hs : s.Approaches b.machine b.world
      (.act (.report (.executing e.addr d.row.mnemonic)) (Script.carryOut d >>= fun _ => k (.ok ()))))
    (hrunning : b.machine.registry.running = []) (hM : advance env ⟨r, s, stack, b⟩ = some M') :
    Progress P C G c e.tells ⟨r, s, stack, b⟩ M' := by
  cases hs with
  | look h =>
    cases hM
    exact onward_of_event?_eq_none rfl (.visited h he hk hstack hb hrunning)
  | report hr h =>
    cases hM
    exact onward_of_event?_eq_none (event?_act (a := .report _) hr _ _ _)
      (.visited h (he.congr rfl fun _ => rfl) hk hstack (hb.of_machine rfl) hrunning)
  | refl =>
    cases hM
    have hevent : event? (⟨r, .act (.report (.executing e.addr d.row.mnemonic))
        (Script.carryOut d >>= fun _ => k (.ok ())), stack, b⟩ : Moment κ σ α) = some (.executed e) := by
      simp only [event?, told?, he.core, he.callbacks]
    refine .executed hevent rfl he hb (.executing (Script.carryOut_only d) (Script.runWith_carryOut_unheard d _) rfl
      (hk _) hstack ?_ hrunning)
    exact ⟨hb.hooks, fun _ => he.stepped, hb.held⟩

end Stages

/-- While an instruction is carried out. -/
theorem advance_executing {s : Script κ σ (r.Result α)} {t : Script κ σ Unit} {b' : Bench κ σ}
    (ht : t.Only (fun a => ∃ f, a = .edit f) Call.IsAccess) (hrun : t.runWith Script.unheard b = some ((), b'))
    (hsame : b'.machine.registry = b.machine.registry) (hP : ∀ a, P a → a.Hookless)
    (hconditions : ∀ c, C c → (env.holds c).Orderly P C) (hs : s.Orderly P C) (hstack : stack.Orderly P C)
    (hb : b'.Still P G c) (hrunning : b.machine.registry.running = [])
    (hM : advance env ⟨r, t >>= fun _ => s, stack, b⟩ = some M') :
    Progress P C G c [] ⟨r, t >>= fun _ => s, stack, b⟩ M' := by
  cases t with
  | done u =>
    -- the instruction is complete: the moment is one of the rest of the script
    cases hrun
    exact advance_orderly hP hconditions hs hstack hb hrunning hM
  | look next =>
    cases hM
    exact onward_of_event?_eq_none rfl (.executing (ht _ _) hrun hsame hs hstack hb hrunning)
  | act a next =>
    obtain ⟨⟨f, rfl⟩, ht⟩ := ht
    cases hM
    exact onward_of_event?_eq_none rfl (.executing ht hrun hsame hs hstack hb hrunning)
  | call x next =>
    cases x with
    | loop m => exact ht.1.elim
    | serve o =>
      have hnil : b.machine.registry.callbacks o.slot = [] := hsame ▸ hb.callbacks ht.1
      have hM' : advance env ⟨r, .call (.serve o) fun u => next u >>= fun _ => s, stack, b⟩ = some M' := hM
      rw [advance, serve_of_nil hnil] at hM'
      cases hM'
      exact onward_of_event?_eq_none (event?_serve_of_nil hnil _ _)
        (.executing (ht.2 _) hrun hsame hs hstack hb hrunning)

/-- The step lemma. -/
theorem advance (hcallbacks : ∀ c pc, (env.respond c (.visiting pc)).Idle)
    (hconditions : ∀ c, C c → (env.holds c).Orderly P C) (hP : ∀ a, P a → a.Hookless) (h : M.Tracing P C G c seen)
    (hM : M.advance env = some M') : Progress P C G c seen M M' := by
  cases h with
  | between hs ht hstack hb hrunning =>
    cases hs with
    | refl => exact advance_orderly hP hconditions ht hstack hb hrunning hM
    | look h =>
      cases hM
      exact onward_of_event?_eq_none rfl (.between h ht hstack hb hrunning)
    | report hr h =>
      cases hM
      exact onward_of_event?_eq_none (event?_act (a := .report _) hr _ _ _)
        (.between h ht hstack (hb.of_machine rfl) hrunning)
  | approaching hs he hk hstack hb hrunning => exact advance_approaching he hk hstack hb hcallbacks hs hrunning hM
  | telling told cs hs he hk hstack hb hrunning hwaiting =>
    exact advance_telling he hk hstack hb hcallbacks hs hrunning hwaiting hM
  | visited hs he hk hstack hb hrunning => exact advance_visited he hk hstack hb hs hrunning hM
  | executing ht hrun hsame hs hstack hb hrunning =>
    exact advance_executing ht hrun hsame hP hconditions hs hstack hb hrunning hM

/-- What has been seen since the last instruction is the beginning of what its successor lets see. -/
theorem exists_next (h : M.Tracing P C G c seen) :
    ∃ next : Option (Execution κ), seen <+: next.toList.flatMap Execution.tells ∧
      (∀ e ∈ next, M.bench.Still P G c ∧ ∃ d, M.bench.About e d) ∧ (M.advance env = none → next = none) := by
  cases h with
  | between hs ht hstack hb hrunning => exact ⟨none, List.nil_prefix, by rintro _ ⟨⟩, fun _ => rfl⟩
  | approaching hs he hk hstack hb hrunning => exact ⟨none, List.nil_prefix, by rintro _ ⟨⟩, fun _ => rfl⟩
  | executing ht hrun hsame hs hstack hb hrunning => exact ⟨none, List.nil_prefix, by rintro _ ⟨⟩, fun _ => rfl⟩
  | @telling r s below b e d k told cs hs he hk hstack hb hrunning hwaiting =>
    -- callbacks that have been told owe the instruction, so the run is not over here
    refine ⟨some e, ?_, ?_, fun hM => ?_⟩
    · rw [Option.toList_some, List.flatMap_singleton, Execution.tells, he.callbacks_taken hrunning hwaiting,
        List.map_append]
      exact List.prefix_append _ _
    · rintro _ ⟨⟩
      exact ⟨hb, d, he⟩
    · cases s with
      | call x next => cases x <;> cases hM
      | _ => cases hM
  | @visited r s stack b e d k hs he hk hstack hb hrunning =>
    refine ⟨some e, ?_, ?_, fun hM => ?_⟩
    · rw [Option.toList_some, List.flatMap_singleton]
    · rintro _ ⟨⟩
      exact ⟨hb, d, he⟩
    · cases hs <;> cases hM

end Moment.Tracing

/-! ## Runs -/

/-- The instructions `es` are executed one after the other from the chip `c₀` on, up to the chip `c`, and each
of them can be fetched. As far as chips and callbacks are concerned this is said where conditions are idle. -/
structure Executed (P : Act κ σ → Prop) (G : Slot → List (Callback κ)) (c₀ : Chip) (es : List (Execution κ))
    (c : Chip) : Prop where
  fetched : ∀ e ∈ es, e.chip.pc = e.addr ∧ ∃ d, fetch e.chip.code e.addr = .ok d
  chips : (∀ a, P a → a.Idle) → es.map Execution.chip = (List.range es.length).map fun i => (Chip.stepped^[i] c₀).core
  callbacks : (∀ a, P a → a.Idle) → ∀ e ∈ es, e.callbacks = G (.visit e.addr)
  last : (∀ a, P a → a.Idle) → c.core = (Chip.stepped^[es.length] c₀).core

namespace Executed

variable {G : Slot → List (Callback κ)} {c₀ c : Chip} {es : List (Execution κ)} {b : Bench κ σ} {e : Execution κ}
  {d : Decoded}

theorem nil (P : Act κ σ → Prop) (G : Slot → List (Callback κ)) (c : Chip) : Executed P G c [] c where
  fetched _ h := absurd h List.not_mem_nil
  chips _ := rfl
  callbacks _ _ h := absurd h List.not_mem_nil
  last _ := rfl

/-- One more instruction. -/
theorem concat (h : Executed P G c₀ es c) (hb : b.Still P G c) (he : b.About e d) :
    Executed P G c₀ (es ++ [e]) e.chip.stepped where
  fetched := List.forall_mem_append.2 ⟨h.fetched, List.forall_mem_singleton.2 ⟨he.pc, d, he.fetched⟩⟩
  chips hi := by
    rw [List.map_append, h.chips hi, List.length_append, List.length_singleton, List.range_succ, List.map_append,
      List.map_singleton, List.map_singleton, ← h.last hi, ← hb.chip hi, he.core]
  callbacks hi := List.forall_mem_append.2
    ⟨h.callbacks hi, List.forall_mem_singleton.2 (he.callbacks.symm.trans (hb.held hi _))⟩
  last hi := by
    rw [List.length_append, List.length_singleton, Function.iterate_succ_apply', Chip.core_stepped, Chip.core_stepped,
      ← h.last hi, ← hb.chip hi, he.core, ← he.core]
    rfl

end Executed

/-- A run begins between two instructions, on a machine without hooks where no callback runs. -/
theorem Moment.Tracing.start {s : Script κ σ (Except Fault Unit)} {b : Bench κ σ} (hs : s.Orderly P C)
    (hhooks : ∀ t : Slot, t.isHook → b.machine.registry.callbacks t = []) (hrunning : b.machine.registry.running = []) :
    (Moment.start s b).Tracing P C b.machine.registry.callbacks b.machine.chip [] := by
  have hheld : ∀ t, b.machine.registry.held t = b.machine.registry.callbacks t := fun t => by
    rw [Registry.held, Registry.takenOut_eq_nil hrunning, List.nil_append]
  exact .between (.refl s) hs .base ⟨fun t ht => (hheld t).trans (hhooks t ht), fun _ => rfl, fun _ => hheld⟩ hrunning

/-- The run lemma. -/
theorem Moment.Tracing.run {G : Slot → List (Callback κ)} {c₀ : Chip} {M : Moment κ σ α}
    (hcallbacks : ∀ c pc, (env.respond c (.visiting pc)).Idle) (hconditions : ∀ c, C c → (env.holds c).Orderly P C)
    (hP : ∀ a, P a → a.Hookless) (hM : M.Tracing P C G c₀ []) (n : Nat) :
    ∃ es seen c, M.events env n = es.flatMap Execution.events ++ seen ∧ (M.after env n).Tracing P C G c seen ∧
      Executed P G c₀ es c := by
  induction n with
  | zero => exact ⟨[], [], c₀, rfl, hM, .nil P G c₀⟩
  | succ n ih =>
    obtain ⟨es, seen, c, hevents, htracing, hes⟩ := ih
    rw [events, hevents, after]
    cases hnext : (M.after env n).advance env with
    | none =>
      rw [event?_of_advance hnext, Option.getD_none]
      exact ⟨es, seen, c, List.append_nil _, htracing, hes⟩
    | some M' =>
      rw [Option.getD_some]
      cases htracing.advance hcallbacks hconditions hP hnext with
      | onward h => exact ⟨es, _, c, List.append_assoc .., h, hes⟩
      | @executed e d hevent hseen he hb h =>
        refine ⟨es ++ [e], [], _, ?_, h, hes.concat hb he⟩
        rw [hevent, hseen, List.flatMap_append, List.flatMap_singleton, Option.toList_some, List.append_nil,
          List.append_assoc]
        rfl

/-- Breakpoints trace execution exactly. Take the moments of any run, paced or not, with a condition or a
limit, on a machine without hooks, where the callbacks at addresses change nothing but may request a stop. The
conditions `C`, that of the run among them, may change the machine, take steps and start runs under conditions
of `C`, but they register no hooks.

What is seen of the run up to any moment is that, for each instruction that is executed, the callbacks that are
registered at its address are told, each once, in the order of registration and with the chip as it is before
the instruction, and then it is executed; and after that, the first callbacks of the instruction that is next
may be told. Each of these instructions can be fetched, and at the end of the run no callback was told without
its instruction.

If the conditions change nothing either, the instructions are executed on the chips that the steps of the
machine's chip lead to, one after the other, and the callbacks are those that are registered at the start. -/
theorem breakpoints_trace_execution (hcallbacks : ∀ c pc, (env.respond c (.visiting pc)).Idle)
    (hconditions : ∀ c, C c → (env.holds c).Orderly Act.Hookless C) {s : Script κ σ (Except Fault Unit)} (hs : s.IsRun)
    (hC : ∀ c, s = Script.runWhile c → C c) {b : Bench κ σ}
    (hhooks : ∀ t : Slot, t.isHook → b.machine.registry.callbacks t = []) (hrunning : b.machine.registry.running = [])
    (n : Nat) :
    ∃ (es : List (Execution κ)) (next : Option (Execution κ)) (rest : List (TraceEvent κ)),
      (Moment.start s b).events env n = es.flatMap Execution.events ++ rest ∧
      rest <+: next.toList.flatMap Execution.tells ∧
      (∀ e ∈ es, e.chip.pc = e.addr ∧ ∃ d, fetch e.chip.code e.addr = .ok d) ∧
      (∀ e ∈ next, ∃ d, ((Moment.start s b).after env n).bench.About e d) ∧
      (((Moment.start s b).after env n).advance env = none → next = none) ∧
      ((∀ c, C c → (env.holds c).Orderly Act.Idle C) →
        (es ++ next.toList).map Execution.chip =
          (List.range (es ++ next.toList).length).map (fun i => (Chip.stepped^[i] b.machine.chip).core) ∧
        ∀ e ∈ es ++ next.toList, e.callbacks = b.machine.registry.callbacks (.visit e.addr)) := by
  -- the run is followed once, with as much as is known of its conditions
  by_cases hidle : ∀ c, C c → (env.holds c).Orderly Act.Idle C
  · have hstart := Moment.Tracing.start (.isRun (fun _ h => h) hs hC) hhooks hrunning
    obtain ⟨es, rest, c, hevents, htracing, hes⟩ := hstart.run hcallbacks hidle (fun _ h => h.hookless) n
    obtain ⟨next, hrest, hnext, hend⟩ := htracing.exists_next
    refine ⟨es, next, rest, hevents, hrest, hes.fetched, fun e he => (hnext e he).2, hend, fun _ => ?_⟩
    cases next with
    | none =>
      rw [Option.toList_none, List.append_nil]
      exact ⟨hes.chips fun _ h => h, hes.callbacks fun _ h => h⟩
    | some e =>
      obtain ⟨hb, d, he⟩ := hnext e rfl
      exact ⟨(hes.concat hb he).chips fun _ h => h, (hes.concat hb he).callbacks fun _ h => h⟩
  · have hstart := Moment.Tracing.start (.isRun (fun _ h => h.hookless) hs hC) hhooks hrunning
    obtain ⟨es, rest, c, hevents, htracing, hes⟩ := hstart.run hcallbacks hconditions (fun _ h => h) n
    obtain ⟨next, hrest, hnext, hend⟩ := htracing.exists_next
    exact ⟨es, next, rest, hevents, hrest, hes.fetched, fun e he => (hnext e he).2, hend, fun h => absurd h hidle⟩

/-- Callbacks of which the second one requests a stop after one instruction. -/
def stopAfterFirst : Environment Nat Unit where
  respond c _ := do
    let executed ← Script.chip Chip.executed
    if c = 1 ∧ executed = 1 then Script.stop
  holds _ := return true

/-- A jump to itself, with two breakpoints. -/
def selfJumpBench : Bench Nat Unit where
  machine :=
    { chip := (Chip.new Pacer.period1MHz {}).load #[0x80, 0xFE]
      registry := (({} : Registry (Callback Nat)).add (.visit 0) (.custom 0)).add (.visit 0) (.custom 1) }
  world := ()

/-- Where something is seen, and the callback that is told. -/
def TraceEvent.label : TraceEvent κ → UInt16 × Option (Callback κ)
  | .told addr c _ => (addr, some c)
  | .executed e => (e.addr, none)

/-- Both breakpoints run at each of the two visits, also after the request to stop. -/
theorem self_jump_traced :
    ((Moment.start Script.start selfJumpBench).events stopAfterFirst 40).map TraceEvent.label =
      [(0, some (.custom 0)), (0, some (.custom 1)), (0, none), (0, some (.custom 0)), (0, some (.custom 1)), (0, none)] ∧
    ((Moment.start Script.start selfJumpBench).after stopAfterFirst 40).advance stopAfterFirst = none ∧
    ∃ es : List (Execution Nat),
      (Moment.start Script.start selfJumpBench).events stopAfterFirst 40 = es.flatMap Execution.events ∧
      es.map Execution.chip =
        (List.range es.length).map (fun i => (Chip.stepped^[i] selfJumpBench.machine.chip).core) ∧
      ∀ e ∈ es, e.callbacks = selfJumpBench.machine.registry.callbacks (.visit e.addr) := by
  have hcallbacks : ∀ c pc, (stopAfterFirst.respond c (.visiting pc)).Idle := by
    intro c pc m w
    dsimp only [Script.bind]
    split
    · exact ⟨fun _ => rfl, trivial⟩
    · trivial
  have hend : ((Moment.start Script.start selfJumpBench).after stopAfterFirst 40).advance stopAfterFirst = none := by
    rw [← Option.isNone_iff_eq_none]
    decide +kernel
  have hhooks : ∀ t : Slot, t.isHook → selfJumpBench.machine.registry.callbacks t = [] := by
    intro t ht
    cases t with
    | visit pc => cases ht
    | read addr => rfl
    | write addr => rfl
  obtain ⟨es, next, rest, hevents, hrest, -, -, hnext, hidle⟩ :=
    breakpoints_trace_execution (C := fun _ => False) hcallbacks (fun _ h => h.elim) .paced (by rintro _ ⟨⟩) hhooks rfl 40
  obtain rfl := hnext hend
  obtain rfl := List.prefix_nil.1 hrest
  obtain ⟨hchips, hcalled⟩ := hidle fun _ h => h.elim
  rw [Option.toList_none, List.append_nil] at hchips hcalled
  refine ⟨by decide +kernel, hend, es, ?_, hchips, hcalled⟩
  rw [hevents, List.append_nil]

end Micro8051
