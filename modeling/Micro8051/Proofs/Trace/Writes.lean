/-
The log of a recorder over the steps of a machine is the complete history of the cells that it watches.
The callbacks that trace the latches of the pins are such a recorder, with the journal for a log.
-/
import Micro8051.Proofs.Trace.Recorder

namespace Micro8051

variable {κ σ : Type} {env : Environment κ σ} {W : UInt8 → Bool}

namespace Recorder

variable {R : Recorder env W} {b b' : Bench κ σ}

/-! ## Steps -/

/-- A step from `b` to `b'` has recorded the events `es`. They are the history of the cells over the step,
and the program counter of each is the address of the instruction that the step executes. External memory
changes where the data pointer points, if the instruction stores the accumulator there, and nowhere else. -/
structure Recorded (R : Recorder env W) (b : Bench κ σ) (es : List Event) (b' : Bench κ σ) : Prop where
  log : R.log b' = R.log b ++ es
  history : History W b.machine.chip.data es b'.machine.chip.data
  executed : ∃ d, fetch b.machine.chip.code b.machine.chip.pc = .ok d ∧ (∀ e ∈ es, e.pc = d.pc) ∧
    b'.machine.chip.xdata =
      if d.instr = .movxStore then
        b.machine.chip.xdata.set b.machine.chip.dptr (b.machine.chip.data.get Sfr.acc)
      else b.machine.chip.xdata

theorem Watches.step (h : R.Watches b) (hs : Script.step.Yields env b (.ok ()) b') :
    R.Watches b' ∧ ∃ es, R.Recorded b es b' := by
  cases hf : fetch b.machine.chip.code b.machine.chip.pc with
  | error fault => cases (Script.yields_step_of_fault hf).unique hs |>.1
  | ok d =>
    obtain ⟨b₁, hy, hr⟩ := Script.yields_step_watched h hf
    obtain ⟨-, rfl⟩ := hs.unique hy
    refine ⟨hr.watches, _, hr.log, ?_, d, hf, fun e he => ?_, ?_⟩
    · rw [hr.chip]
      exact d.cycles.history W b.machine.chip
    · rw [d.cycles.pc_of_mem_events _ he, pc_of_fetch hf]
    · rw [hr.chip]
      exact d.xdata_onChip b.machine.chip

/-- There is always a next step; it leaves everything as it is if it fails. -/
theorem Watches.exists_step (h : R.Watches b) :
    (∃ b', Script.step.Yields env b (.ok ()) b') ∨ ∃ fault, Script.step.Yields env b (.error fault) b := by
  cases hf : fetch b.machine.chip.code b.machine.chip.pc with
  | error fault => exact .inr ⟨fault, Script.yields_step_of_fault hf⟩
  | ok d =>
    obtain ⟨b', hy, -⟩ := Script.yields_step_watched h hf
    exact .inl ⟨b', hy⟩

/-! ## Sequences of steps -/

section Steps

variable {B : Nat → Bench κ σ} {n : Nat}

theorem watches_of_steps (h0 : R.Watches (B 0)) (hrun : ∀ k < n, Script.step.Yields env (B k) (.ok ()) (B (k + 1))) :
    ∀ k ≤ n, R.Watches (B k) := by
  intro k hk
  induction k with
  | zero => exact h0
  | succ k ih => exact ((ih (by omega)).step (hrun k (by omega))).1

/-- What the steps have recorded, one after the other, is the history of the cells over all of them. -/
theorem recorded_of_steps (h0 : R.Watches (B 0))
    (hrun : ∀ k < n, Script.step.Yields env (B k) (.ok ()) (B (k + 1))) :
    ∃ E : Nat → List Event, (∀ k < n, R.Recorded (B k) (E k) (B (k + 1))) ∧
      R.log (B n) = R.log (B 0) ++ (List.range n).flatMap E ∧
      History W (B 0).machine.chip.data ((List.range n).flatMap E) (B n).machine.chip.data := by
  have hstep : ∀ k, ∃ es, k < n → R.Recorded (B k) es (B (k + 1)) := by
    intro k
    by_cases hk : k < n
    · obtain ⟨es, h⟩ := ((watches_of_steps h0 hrun k hk.le).step (hrun k hk)).2
      exact ⟨es, fun _ => h⟩
    · exact ⟨[], fun h => absurd h hk⟩
  choose E hE using hstep
  have hsum : ∀ k ≤ n, R.log (B k) = R.log (B 0) ++ (List.range k).flatMap E ∧
      History W (B 0).machine.chip.data ((List.range k).flatMap E) (B k).machine.chip.data := by
    intro k hk
    induction k with
    | zero => exact ⟨(List.append_nil _).symm, .nil fun _ _ => rfl⟩
    | succ k ih =>
      obtain ⟨hl, hh⟩ := ih (by omega)
      have h := hE k (by omega)
      rw [List.range_succ, List.flatMap_append, List.flatMap_singleton]
      exact ⟨by rw [h.log, hl, List.append_assoc], hh.append h.history⟩
  exact ⟨E, fun k hk => hE k hk, hsum n le_rfl⟩

end Steps

end Recorder

/-! ## Traces of the latches -/

/-- The latch whose cell has an address. -/
def latchAt? (addr : UInt8) : Option Sfr := Sfr.latches.find? fun r => r.addr = addr

/-- The write to a latch that a record reports. -/
def Record.latchEvent? : Record → Option Event
  | .latchWrite pc name old new =>
    (Sfr.latches.find? fun r => r.name = name).map fun r => ⟨pc, r.addr, old, new⟩
  | _ => none

/-- The writes to latches that a journal reports, in order. -/
def Journal.latchEvents (j : Journal) : List Event := j.records.toList.filterMap Record.latchEvent?

theorem latchAt?_eq_some {addr : UInt8} {r : Sfr} (h : latchAt? addr = some r) :
    r.addr = addr ∧ Sfr.latches.find? (fun r' => r'.name = r.name) = some r := by
  have hnames : ∀ r ∈ Sfr.latches, Sfr.latches.find? (fun r' => r'.name = r.name) = some r := by decide
  exact ⟨by simpa using List.find?_some h, hnames r (List.mem_of_find?_eq_some h)⟩

theorem filter_latches (addr : UInt8) : (Sfr.latches.filter fun r => r.addr = addr) = (latchAt? addr).toList := by
  unfold latchAt?
  by_cases h : ∃ r ∈ Sfr.latches, r.addr = addr
  · obtain ⟨r, hr, rfl⟩ := h
    revert r
    decide
  · push Not at h
    rw [List.find?_eq_none.2 (by simpa using h), List.filter_eq_nil_iff.2 (by simpa using h)]
    rfl

theorem Journal.keeps_add (j : Journal) (r : Record) (l : Level) : (j.add r).keeps l = j.keeps l := by
  unfold Journal.add
  split <;> rfl

theorem Journal.latchEvents_add (j : Journal) (r : Record) :
    (j.add r).latchEvents = if j.keeps r.level then j.latchEvents ++ r.latchEvent?.toList else j.latchEvents := by
  unfold Journal.add
  split
  · simp only [latchEvents, Array.toList_push, List.filterMap_append]
    cases h : r.latchEvent? <;> simp [h]
  · rfl

/-- The callbacks that trace the latches, where records of their level are kept. -/
def Recorder.latches (env : Environment κ σ) : Recorder env fun a => (latchAt? a).isSome where
  callback a := .latch ((latchAt? a).getD ⟨a, ""⟩)
  log b := b.journal.latchEvents
  Ready b := b.journal.keeps .info
  records := by
    intro b a old new hb ha
    obtain ⟨r, hr⟩ := Option.isSome_iff_exists.1 ha
    obtain ⟨rfl, hname⟩ := latchAt?_eq_some hr
    refine ⟨_, Script.yields_bind.2 ⟨_, b, Script.yields_chip.2 ⟨rfl, rfl⟩, Script.yields_perform.2 rfl⟩, rfl, ?_, ?_⟩
    · exact (Journal.keeps_add _ _ _).trans hb
    · refine (Journal.latchEvents_add _ _).trans ((if_pos hb).trans ?_)
      rw [hr, Option.getD_some, Record.latchEvent?, hname]
      rfl
  ready_machine _ hb := hb
  log_machine _ _ := rfl
  ready_executing _ _ hb := (Journal.keeps_add _ _ _).trans hb
  log_executing b pc mnemonic := by
    refine (Journal.latchEvents_add _ _).trans ?_
    split
    · exact List.append_nil _
    · rfl

theorem callbacks_latchTraces (t : Slot) :
    (Machine.latchTraces : Registry (Callback κ)).callbacks t =
      (Sfr.latches.filter fun r => Slot.write r.addr = t).map .latch := by
  have hwaiting : (Machine.latchTraces : Registry (Callback κ)).waiting =
      Sfr.latches.map fun r => (.write r.addr, .latch r) := rfl
  rw [Registry.callbacks, hwaiting, List.filter_map, List.map_map]
  rfl

theorem Recorder.latches_watches {b : Bench κ σ} (hb : b.machine.registry = Machine.latchTraces)
    (hj : b.journal.keeps .info) : (Recorder.latches env).Watches b := by
  refine ⟨hj, fun a => ?_, fun a => ?_, fun pc => ?_⟩
  · rw [hb, callbacks_latchTraces]
    simp only [Slot.write.injEq]
    rw [filter_latches]
    cases h : latchAt? a with
    | none => rfl
    | some r => simp [latches, h]
  · rw [hb, callbacks_latchTraces]
    simp
  · rw [hb, callbacks_latchTraces]
    simp

/-! ## Histories of writes -/

/-- Take any steps of a machine, from any state.

If its only callbacks are a recorder's, one on each cell of internal memory, then the events recorded one
after the other, replayed on the memory at the start, yield the memory at the end; each tells what its cell
held at that point, and each step has recorded those of its instruction (`Recorder.Recorded`). So no cell
changes without an event. There is a next step, unless there is no instruction for it.

If its only callbacks are those that trace the latches, and the journal keeps their records, then these are
in the same way the complete history of the latches. -/
theorem writes_recorded (env : Environment κ σ) {B : Nat → Bench κ σ} {n : Nat}
    (hrun : ∀ k < n, Script.step.Yields env (B k) (.ok ()) (B (k + 1))) :
    (∀ R : Recorder env fun _ => true, R.Watches (B 0) → ∃ E : Nat → List Event,
      (∀ k < n, R.Recorded (B k) (E k) (B (k + 1))) ∧
      R.log (B n) = R.log (B 0) ++ (List.range n).flatMap E ∧
      (B n).machine.chip.data = replay (B 0).machine.chip.data ((List.range n).flatMap E) ∧
      (∀ before e after, (List.range n).flatMap E = before ++ e :: after →
        e.old = (replay (B 0).machine.chip.data before).get e.addr) ∧
      (∀ a, (B n).machine.chip.data.get a ≠ (B 0).machine.chip.data.get a →
        ∃ e ∈ (List.range n).flatMap E, e.addr = a) ∧
      ((∃ b, Script.step.Yields env (B n) (.ok ()) b) ∨
        ∃ fault, Script.step.Yields env (B n) (.error fault) (B n))) ∧
    ((B 0).machine.registry = Machine.latchTraces → (B 0).journal.keeps .info → ∃ E : Nat → List Event,
      (∀ k < n, (Recorder.latches env).Recorded (B k) (E k) (B (k + 1))) ∧
      (B n).journal.latchEvents = (B 0).journal.latchEvents ++ (List.range n).flatMap E ∧
      History (fun a => (latchAt? a).isSome) (B 0).machine.chip.data ((List.range n).flatMap E)
        (B n).machine.chip.data) := by
  refine ⟨fun R h0 => ?_, fun hb hj => Recorder.recorded_of_steps (Recorder.latches_watches hb hj) hrun⟩
  obtain ⟨E, hE, hlog, hhistory⟩ := Recorder.recorded_of_steps h0 hrun
  exact ⟨E, hE, hlog, hhistory.eq_replay fun _ => rfl, fun _ _ _ h => hhistory.chained h,
    fun _ hne => hhistory.exists_of_ne rfl hne, (Recorder.watches_of_steps h0 hrun n le_rfl).exists_step⟩

/-! ## A recorder on every cell -/

/-- Callbacks that keep what they are told of writes in the world. -/
def recording : Environment Unit (List Event) where
  respond _ o :=
    match o with
    | .writing addr old new => do
      let pc ← Script.chip Chip.pc
      Script.remember fun es => es ++ [⟨pc, addr, old, new⟩]
    | _ => return ()
  holds _ := return true

def Recorder.everywhere : Recorder recording fun _ => true where
  callback _ := .custom ()
  log b := b.world
  Ready _ := True
  records := by
    intro b a old new _ _
    exact ⟨_, Script.yields_bind.2 ⟨_, b, Script.yields_chip.2 ⟨rfl, rfl⟩, Script.yields_perform.2 rfl⟩,
      rfl, trivial, rfl⟩
  ready_machine _ _ := trivial
  log_machine _ _ := rfl
  ready_executing _ _ _ := trivial
  log_executing _ _ _ := rfl

theorem log_everywhere (b : Bench Unit (List Event)) : Recorder.everywhere.log b = b.world := rfl

/-- The addresses of internal memory. -/
def internalAddresses : List UInt8 := (List.finRange 256).map UInt8.ofFin

/-- A chip whose program writes to a latch and pushes it. -/
def latchingChip : Chip := (Chip.new Pacer.period1MHz {}).load #[0x75, 0x90, 0x05, 0xC0, 0x90]

/-- The chip with a recording callback on each cell. -/
def recordedBench : Bench Unit (List Event) where
  machine := { chip := latchingChip
               registry := { waiting := internalAddresses.map fun a => (.write a, .custom ()) } }
  world := []

/-- The chip with the callbacks that trace the latches, and a journal that keeps their records. -/
def tracedBench : Bench Unit (List Event) where
  machine := { chip := latchingChip, registry := Machine.latchTraces }
  world := []
  journal := { limit := some .info }

theorem everywhere_watches : Recorder.everywhere.Watches recordedBench := by
  have hcallbacks : ∀ t, recordedBench.machine.registry.callbacks t =
      (internalAddresses.filter fun a => Slot.write a = t).map fun _ => .custom () := by
    intro t
    unfold recordedBench Registry.callbacks
    rw [List.filter_map, List.map_map]
    rfl
  refine ⟨trivial, fun a => ?_, fun a => ?_, fun pc => ?_⟩
  · rw [hcallbacks]
    have hnodup : internalAddresses.Nodup :=
      (List.nodup_finRange 256).map fun i j h => congrArg UInt8.toFin h
    have hmem : a ∈ internalAddresses := List.mem_map.2 ⟨a.toFin, List.mem_finRange _, rfl⟩
    have hfilter : internalAddresses.filter (fun a' => Slot.write a' = .write a) = [a] := by
      simp only [Slot.write.injEq]
      rw [List.filter_eq, List.count_eq_one_of_mem hnodup hmem]
      rfl
    rw [hfilter]
    rfl
  · rw [hcallbacks]
    simp
  · rw [hcallbacks]
    simp

/-- The benches after some steps. -/
def recordedSteps (b : Bench Unit (List Event)) : Nat → Bench Unit (List Event)
  | 0 => b
  | k + 1 => ((Script.step.run recording 3 (recordedSteps b k)).map Prod.snd).getD (recordedSteps b k)

theorem yields_recordedSteps {b : Bench Unit (List Event)} {k : Nat}
    (h : ((Script.step.run recording 3 (recordedSteps b k)).map fun r => r.1.toBool) = some true) :
    Script.step.Yields recording (recordedSteps b k) (.ok ()) (recordedSteps b (k + 1)) := by
  obtain ⟨⟨r, b'⟩, hrun, hr⟩ := Option.map_eq_some_iff.1 h
  refine ⟨3, ?_⟩
  rw [recordedSteps, hrun]
  cases r with
  | ok u => rfl
  | error fault => cases hr

theorem every_write_recorded :
    ((recordedSteps recordedBench 2).world = [⟨0, 0x90, 0, 5⟩, ⟨3, 0x81, 0, 1⟩, ⟨3, 1, 0, 5⟩] ∧
      (recordedSteps recordedBench 2).machine.chip.data =
        replay latchingChip.data (recordedSteps recordedBench 2).world) ∧
    (recordedSteps tracedBench 2).journal.latchEvents = [⟨0, 0x90, 0, 5⟩] ∧
    History (fun a => (latchAt? a).isSome) latchingChip.data (recordedSteps tracedBench 2).journal.latchEvents
      (recordedSteps tracedBench 2).machine.chip.data := by
  have hrun : ∀ k < 2, ((Script.step.run recording 3 (recordedSteps recordedBench k)).map fun r => r.1.toBool) =
      some true := by
    decide +kernel
  have htraced : ∀ k < 2, ((Script.step.run recording 3 (recordedSteps tracedBench k)).map fun r => r.1.toBool) =
      some true := by
    decide +kernel
  obtain ⟨E, -, hlog, hdata, -⟩ := (writes_recorded (B := recordedSteps recordedBench) recording
    fun k hk => yields_recordedSteps (hrun k hk)).1 Recorder.everywhere everywhere_watches
  obtain ⟨E', -, hlog', hhistory⟩ := (writes_recorded (B := recordedSteps tracedBench) recording
    fun k hk => yields_recordedSteps (htraced k hk)).2 rfl rfl
  rw [log_everywhere, log_everywhere] at hlog
  refine ⟨⟨by decide +kernel, ?_⟩, by decide +kernel, ?_⟩
  · rw [hdata, hlog]
    rfl
  · rw [hlog']
    exact hhistory

end Micro8051
