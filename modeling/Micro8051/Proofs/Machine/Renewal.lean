/-
Resets. A machine that is reset is as a new one with the same period and flags and the same program, whatever
happened to it before; its callbacks are kept. Without callbacks it can not be told from the new one by any
sequence of operations. The memories of both are filled anew, and what comes of the entropy that each of them is
given is the same if the flags promise what memories hold.

The new machine may have callbacks that trace its latches, and its waits and its interrupt are its own. The
latter can not be seen (`Performs.under`), and the former are observers, which are transparent.
-/
import Micro8051.Proofs.Machine.Unwatched
import Micro8051.Proofs.Memory.Fill
import Micro8051.Proofs.Observers.Transparency
import Micro8051.Proofs.Run.Pacing

namespace Micro8051

variable {κ σ : Type} {env : Environment κ σ} {b b' f : Bench κ σ}

/-! ## Chips -/

namespace Chip

/-- The chip at its beginning, with the given memories. -/
def restart (c : Chip) (memories : Internal × External) : Chip :=
  { c with data := memories.1, xdata := memories.2, pc := 0, executed := 0, pacer := c.pacer.dropStop }

theorem restart_restart (c : Chip) (memories memories' : Internal × External) :
    (c.restart memories).restart memories' = c.restart memories' := rfl

theorem flags_restart (c : Chip) (memories : Internal × External) : (c.restart memories).flags = c.flags := rfl

variable {c : Chip} {entropy : Entropy}

theorem reset_eq (c : Chip) (entropy : Entropy) : c.reset entropy = c.restart (c.flags.contents.memories entropy) := by
  -- the memories are named, as they are too large to be unfolded
  obtain ⟨memories, hm⟩ : ∃ memories, c.flags.contents.memories entropy = memories := ⟨_, rfl⟩
  unfold reset
  rw [hm]
  rfl

/-- A chip after a reset is as a new one, but for its program. -/
theorem reset_eq_load (c : Chip) (entropy : Entropy) :
    c.reset entropy = (new c.pacer.period c.flags entropy).load c.code := by
  obtain ⟨memories, hm⟩ : ∃ memories, c.flags.contents.memories entropy = memories := ⟨_, rfl⟩
  unfold new
  rw [reset_eq, hm]
  rfl

theorem flags_reset : (c.reset entropy).flags = c.flags := by
  rw [reset_eq, flags_restart]

/-- The last reset counts. -/
theorem reset_reset (c : Chip) (entropy entropy' : Entropy) : (c.reset entropy).reset entropy' = c.reset entropy' := by
  rw [reset_eq (c.reset entropy), flags_reset, reset_eq c, restart_restart, ← reset_eq]

theorem reset_congr (h : c.flags.contents ≠ .unseeded) (entropy entropy' : Entropy) :
    c.reset entropy = c.reset entropy' := by
  rw [reset_eq, reset_eq, Contents.memories_congr h entropy entropy']

end Chip

/-! ## Benches -/

/-- What a reset brings about: it renews the state of the machine, and keeps its configuration and its
callbacks. -/
structure Bench.Renewed (b b' : Bench κ σ) : Prop where
  /-- The general-purpose half of internal memory holds the first bytes of the supply; special function
  registers are zero. -/
  data : ∀ a, some (b'.machine.chip.data.get a) =
    if a < sfrStart then b.machine.chip.flags.contents.byte? a.toNat else some 0
  /-- External memory holds the bytes that come next. -/
  xdata : ∀ a, some (b'.machine.chip.xdata.get a) = b.machine.chip.flags.contents.byte? (a.toNat + sfrStart.toNat)
  pc : b'.machine.chip.pc = 0
  executed : b'.machine.chip.executed = 0
  stopPending : b'.machine.chip.pacer.stopPending = false
  interrupt : b'.interrupt = none
  code : b'.machine.chip.code = b.machine.chip.code
  flags : b'.machine.chip.flags = b.machine.chip.flags
  period : b'.machine.chip.pacer.period = b.machine.chip.pacer.period
  registry : b'.machine.registry = b.machine.registry
  world : b'.world = b.world

/-- The bench after a reset. -/
def Bench.reset (b : Bench κ σ) (entropy : Entropy) : Bench κ σ :=
  { b with machine := ⟨b.machine.chip.reset entropy, b.machine.registry⟩, interrupt := none }

theorem Script.yields_reset (entropy : Entropy) : (reset entropy).Yields env b () (b.reset entropy) := by
  have hedit : (Act.edit fun c => c.reset entropy).apply b =
      { b with machine := ⟨b.machine.chip.reset entropy, b.machine.registry⟩ } := by
    simp only [Act.apply, Machine.onChip]
  unfold reset edit
  exact yields_bind.2 ⟨(), _, yields_perform.2 hedit, yields_perform.2 rfl⟩

section Reset

variable {entropy entropy' : Entropy}

theorem Bench.registry_reset : (b.reset entropy).machine.registry = b.machine.registry := by
  simp only [reset]

theorem Bench.world_reset : (b.reset entropy).world = b.world := by
  simp only [reset]

theorem Bench.reset_reset : (b.reset entropy).reset entropy' = b.reset entropy' := by
  simp only [reset, Chip.reset_reset]

theorem Bench.reset_congr (h : b.machine.chip.flags.contents ≠ .unseeded) (entropy entropy' : Entropy) :
    b.reset entropy = b.reset entropy' := by
  unfold reset
  rw [Chip.reset_congr h entropy entropy']

theorem Bench.reset_renewed (h : b.machine.chip.flags.contents ≠ .unseeded) (entropy : Entropy) :
    b.Renewed (b.reset entropy) := by
  have hdata := Contents.byte?_data h entropy
  have hxdata := Contents.byte?_xdata h entropy
  unfold reset
  rw [Chip.reset_eq]
  obtain ⟨memories, hm⟩ : ∃ memories, b.machine.chip.flags.contents.memories entropy = memories := ⟨_, rfl⟩
  rw [hm] at hdata hxdata ⊢
  exact ⟨hdata, hxdata, rfl, rfl, rfl, rfl, rfl, rfl, rfl, rfl, rfl⟩

end Reset

/-! ## Operations -/

/-- Operations come to the same under any schedule, and whatever can not be seen is different. -/
theorem Performs.under {ops : List (Operation κ)} {replies : List (Reply × Chip)} (h : Performs env b ops replies)
    (p : Schedule) (hb : b.seen = b'.seen) : Performs (env.under p) b' ops replies := by
  induction h generalizing b' with
  | nil b => exact .nil b'
  | @cons b b₁ op ops x rest h _ ih =>
    obtain ⟨b₁', hy, hb₁⟩ := h.under p hb
    rw [(seen_eq.1 hb₁).1]
    exact .cons hy (ih hb₁)

theorem performs_iff_of_seen (p : Schedule) (hb : b.seen = b'.seen) (ops : List (Operation κ))
    (replies : List (Reply × Chip)) : Performs env b ops replies ↔ Performs (env.under p) b' ops replies :=
  ⟨fun h => h.under p hb, fun h => h.under env.schedule hb.symm⟩

/-- The signals that paced runs receive have nothing to do with the callbacks. -/
theorem Environment.Separates.under (h : env.Separates (id : σ → σ) fun _ => false) (p : Schedule) :
    (env.under p).Separates (id : σ → σ) fun _ => false where
  records c hc := by cases hc
  respond := h.respond
  holds := h.holds

theorem seen_ext (hchip : b.machine.chip = b'.machine.chip) (hregistry : b.machine.registry = b'.machine.registry)
    (hworld : b.world = b'.world) : b.seen = b'.seen := by
  obtain ⟨⟨chip, registry⟩, world, _, _, _⟩ := b
  obtain ⟨⟨chip', registry'⟩, world', _, _, _⟩ := b'
  cases hchip
  cases hregistry
  cases hworld
  rfl

/-- A machine without callbacks and one that traces its latches do the same: the traces are observers. -/
theorem performs_iff_of_latchTraces (hsep : env.Separates id fun _ => false) (p : Schedule)
    (hchip : b.machine.chip = f.machine.chip) (hb : b.machine.registry = {})
    (hf : f.machine.registry = Machine.latchTraces) (hworld : b.world = f.world) (ops : List (Operation κ))
    (replies : List (Reply × Chip)) : Performs env b ops replies ↔ Performs (env.under p) f ops replies := by
  -- what can not be seen is first made the same
  have hseen : b.seen = Bench.seen { f with machine := b.machine } := seen_ext rfl rfl hworld
  have hagree : Bench.Agree id (Callback.isOther fun _ => false) { f with machine := b.machine } f := by
    refine ⟨hchip, ?_, rfl, rfl, rfl⟩
    rw [hb, hf]
    exact .of_waiting rfl rfl
  rw [performs_iff_of_seen p hseen]
  exact ⟨fun h => h.transfer (hsep.under p) hagree, fun h => h.transfer (hsep.under p) hagree.symm⟩

/-! ## New machines -/

/-- `f` is a new machine with the period, the flags and the program of `b`, whatever entropy it was given. -/
structure Bench.Fresh (b f : Bench κ σ) : Prop where
  machine : ∃ entropy, f.machine = (Machine.new b.machine.chip.pacer.period b.machine.chip.flags entropy).onChip
    fun c => c.load b.machine.chip.code
  world : f.world = b.world

namespace Bench.Fresh

theorem chip_eq (hf : b.Fresh f) (h : b.machine.chip.flags.contents ≠ .unseeded) (entropy : Entropy) :
    (b.reset entropy).machine.chip = f.machine.chip := by
  obtain ⟨entropy', hm⟩ := hf.machine
  rw [hm, reset_congr h entropy entropy']
  simp only [Bench.reset, Machine.onChip, Machine.new, Chip.reset_eq_load]

theorem registry_eq (hf : b.Fresh f) :
    f.machine.registry = if b.machine.chip.flags.traceLatches then Machine.latchTraces else {} := by
  obtain ⟨entropy, hm⟩ := hf.machine
  rw [hm]
  simp only [Machine.onChip, Machine.new]

/-- Without callbacks, and without latches that are traced, all that can be seen is the same. -/
theorem seen_eq (hf : b.Fresh f) (h : b.machine.chip.flags.contents ≠ .unseeded) (hb : b.machine.registry = {})
    (ht : b.machine.chip.flags.traceLatches = false) (entropy : Entropy) : (b.reset entropy).seen = f.seen := by
  refine seen_ext (hf.chip_eq h entropy) ?_ (world_reset.trans hf.world.symm)
  rw [hf.registry_eq, ht, Bench.registry_reset, hb, if_neg Bool.false_ne_true]

theorem performs_iff (hf : b.Fresh f) (h : b.machine.chip.flags.contents ≠ .unseeded) (hb : b.machine.registry = {})
    (p : Schedule) (hsep : b.machine.chip.flags.traceLatches = false ∨ env.Separates id fun _ => false)
    (entropy : Entropy) (ops : List (Operation κ)) (replies : List (Reply × Chip)) :
    Performs env (b.reset entropy) ops replies ↔ Performs (env.under p) f ops replies := by
  cases ht : b.machine.chip.flags.traceLatches with
  | false => exact performs_iff_of_seen p (hf.seen_eq h hb ht entropy) ops replies
  | true =>
    have hsep : env.Separates id fun _ => false := hsep.resolve_left (by rw [ht]; decide)
    have hregistry : f.machine.registry = Machine.latchTraces := by
      rw [hf.registry_eq, ht, if_pos rfl]
    exact performs_iff_of_latchTraces hsep p (hf.chip_eq h entropy) (registry_reset.trans hb) hregistry
      (world_reset.trans hf.world.symm) ops replies

end Bench.Fresh

/-- Take any machine, whatever happened to it before, whose flags promise what its memories hold. A reset renews
it, and another reset changes nothing more; both come to the same with any entropy. Its chip is then that of a new
machine with the same program. If no callbacks are registered, its runs take the same steps as those of the new
machine, and all operations come to the same replies and leave the same chips, whatever signals the machines
receive. If the new machine traces its latches, the conditions of runs must not look at the registry. -/
theorem reset_renews (env : Environment κ σ) (b : Bench κ σ) (h : b.machine.chip.flags.contents ≠ .unseeded) :
    ∃ b', (∀ entropy, (Script.reset entropy).Yields env b () b') ∧ b.Renewed b' ∧
      (∀ entropy, (Script.reset entropy).Yields env b' () b') ∧
      ∀ f, b.Fresh f → b'.machine.chip = f.machine.chip ∧ (b.machine.registry = {} → ∀ p,
        (b.machine.chip.flags.traceLatches = false →
          ∀ m steps x, Course env m b' steps x ↔ Course (env.under p) m f steps x) ∧
        (b.machine.chip.flags.traceLatches = false ∨ (env.Separates id fun _ => false) →
          ∀ ops replies, Performs env b' ops replies ↔ Performs (env.under p) f ops replies)) := by
  refine ⟨b.reset .none, fun entropy => ?_, Bench.reset_renewed h .none, fun entropy => ?_, fun f hf => ?_⟩
  · rw [Bench.reset_congr h .none entropy]
    exact Script.yields_reset entropy
  · have hagain : (Script.reset entropy).Yields env (b.reset .none) () ((b.reset .none).reset entropy) :=
      Script.yields_reset entropy
    rwa [Bench.reset_reset, Bench.reset_congr h entropy .none] at hagain
  · refine ⟨hf.chip_eq h .none, fun hb p => ⟨fun ht m steps x => ?_, fun hor => hf.performs_iff h hb p hor .none⟩⟩
    have hseen := hf.seen_eq h hb ht .none
    exact ⟨fun hc => hc.under p rfl hseen, fun hc => hc.under env.schedule rfl hseen.symm⟩

/-- A machine that has been in use: requests wait, and its flags ask for traced latches. -/
def usedBench : Bench Unit Unit where
  machine :=
    { chip :=
        { data := Memory.zero.set 0x30 0x07, xdata := Memory.zero, pc := 3, executed := 9
          code := #[0x75, 0x90, 0x01], flags := { contents := .known 0x5A, traceLatches := true }
          pacer := { period := Pacer.period1MHz, stopPending := true } } }
  world := ()
  interrupt := some 1

/-- The new machine for it, which traces its latches. -/
def unusedBench : Bench Unit Unit where
  machine := (Machine.new usedBench.machine.chip.pacer.period usedBench.machine.chip.flags).onChip fun c =>
    c.load usedBench.machine.chip.code
  world := ()

theorem idle_separates : Environment.idle.Separates id fun _ => false where
  records _ hc := by cases hc
  respond _ _ _ := .pure ()
  holds _ := .pure true

theorem used_machine_renewed : ∃ b' replies, (Script.reset .none).Yields .idle usedBench () b' ∧ usedBench.Renewed b' ∧
    Performs .idle b' [.read 0x30, .step, .run (.limited 5)] replies ∧
    Performs .idle unusedBench [.read 0x30, .step, .run (.limited 5)] replies ∧
    replies.map Prod.fst = [.byte 0x5A, .outcome (.ok ()), .outcome (.error (.outOfBounds 3 3))] := by
  have hreplies : (perform? .idle 4 unusedBench [.read 0x30, .step, .run (.limited 5)]).map
      (fun replies => replies.map Prod.fst) =
        some [.byte 0x5A, .outcome (.ok ()), .outcome (.error (.outOfBounds 3 3))] := by
    decide +kernel
  obtain ⟨replies, hr, he⟩ := Option.map_eq_some_iff.1 hreplies
  have hfresh := performs_of_perform? hr
  obtain ⟨b', hreset, hrenewed, -, hnew⟩ := reset_renews .idle usedBench (by decide)
  obtain ⟨-, hsame⟩ := hnew unusedBench ⟨⟨.none, rfl⟩, rfl⟩
  obtain ⟨-, hperforms⟩ := hsame rfl Schedule.ticking
  exact ⟨b', replies, hreset .none, hrenewed, (hperforms (.inr idle_separates) _ _).2 hfresh, hfresh, he⟩

end Micro8051
