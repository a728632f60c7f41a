/-
Observers are transparent. Whatever a machine with observers comes to, the machine without them comes to as
well, and the other way round: the other callbacks run on the same occasions, in the same order and on the
same chip.

Two benches that agree but for observers are taken through the same call, by induction on the bound of its
outcome. The bound is that of one of the two benches only; the other one may need a larger bound, as its
observers need time of their own.
-/
import Micro8051.Proofs.Observers.Agreement
import Micro8051.Proofs.Run.Course

namespace Micro8051

variable {κ σ τ α : Type} {env : Environment κ σ} {others : σ → τ} {observes : κ → Bool}

/-! ## Observers and others -/

/-- Whether the callback is none of the observers. The callbacks that trace the latches are observers. -/
def Callback.isOther (observes : κ → Bool) : Callback κ → Bool
  | .latch _ => false
  | .custom c => !observes c

/-- Observers only record, in a part of the world of their own. The other callbacks, and the conditions of
runs, may do anything but look at this part or at the registry. -/
structure Environment.Separates (env : Environment κ σ) (others : σ → τ) (observes : κ → Bool) : Prop where
  records : ∀ c, observes c → (Callback.custom c).Records env others
  respond : ∀ c o, observes c = false → (env.respond c o).Discreet others
  holds : ∀ c, (env.holds c).Discreet others

namespace Environment.Separates

theorem records_of (h : env.Separates others observes) {c : Callback κ} (hc : ¬ c.isOther observes) :
    c.Records env others := by
  cases c with
  | latch r => exact Callback.latch_records r
  | custom c => exact h.records c (by simpa [Callback.isOther] using hc)

theorem discreet_of (h : env.Separates others observes) {c : Callback κ} (hc : c.isOther observes) (o : Occasion) :
    (c.respond env o).Discreet others := by
  cases c with
  | latch r => cases hc
  | custom c => exact h.respond c o (by simpa [Callback.isOther] using hc)

theorem guard (h : env.Separates others observes) (g : Guard κ) : (g.holds env).Discreet others := by
  cases g with
  | always => exact .pure true
  | below start limit => exact Script.Discreet.chip fun c => decide (c.executed - start < limit)
  | tripwire c => exact h.holds c

end Environment.Separates

/-! ## Answers on two benches -/

/-- Benches that agree but for observers. -/
abbrev Bench.Matches (others : σ → τ) (observes : κ → Bool) (b b' : Bench κ σ) : Prop :=
  b.Agree others (Callback.isOther observes) b'

/-- Calls that are answered within the bound `n` are answered alike on benches that agree. -/
def Transfers (env : Environment κ σ) (others : σ → τ) (observes : κ → Bool) (n : Nat) : Prop :=
  ∀ (c : Call κ) (b b' b₁ : Bench κ σ) (x : c.Answer), answer env n c b = some (x, b₁) →
    b.Matches others observes b' → ∃ b₁', (Script.ask c).Yields env b' x b₁' ∧ b₁.Matches others observes b₁'

section Serving

variable {o : Occasion} {b b' b₁ : Bench κ σ} {n : Nat}

/-- Where only observers wait, serving them makes no difference. -/
theorem yields_serve_of_observers (h : env.Separates others observes)
    (hc : (b.machine.registry.callbacks o.slot).filter (Callback.isOther observes) = []) :
    ∃ b₁, (Script.serve o).Yields env b () b₁ ∧
      ∀ b', b.Matches others observes b' → b₁.Matches others observes b' := by
  rcases eq_or_ne (b.machine.registry.callbacks o.slot) [] with he | he
  · exact ⟨b, Script.yields_serve_of_nil he, fun _ hb => hb⟩
  · have hrecords : ∀ c ∈ b.machine.registry.callbacks o.slot, c.Records env others :=
      fun c hm => h.records_of (List.filter_eq_nil_iff.1 hc c hm)
    obtain ⟨w, j, ht, hw⟩ := told_of_records (o := o) hrecords
      { b with machine := b.machine.onRegistry fun g => g.enter o.slot }
    refine ⟨_, Script.yields_serve_of_told he ht, fun b' hb => ?_⟩
    exact ⟨hb.chip, hb.registry.leave_enter o.slot, hw.trans hb.world, hb.waits, hb.interrupt⟩

end Serving

namespace Transfers

variable {n : Nat} {b b' b₁ : Bench κ σ}

theorem runWith (hn : Transfers env others observes n) {s s' : Script κ σ α} {a : α} (hs : s.Alike others s')
    (h : s.runWith (answer env n) b = some (a, b₁)) (hb : b.Matches others observes b') :
    ∃ b₁', s'.Yields env b' a b₁' ∧ b₁.Matches others observes b₁' := by
  induction hs generalizing b b' with
  | done x =>
    cases h
    exact ⟨b', Script.yields_pure.2 ⟨rfl, rfl⟩, hb⟩
  | look _ ih => exact ih _ _ _ _ hb.chip hb.world h hb
  | act ha _ ih => exact ih h (hb.act ha)
  | reportLeft r _ ih => exact ih h (hb.recorded rfl _)
  | reportRight r _ ih => exact ih h (hb.symm.recorded rfl _).symm
  | call c _ ih =>
    rw [Script.runWith] at h
    cases hc : answer env n c b with
    | none => rw [hc] at h; cases h
    | some x =>
      rw [hc] at h
      obtain ⟨b₂', hy, hb₂⟩ := hn c b b' x.2 x.1 hc hb
      obtain ⟨b₁', hy', hb₁⟩ := ih x.1 h hb₂
      exact ⟨b₁', Script.yields_bind.2 ⟨x.1, b₂', hy, hy'⟩, hb₁⟩

/-- Callbacks that are the same once the observers are left out are told of an event. -/
theorem tellAll (hn : Transfers env others observes n) (hsep : env.Separates others observes) {o : Occasion}
    {cs cs' : List (Callback κ)} (hcs : cs.filter (Callback.isOther observes) = cs'.filter (Callback.isOther observes))
    (h : tellAll (answer env n) env o cs b = some b₁) (hb : b.Matches others observes b') :
    ∃ b₁', Told env o cs' b' b₁' ∧ b₁.Matches others observes b₁' := by
  induction cs generalizing cs' b b' with
  | nil =>
    cases h
    have hrecords : ∀ c ∈ cs', c.Records env others :=
      fun c hm => hsep.records_of (List.filter_eq_nil_iff.1 hcs.symm c hm)
    obtain ⟨w, j, ht, hw⟩ := told_of_records (o := o) hrecords b'
    exact ⟨_, ht, (hb.symm.recorded hw j).symm⟩
  | cons c cs ih =>
    rw [Micro8051.tellAll] at h
    cases hc : (c.respond env o).runWith (answer env n) b with
    | none => rw [hc] at h; cases h
    | some x =>
      rw [hc] at h
      obtain ⟨u, b₂⟩ := x
      rcases Bool.eq_false_or_eq_true (c.isOther observes) with hother | hother
      · -- the observers before `c` on the other bench are told first
        rw [List.filter_cons_of_pos hother] at hcs
        obtain ⟨before, rest, rfl, hbefore, -, hrest⟩ := List.filter_eq_cons_iff.1 hcs.symm
        obtain ⟨w, j, ht, hw⟩ := told_of_records (o := o) (fun c hm => hsep.records_of (hbefore c hm)) b'
        obtain ⟨b₂', hy, hb₂⟩ := hn.runWith (hsep.discreet_of hother o) hc (hb.symm.recorded hw j).symm
        obtain ⟨b₁', ht', hb₁⟩ := ih hrest.symm h hb₂
        exact ⟨b₁', told_append.2 ⟨_, ht, told_cons.2 ⟨b₂', hy, ht'⟩⟩, hb₁⟩
      · rw [List.filter_cons_of_neg (by simp [hother])] at hcs
        obtain ⟨w, j, hy, hw⟩ := hsep.records_of (c := c) (by simp [hother]) o b
        obtain ⟨-, rfl⟩ := Script.Yields.unique ⟨n, hc⟩ hy
        exact ih hcs h (hb.recorded hw j)

theorem serveOn (hn : Transfers env others observes n) (hsep : env.Separates others observes) {o : Occasion}
    (h : serveOn (answer env n) env o b = some b₁) (hb : b.Matches others observes b') :
    ∃ b₁', (Script.serve o).Yields env b' () b₁' ∧ b₁.Matches others observes b₁' := by
  have hslot := hb.registry.waiting o.slot
  rcases eq_or_ne ((b.machine.registry.callbacks o.slot).filter (Callback.isOther observes)) [] with hc | hc
  · obtain ⟨b₂, hy, hb₂⟩ := yields_serve_of_observers hsep hc
    have hserve : (Script.serve o).Yields env b () b₁ := Script.yields_serve.2 ⟨n, h⟩
    obtain ⟨-, rfl⟩ := hy.unique hserve
    rw [hc] at hslot
    obtain ⟨b₁', hy', hb₁⟩ := yields_serve_of_observers hsep hslot.symm
    exact ⟨b₁', hy', (hb₁ _ (hb₂ _ hb).symm).symm⟩
  · have hne : b'.machine.registry.callbacks o.slot ≠ [] := by
      intro he
      rw [he] at hslot
      exact hc hslot
    unfold Micro8051.serveOn at h
    split at h
    · rename_i he
      rw [he] at hc
      exact absurd rfl hc
    · split at h
      · cases h
      · rename_i b₂ ht
        cases h
        obtain ⟨b₂', ht', hb₂⟩ := hn.tellAll hsep hslot ht (hb.change (.enter o.slot))
        exact ⟨_, Script.yields_serve_of_told hne ht', hb₂.change .leave⟩

/-- Rounds begin alike. -/
theorem turnOn (hn : Transfers env others observes n) (hsep : env.Separates others observes) {m : Mode κ} {t : Turn}
    (h : turnOn (answer env n) env m b = some (t, b₁)) (hb : b.Matches others observes b') :
    ∃ b₁', Turned env m b' t b₁' ∧ b₁.Matches others observes b₁' := by
  rcases em (b.stopPending = true) with hp | hp
  · obtain ⟨rfl, rfl⟩ := Turned.unique ⟨n, h⟩ (turned_finish hp)
    exact ⟨_, turned_finish (hb.stopPending ▸ hp), hb.edit _⟩
  have hp' : ¬ b'.stopPending = true := hb.stopPending ▸ hp
  cases m with
  | paced =>
    obtain ⟨hsignal, hwoken⟩ := hb.wait env.schedule
    obtain ⟨b₂, hw, -⟩ | ⟨source, b₂, hw, -⟩ := wait_cases env.schedule hp
    · rw [hw] at hsignal hwoken
      obtain ⟨rfl, rfl⟩ := Turned.unique ⟨n, h⟩ ⟨0, turnOn_of_tick hp hw⟩
      exact ⟨(b'.wait env.schedule).2, ⟨0, turnOn_of_tick hp' (Prod.ext hsignal.symm rfl)⟩, hwoken⟩
    · rw [hw] at hsignal hwoken
      obtain ⟨rfl, rfl⟩ := Turned.unique ⟨n, h⟩ ⟨0, turnOn_of_interrupt hp hw⟩
      exact ⟨(Act.report (.interruptIgnored source)).apply (b'.wait env.schedule).2,
        ⟨0, turnOn_of_interrupt hp' (Prod.ext hsignal.symm rfl)⟩, hwoken.act (.report _ _)⟩
  | unpaced g =>
    cases hg : (g.holds env).runWith (answer env n) b with
    | none =>
      unfold Micro8051.turnOn at h
      rw [if_neg hp] at h
      simp only [hg] at h
      cases h
    | some x =>
      obtain ⟨b₂', hy, hb₂⟩ := hn.runWith (hsep.guard g) hg hb
      obtain ⟨rfl, rfl⟩ := Turned.unique ⟨n, h⟩ ⟨n, turnOn_of_holds hp hg⟩
      exact ⟨b₂', turned_unpaced hp' hy, hb₂⟩

theorem roundsOn (hn : Transfers env others observes n) (hsep : env.Separates others observes) {m : Mode κ} {k : Nat}
    {r : Except Fault Unit} (h : roundsOn (answer env n) env m k b = some (r, b₁))
    (hb : b.Matches others observes b') :
    ∃ b₁', (Script.ask (.loop m)).Yields env b' r b₁' ∧ b₁.Matches others observes b₁' := by
  induction k generalizing b b' with
  | zero => cases h
  | succ k ih =>
    rw [Micro8051.roundsOn] at h
    cases ht : Micro8051.turnOn (answer env n) env m b with
    | none => rw [ht] at h; cases h
    | some x =>
      rw [ht] at h
      obtain ⟨t, b₂⟩ := x
      obtain ⟨b₂', ht', hb₂⟩ := hn.turnOn hsep ht hb
      cases t with
      | finish =>
        cases h
        exact ⟨b₂', yields_loop_of_finish ht', hb₂⟩
      | skip =>
        obtain ⟨b₁', hr, hb₁⟩ := ih h hb₂
        exact ⟨b₁', yields_loop_of_skip ht' hr, hb₁⟩
      | step =>
        simp only at h
        cases hs : Script.step.runWith (answer env n) b₂ with
        | none => rw [hs] at h; cases h
        | some y =>
          rw [hs] at h
          obtain ⟨r', b₃⟩ := y
          obtain ⟨b₃', hs', hb₃⟩ := hn.runWith Script.Discreet.step hs hb₂
          cases r' with
          | error fault =>
            cases h
            exact ⟨b₃', yields_loop_of_fail ht' hs', hb₃⟩
          | ok u =>
            obtain ⟨b₁', hr, hb₁⟩ := ih h hb₃
            exact ⟨b₁', yields_loop_of_step ht' hs' hr, hb₁⟩

end Transfers

theorem answer_transfers (hsep : env.Separates others observes) (n : Nat) : Transfers env others observes n := by
  induction n with
  | zero => intro c b b' b₁ x hx; cases c <;> cases hx
  | succ n ih =>
    intro c b b' b₁ x hx hb
    cases c with
    | serve o =>
      rw [answer] at hx
      cases hs : serveOn (answer env n) env o b with
      | none => rw [hs] at hx; cases hx
      | some b₂ =>
        rw [hs] at hx
        cases hx
        exact ih.serveOn hsep hs hb
    | loop m => exact ih.roundsOn hsep hx hb

/-- Scripts that are alike come to the same on benches that agree but for observers. -/
theorem Script.Alike.yields {s s' : Script κ σ α} (hs : s.Alike others s') (hsep : env.Separates others observes)
    {a : α} {b b' b₁ : Bench κ σ} (h : s.Yields env b a b₁) (hb : b.Matches others observes b') :
    ∃ b₁', s'.Yields env b' a b₁' ∧ b₁.Matches others observes b₁' := by
  obtain ⟨n, h⟩ := h
  exact (answer_transfers hsep n).runWith hs h hb

/-! ## Operations -/

/-- What can be asked of a machine from outside. -/
inductive Operation (κ : Type) where
  | step
  | read (addr : UInt8)
  | write (addr v : UInt8)
  | run (r : Run κ)

/-- What an operation comes to. -/
inductive Reply where
  | done
  | byte (v : UInt8)
  | outcome (r : Except Fault Unit)
  deriving DecidableEq

def Operation.script : Operation κ → Script κ σ Reply
  | .step => Reply.outcome <$> Script.step
  | .read addr => Reply.byte <$> Script.read addr
  | .write addr v => (fun _ => Reply.done) <$> Script.write addr v
  | .run r => Reply.outcome <$> r.script

theorem Operation.discreet (op : Operation κ) : (op.script : Script κ σ Reply).Discreet others := by
  cases op with
  | step => exact Script.Discreet.step.map _
  | read addr => exact (Script.Discreet.read addr).map _
  | write addr v => exact (Script.Discreet.write addr v).map _
  | run r => exact (Script.Discreet.run r).map _

/-- The operations, carried out one after the other, come to these replies, and after each of them the chip
is the one beside its reply. -/
inductive Performs (env : Environment κ σ) : Bench κ σ → List (Operation κ) → List (Reply × Chip) → Prop
  | nil (b : Bench κ σ) : Performs env b [] []
  | cons {b b₁ : Bench κ σ} {op : Operation κ} {ops : List (Operation κ)} {x : Reply} {rest : List (Reply × Chip)}
      (h : op.script.Yields env b x b₁) (hrest : Performs env b₁ ops rest) :
      Performs env b (op :: ops) ((x, b₁.machine.chip) :: rest)

theorem Performs.transfer (hsep : env.Separates others observes) {b b' : Bench κ σ} {ops : List (Operation κ)}
    {replies : List (Reply × Chip)} (h : Performs env b ops replies) (hb : b.Matches others observes b') :
    Performs env b' ops replies := by
  induction h generalizing b' with
  | nil b => exact .nil b'
  | @cons b b₁ op ops x rest h _ ih =>
    obtain ⟨b₁', hy, hb₁⟩ := op.discreet.yields hsep h hb
    rw [hb₁.chip]
    exact .cons hy (ih hb₁)

/-- Adding observers anywhere, or leaving them out, changes nothing: operations come to the same replies,
and each of them leaves the same chip. -/
theorem observers_transparent (hsep : env.Separates others observes) {b b' : Bench κ σ}
    (hb : b.Agree others (Callback.isOther observes) b') (ops : List (Operation κ)) (replies : List (Reply × Chip)) :
    Performs env b ops replies ↔ Performs env b' ops replies := by
  constructor
  · intro h
    exact h.transfer hsep hb
  · intro h
    exact h.transfer hsep hb.symm

/-- One callback counts the writes it is told of, in its part of the world and in the cell `0x31`. The other
one is an observer. -/
def counting : Environment Bool (Nat × List Occasion) where
  respond observer o :=
    if observer then Script.remember fun w => (w.1, w.2 ++ [o])
    else do
      Script.remember fun w => (w.1 + 1, w.2)
      let v ← Script.read 0x31
      Script.write 0x31 (v + 1)
  holds _ := return true

theorem counting_separates : counting.Separates Prod.fst id where
  records c hc o b := by
    obtain rfl : c = true := hc
    exact ⟨(b.world.1, b.world.2 ++ [o]), b.journal, ⟨0, rfl⟩, rfl⟩
  respond c o hc := by
    obtain rfl : c = false := hc
    refine Script.Discreet.bind (.perform (.remember fun w w' hw => ?_)) fun _ => ?_
    · exact congrArg (· + 1) hw
    · exact Script.Discreet.bind (.read 0x31) fun v => .write 0x31 (v + 1)
  holds _ := .pure true

/-- A machine whose writes to the cell `0x30` are counted, with a program that writes there. -/
def countedBench (registry : Registry (Callback Bool)) : Bench Bool (Nat × List Occasion) where
  machine := { chip := (Chip.new Pacer.period1MHz {}).load #[0x75, 0x30, 0x07, 0x05, 0x30], registry }
  world := (0, [])

/-- The registry with the callback that counts. -/
def countingRegistry : Registry (Callback Bool) := { waiting := [(.write 0x30, .custom false)] }

/-- The same registry with observers in several slots, before and after the callback that counts. -/
def observedRegistry : Registry (Callback Bool) where
  waiting := [(.write 0x30, .latch ⟨0x30, "X"⟩), (.read 0x31, .custom true), (.write 0x30, .custom false),
    (.write 0x30, .custom true), (.visit 3, .custom true)]

/-- The replies to operations with what they leave on the chip, if each of them comes to its end in time. -/
def perform? (env : Environment κ σ) (bound : Nat) (b : Bench κ σ) : List (Operation κ) → Option (List (Reply × Chip))
  | [] => some []
  | op :: ops =>
    match op.script.run env bound b with
    | none => none
    | some (x, b₁) => (perform? env bound b₁ ops).map fun rest => (x, b₁.machine.chip) :: rest

theorem performs_of_perform? {bound : Nat} {b : Bench κ σ} {ops : List (Operation κ)} {replies : List (Reply × Chip)}
    (h : perform? env bound b ops = some replies) : Performs env b ops replies := by
  induction ops generalizing b replies with
  | nil =>
    cases h
    exact .nil b
  | cons op ops ih =>
    rw [perform?] at h
    cases hr : op.script.run env bound b with
    | none => rw [hr] at h; cases h
    | some y =>
      rw [hr] at h
      obtain ⟨rest, hrest, rfl⟩ := Option.map_eq_some_iff.1 h
      exact .cons ⟨bound, hr⟩ (ih hrest)

theorem counting_observed : ∃ replies,
    Performs counting (countedBench countingRegistry) [.step, .write 0x30 9, .run (.limited 5), .read 0x31] replies ∧
    Performs counting (countedBench observedRegistry) [.step, .write 0x30 9, .run (.limited 5), .read 0x31] replies ∧
    replies.map Prod.fst = [.outcome (.ok ()), .done, .outcome (.error (.outOfBounds 5 5)), .byte 3] := by
  have hreplies : (perform? counting 8 (countedBench countingRegistry)
      [.step, .write 0x30 9, .run (.limited 5), .read 0x31]).map (fun replies => replies.map Prod.fst) =
        some [.outcome (.ok ()), .done, .outcome (.error (.outOfBounds 5 5)), .byte 3] := by
    decide +kernel
  obtain ⟨replies, hr, he⟩ := Option.map_eq_some_iff.1 hreplies
  have hcounted := performs_of_perform? hr
  have hagree : (countedBench countingRegistry).Agree Prod.fst (Callback.isOther id) (countedBench observedRegistry) :=
    ⟨rfl, .of_waiting rfl rfl, rfl, rfl, rfl⟩
  exact ⟨replies, hcounted, (observers_transparent counting_separates hagree _ replies).1 hcounted, he⟩

end Micro8051
