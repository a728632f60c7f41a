/-
The stack in internal memory refines an abstract list of bytes. On a machine without callbacks, over
a run whose depth stays between 0 and a bound, whose window of slots avoids the stack pointer, and
whose instructions write neither the stack pointer nor a live slot but by their own pushes and pops,
the stack pointer and the slots always show the list that calls, returns, pushes and pops make.

The proof is one step lemma, by the instruction: the four stack instructions act on `Stacked` as
pushes and pops, and all others leave it alone, as they do not write what it looks at.
-/
import Micro8051.Proofs.Machine.Unwatched
import Micro8051.Proofs.Stack.Cells

namespace Micro8051

/-! ## What instructions do to the stack -/

/-- How many bytes an instruction pushes. -/
def Instr.pushed {β : Type} : Instr β → Nat
  | .lcall .. => 2
  | .push _ => 1
  | _ => 0

/-- How many bytes an instruction pops. -/
def Instr.popped {β : Type} : Instr β → Nat
  | .ret => 2
  | .pop _ => 1
  | _ => 0

/-- The cells that an instruction writes, but for the stack pointer and the slots of its own pushes
and pops. The destination of a pop is among them. -/
def Decoded.strayWrites (d : Decoded) (c : Chip) : List UInt8 :=
  match d.instr with
  | .lcall .. | .ret | .push _ => []
  | .pop a => [a]
  | _ => (d.cycles.stores c).map Prod.fst

namespace Chip

/-- How many bytes the stack gains in the next step. -/
def stackGain (c : Chip) : Int :=
  match c.current? with
  | none => 0
  | some d => (d.instr.pushed : Int) - d.instr.popped

/-- The cells that the next step writes, but for its own pushes and pops. -/
def strayWrites (c : Chip) : List UInt8 :=
  match c.current? with
  | none => []
  | some d => d.strayWrites c

end Chip

/-- The steps of an abstract stack, its top first, while the chip goes from `c` to `c'`. A call
pushes the low and then the high byte of the address after it; a push takes the value that its cell
has once the stack pointer has moved; a pop stores the top; a return jumps to the address whose high
byte is the top and whose low byte is below it. -/
inductive StackStep (c c' : Chip) : List UInt8 → List UInt8 → Prop
  | call {d : Decoded} {hi lo : UInt8} {st : List UInt8} (hd : c.current? = some d)
      (he : d.instr = .lcall hi lo) :
      StackStep c c' st (highByte (c.pc + 3) :: lowByte (c.pc + 3) :: st)
  | ret {d : Decoded} {hi lo : UInt8} {st : List UInt8} (hd : c.current? = some d) (he : d.instr = .ret)
      (hpc : c'.pc = word hi lo) : StackStep c c' (hi :: lo :: st) st
  | push {d : Decoded} {a : UInt8} {st : List UInt8} (hd : c.current? = some d) (he : d.instr = .push a) :
      StackStep c c' st ((c.data.set Sfr.sp (c.data.get Sfr.sp + 1)).get a :: st)
  | pop {d : Decoded} {a v : UInt8} {st : List UInt8} (hd : c.current? = some d) (he : d.instr = .pop a)
      (ha : c'.data.get a = v) : StackStep c c' (v :: st) st
  | other {st : List UInt8} (h : ∀ d, c.current? = some d → d.instr.pushed = 0 ∧ d.instr.popped = 0) :
      StackStep c c' st st

/-! ## One step -/

section Cycles

variable (c : Chip) (next : UInt16)

theorem onChip_lcall (hi lo : UInt8) :
    (Instr.cycles next (.lcall hi lo)).onChip c =
      (word hi lo, ((Cycles.push (highByte next)).onChip ((Cycles.push (lowByte next)).onChip c).2).2) := rfl

theorem onChip_ret :
    (Instr.cycles next .ret).onChip c =
      (word (Cycles.pop.onChip c).1 (Cycles.pop.onChip (Cycles.pop.onChip c).2).1,
        (Cycles.pop.onChip (Cycles.pop.onChip c).2).2) := rfl

theorem data_onChip_push (v : UInt8) :
    ((Cycles.push v).onChip c).2.data =
      (c.data.set Sfr.sp (c.data.get Sfr.sp + 1)).set (c.data.get Sfr.sp + 1) v := rfl

theorem onChip_pop :
    Cycles.pop.onChip c =
      (c.data.get (c.data.get Sfr.sp), c.setData Sfr.sp (c.data.get Sfr.sp - 1)) := rfl

end Cycles

variable {c : Chip} {base : UInt8} {st : List UInt8} {D : Nat}

/-- The pushes of a call. -/
theorem Stacked.lcall {next : UInt16} (hi lo : UInt8) (h : Stacked c.data base st)
    (hw : ∀ i, 1 ≤ i → i ≤ st.length + 2 → slot base i ≠ Sfr.sp) :
    Stacked ((Instr.cycles next (.lcall hi lo)).onChip c).2.data base
      (highByte next :: lowByte next :: st) := by
  rw [onChip_lcall, data_onChip_push, data_onChip_push]
  exact (h.push _ fun i h1 h2 => hw i h1 (by omega)).push _ hw

/-- One pop of a return. -/
theorem Stacked.onChip_pop {v : UInt8} (h : Stacked c.data base (v :: st))
    (hw : ∀ i, 1 ≤ i → i ≤ st.length → slot base i ≠ Sfr.sp) :
    (Cycles.pop.onChip c).1 = v ∧ Stacked (Cycles.pop.onChip c).2.data base st := by
  rw [Micro8051.onChip_pop]
  exact ⟨h.top, h.pop (Memory.get_set_self _ _ _) fun i h1 h2 => Memory.get_set_ne _ (hw i h1 h2) _⟩

/-- The pops of a return. -/
theorem Stacked.ret (next : UInt16) {hi lo : UInt8} (h : Stacked c.data base (hi :: lo :: st))
    (hw : ∀ i, 1 ≤ i → i ≤ st.length + 1 → slot base i ≠ Sfr.sp) :
    ((Instr.cycles next .ret).onChip c).1 = word hi lo ∧
      Stacked ((Instr.cycles next .ret).onChip c).2.data base st := by
  obtain ⟨h1, s1⟩ := h.onChip_pop hw
  obtain ⟨h2, s2⟩ := s1.onChip_pop fun i h1 h2 => hw i h1 (by omega)
  rw [onChip_ret, h1, h2]
  exact ⟨rfl, s2⟩

/-- The destination of a pop may be the slot that the pop frees. -/
theorem Stacked.popInto (next : UInt16) {a v : UInt8} (h : Stacked c.data base (v :: st))
    (hw : ∀ i, 1 ≤ i → i ≤ st.length → slot base i ≠ Sfr.sp) (hsp : a ≠ Sfr.sp)
    (ha : ∀ i, 1 ≤ i → i ≤ st.length → a ≠ slot base i) :
    ((Instr.cycles next (.pop a)).onChip c).2.data.get a = v ∧
      Stacked ((Instr.cycles next (.pop a)).onChip c).2.data base st := by
  have hd : ((Instr.cycles next (.pop a)).onChip c).2.data = (c.data.set a (c.data.get (c.data.get Sfr.sp))).set
      Sfr.sp ((c.data.set a (c.data.get (c.data.get Sfr.sp))).get Sfr.sp - 1) := rfl
  rw [hd, h.top, Memory.get_set_ne _ hsp.symm]
  refine ⟨?_, h.pop (Memory.get_set_self _ _ _) fun i h1 h2 => ?_⟩
  · rw [Memory.get_set_ne _ hsp, Memory.get_set_self]
  · rw [Memory.get_set_ne _ (hw i h1 h2), Memory.get_set_ne _ (ha i h1 h2).symm]

theorem Stacked.pushFrom {next : UInt16} (a : UInt8) (h : Stacked c.data base st)
    (hw : ∀ i, 1 ≤ i → i ≤ st.length + 1 → slot base i ≠ Sfr.sp) :
    Stacked ((Instr.cycles next (.push a)).onChip c).2.data base
      ((c.data.set Sfr.sp (c.data.get Sfr.sp + 1)).get a :: st) :=
  h.push _ hw

/-- Instructions that neither push nor pop. -/
theorem Stacked.execute_other {d : Decoded} (h : Stacked c.data base st)
    (hs : ∀ w ∈ (d.cycles.stores c).map Prod.fst,
      w ≠ Sfr.sp ∧ ∀ i, 1 ≤ i → i ≤ st.length → w ≠ slot base i) :
    Stacked (d.cycles.onChip c).2.data base st := by
  rw [List.forall_mem_map] at hs
  exact h.frame (d.cycles.get_onChip c fun s hm => (hs s hm).1)
    fun i h1 h2 => d.cycles.get_onChip c fun s hm => (hs s hm).2 i h1 h2

/-- The step lemma for an instruction, over the depth `n` after it. -/
theorem Stacked.execute {d : Decoded} {n : Nat} (hd : c.current? = some d) (h : Stacked c.data base st)
    (hn : (n : Int) = st.length + (d.instr.pushed - d.instr.popped)) (hlen : st.length ≤ D) (hD : n ≤ D)
    (hw : ∀ i, 1 ≤ i → i ≤ D → slot base i ≠ Sfr.sp)
    (hs : ∀ w ∈ d.strayWrites c, w ≠ Sfr.sp ∧ ∀ i, 1 ≤ i → i ≤ n → w ≠ slot base i) :
    ∃ st', StackStep c (c.execute d).count st st' ∧ Stacked (c.execute d).count.data base st' ∧
      st'.length = n := by
  have hnext := next_of_fetch (Chip.current?_eq_some.1 hd)
  rw [Chip.data_count_execute, Decoded.cycles]
  unfold Decoded.strayWrites at hs
  cases hi : d.instr with
  | lcall hb lb =>
    simp only [hi, Instr.pushed, Instr.popped] at hn
    refine ⟨_, .call hd hi, ?_, ?_⟩
    · rw [hi, Instr.length] at hnext
      rw [show c.pc + 3 = d.next from hnext.symm]
      exact h.lcall hb lb fun i h1 h2 => hw i h1 (by omega)
    · rw [List.length_cons, List.length_cons]
      omega
  | ret =>
    simp only [hi, Instr.pushed, Instr.popped] at hn
    obtain ⟨hb, st₁, rfl⟩ := List.exists_cons_of_length_pos (l := st) (by omega)
    rw [List.length_cons] at hn hlen
    obtain ⟨lb, st', rfl⟩ := List.exists_cons_of_length_pos (l := st₁) (by omega)
    rw [List.length_cons] at hn hlen
    obtain ⟨hpc, hst⟩ := h.ret d.next fun i h1 h2 => hw i h1 (by omega)
    refine ⟨st', .ret hd hi ?_, hst, by omega⟩
    rw [Chip.pc_count_execute, Decoded.cycles, hi]
    exact hpc
  | push a =>
    simp only [hi, Instr.pushed, Instr.popped] at hn
    refine ⟨_, .push hd hi, h.pushFrom a fun i h1 h2 => hw i h1 (by omega), ?_⟩
    rw [List.length_cons]
    omega
  | pop a =>
    simp only [hi, Instr.pushed, Instr.popped] at hn
    obtain ⟨v, st', rfl⟩ := List.exists_cons_of_length_pos (l := st) (by omega)
    rw [List.length_cons] at hn hlen
    simp only [hi, List.mem_singleton, forall_eq] at hs
    obtain ⟨ha, hst⟩ := h.popInto d.next (fun i h1 h2 => hw i h1 (by omega)) hs.1
      fun i h1 h2 => hs.2 i h1 (by omega)
    refine ⟨st', .pop hd hi ?_, hst, by omega⟩
    rw [Chip.data_count_execute, Decoded.cycles, hi]
    exact ha
  | _ =>
    simp only [hi, Instr.pushed, Instr.popped] at hn hs
    refine ⟨st, .other fun d' h' => ?_, ?_, by omega⟩
    · rw [hd] at h'
      cases h'
      rw [hi]
      exact ⟨rfl, rfl⟩
    · rw [← hi]
      exact h.execute_other fun w hm => ⟨(hs w hm).1, fun i h1 h2 => (hs w hm).2 i h1 (by omega)⟩

/-- The step lemma: a step of an unwatched chip is a step of the abstract stack, over the depth `n`
after it. -/
theorem Stacked.stepped {n : Nat} (h : Stacked c.data base st) (hn : (n : Int) = st.length + c.stackGain)
    (hlen : st.length ≤ D) (hD : n ≤ D) (hw : ∀ i, 1 ≤ i → i ≤ D → slot base i ≠ Sfr.sp)
    (hs : ∀ w ∈ c.strayWrites, w ≠ Sfr.sp ∧ ∀ i, 1 ≤ i → i ≤ n → w ≠ slot base i) :
    ∃ st', StackStep c c.stepped st st' ∧ Stacked c.stepped.data base st' ∧ st'.length = n := by
  unfold Chip.stackGain at hn
  unfold Chip.strayWrites at hs
  cases hd : c.current? with
  | none =>
    rw [hd] at hn
    rw [Chip.stepped_of_current?_eq_none hd]
    exact ⟨st, .other (fun d h' => by rw [hd] at h'; cases h'), h, by simpa using hn.symm⟩
  | some d =>
    rw [hd] at hn hs
    rw [Chip.stepped_of_current? hd]
    exact h.execute hd hn hlen hD hw hs

/-! ## Runs -/

/-- How many bytes more the stack holds before step `k` of a run than at its start. -/
def stackDepth (c : Nat → Chip) : Nat → Int
  | 0 => 0
  | k + 1 => stackDepth c k + (c k).stackGain

theorem Stacked.run {c : Nat → Chip} {n : Nat} (hstep : ∀ k < n, c (k + 1) = (c k).stepped)
    (hbase : (c 0).data.get Sfr.sp = base)
    (hdepth : ∀ k ≤ n, 0 ≤ stackDepth c k ∧ stackDepth c k ≤ D)
    (hw : ∀ i, 1 ≤ i → i ≤ D → slot base i ≠ Sfr.sp)
    (hs : ∀ k < n, ∀ w ∈ (c k).strayWrites, w ≠ Sfr.sp ∧
      ∀ i : Nat, 1 ≤ i → i ≤ stackDepth c (k + 1) → w ≠ slot base i) :
    ∀ m ≤ n, ∃ st : Nat → List UInt8, st 0 = [] ∧ (∀ k < m, StackStep (c k) (c (k + 1)) (st k) (st (k + 1))) ∧
      ∀ k ≤ m, Stacked (c k).data base (st k) ∧ ((st k).length : Int) = stackDepth c k
  | 0, _ => by
    refine ⟨fun _ => [], rfl, fun k hk => absurd hk (Nat.not_lt_zero k), fun k hk => ?_⟩
    obtain rfl : k = 0 := by omega
    exact ⟨hbase ▸ Stacked.nil _, rfl⟩
  | m + 1, hm => by
    obtain ⟨st, h0, hsteps, hst⟩ := Stacked.run hstep hbase hdepth hw hs m (by omega)
    obtain ⟨hm1, hm2⟩ := hst m (le_refl m)
    obtain ⟨hlo, hhi⟩ := hdepth (m + 1) hm
    have hmD := (hdepth m (by omega)).2
    obtain ⟨st', hstep', hst', hlen'⟩ := hm1.stepped (n := (stackDepth c (m + 1)).toNat)
      (by rw [Int.toNat_of_nonneg hlo, hm2]; rfl) (by omega) (by omega) hw
      (fun w hw' => ⟨(hs m (by omega) w hw').1, fun i h1 h2 => (hs m (by omega) w hw').2 i h1 (by omega)⟩)
    rw [← hstep m (by omega)] at hstep' hst'
    -- the stacks so far, and the new one after them
    refine ⟨fun k => if k ≤ m then st k else st', by simp [h0], fun k hk => ?_, fun k hk => ?_⟩
    · rcases Nat.lt_or_ge k m with hk' | hk'
      · simpa [show k ≤ m by omega, show k + 1 ≤ m by omega] using hsteps k hk'
      · obtain rfl : k = m := by omega
        simpa using hstep'
    · rcases Nat.lt_or_ge m k with hk' | hk'
      · obtain rfl : k = m + 1 := by omega
        simp only [show ¬ m + 1 ≤ m by omega, if_false]
        exact ⟨hst', by omega⟩
      · simpa [hk'] using hst k hk'

variable {κ σ : Type}

/-- The chips of a sequence of benches. -/
def chips (b : Nat → Bench κ σ) (k : Nat) : Chip := (b k).machine.chip

/-- The stack in internal memory refines an abstract list. Of a machine without callbacks take any
run of `n` steps, from the value `base` of the stack pointer. Its depth stays between 0 and `D`, the
slots up to `D` avoid the stack pointer, and the instructions write neither the stack pointer nor a
slot that is live after them, but by their own pushes and pops. Then there are abstract stacks,
empty at first and changed by each step as its instruction says, that the stack pointer and the
slots show after every step. -/
theorem stack_refines_list (env : Environment κ σ) {b : Nat → Bench κ σ} {n D : Nat} {base : UInt8}
    (hq : (b 0).Quiet) (hbase : (chips b 0).data.get Sfr.sp = base)
    (hrun : ∀ k < n, (b k).Next env (b (k + 1)))
    (hdepth : ∀ k ≤ n, 0 ≤ stackDepth (chips b) k ∧ stackDepth (chips b) k ≤ D)
    (hwindow : ∀ i, 1 ≤ i → i ≤ D → slot base i ≠ Sfr.sp)
    (hstray : ∀ k < n, ∀ w ∈ (chips b k).strayWrites, w ≠ Sfr.sp ∧
      ∀ i : Nat, 1 ≤ i → i ≤ stackDepth (chips b) (k + 1) → w ≠ slot base i) :
    ∃ st : Nat → List UInt8, st 0 = [] ∧
      (∀ k < n, StackStep (chips b k) (chips b (k + 1)) (st k) (st (k + 1))) ∧
      ∀ k ≤ n, Stacked (chips b k).data base (st k) ∧ ((st k).length : Int) = stackDepth (chips b) k := by
  have hquiet : ∀ k ≤ n, (b k).Quiet := by
    intro k
    induction k with
    | zero => exact fun _ => hq
    | succ k ih => exact fun hk => ((ih (by omega)).next (hrun k hk)).1
  exact Stacked.run (fun k hk => ((hquiet k (by omega)).next (hrun k hk)).2) hbase hdepth hwindow hstray n
    (le_refl n)

/-- A program that calls a routine at `0006`, which pushes the accumulator and pops it into `B`. The
stack begins at the last cell of internal memory. -/
def callChip : Chip where
  data := (Memory.zero.set Sfr.sp 0xFE).set Sfr.acc 0x42
  xdata := Memory.zero
  pc := 0
  executed := 0
  code := #[0x12, 0x00, 0x06, 0x80, 0xFE, 0x00, 0xC0, 0xE0, 0xD0, 0xF0, 0x22]
  flags := {}
  pacer := { period := Pacer.period1MHz }

/-- The chip of `callChip` after `k` steps. -/
def callChips (k : Nat) : Chip := Chip.stepped^[k] callChip

theorem call_stack_wraps :
    (∀ k ≤ 5, 0 ≤ stackDepth callChips k ∧ stackDepth callChips k ≤ 3) ∧
    ∃ st : Nat → List UInt8, st 0 = [] ∧
      (∀ k < 5, StackStep (callChips k) (callChips (k + 1)) (st k) (st (k + 1))) ∧
      ∀ k ≤ 5, Stacked (callChips k).data 0xFE (st k) ∧ ((st k).length : Int) = stackDepth callChips k := by
  have hdepth : ∀ k ≤ 5, 0 ≤ stackDepth callChips k ∧ stackDepth callChips k ≤ 3 := by decide +kernel
  have hwindow : ∀ i < 4, 1 ≤ i → slot 0xFE i ≠ Sfr.sp := by decide
  have hstray : ∀ k < 5, ∀ w ∈ (callChips k).strayWrites, w ≠ Sfr.sp ∧
      ∀ i ∈ List.range 4, 1 ≤ i → (i : Int) ≤ stackDepth callChips (k + 1) → w ≠ slot 0xFE i := by
    decide +kernel
  have hnext : ∀ k, (Bench.bare (callChips k)).Next .idle (Bench.bare (callChips (k + 1))) := by
    intro k
    rw [callChips, callChips, Function.iterate_succ_apply']
    exact Bench.next_bare _
  refine ⟨hdepth, ?_⟩
  refine stack_refines_list .idle (b := fun k => Bench.bare (callChips k)) (D := 3) rfl (by decide +kernel)
    (fun k _ => hnext k) hdepth (fun i h1 h2 => hwindow i (by omega) h1) fun k hk w hw => ?_
  obtain ⟨hsp, hlive⟩ := hstray k hk w hw
  refine ⟨hsp, fun i h1 h2 => hlive i (List.mem_range.2 ?_) h1 h2⟩
  have h3 : (i : Int) ≤ 3 := le_trans h2 (hdepth (k + 1) hk).2
  omega

end Micro8051
