/-
Walking through external memory. A loop of three instructions stores the accumulator where the data pointer
points and moves the pointer on. After any number of rounds the pointer has moved on by that number, modulo
`2^16`, and the byte is in all cells that the pointer has left behind and in no others.

The data pointer is kept in two cells of internal memory, so a carry from the low byte to the high one is that
of the sum of words (`Chip.dptr_setDptr`). The rounds are counted by induction.
-/
import Micro8051.Proofs.Chip.History
import Micro8051.Proofs.Machine.Unwatched

namespace Micro8051

variable {κ σ : Type} {c c' : Chip} {d : Decoded} {n : Nat}

/-! ## The data pointer -/

namespace Chip

/-- The chip with another data pointer. -/
def setDptr (c : Chip) (w : UInt16) : Chip := (c.setData Sfr.dph (highByte w)).setData Sfr.dpl (lowByte w)

theorem dptr_setDptr (c : Chip) (w : UInt16) : (c.setDptr w).dptr = w := by
  have hlow : (c.setDptr w).data.get Sfr.dpl = lowByte w := Memory.get_set_self ..
  have hhigh : (c.setDptr w).data.get Sfr.dph = highByte w :=
    (Memory.get_set_ne _ (by decide) _).trans (Memory.get_set_self ..)
  rw [dptr, hlow, hhigh, word_highByte_lowByte]

theorem get_data_setDptr (c : Chip) (w : UInt16) {a : UInt8} (hl : a ≠ Sfr.dpl) (hh : a ≠ Sfr.dph) :
    (c.setDptr w).data.get a = c.data.get a :=
  (Memory.get_set_ne _ hl _).trans (Memory.get_set_ne _ hh _)

/-! ## Steps -/

theorem stepped_movxStore (hd : c.current? = some d) (hi : d.instr = .movxStore) :
    c.stepped = ((c.setXdata c.dptr (c.data.get Sfr.acc)).jump d.next).count := by
  rw [stepped_of_current? hd, execute, Decoded.cycles, hi]
  rfl

theorem stepped_incDptr (hd : c.current? = some d) (hi : d.instr = .incDptr) :
    c.stepped = ((c.setDptr (c.dptr + 1)).jump d.next).count := by
  rw [stepped_of_current? hd, execute, Decoded.cycles, hi]
  rfl

theorem stepped_sjmp {rel : UInt8} (hd : c.current? = some d) (hi : d.instr = .sjmp rel) :
    c.stepped = (c.jump (displace d.next rel)).count := by
  rw [stepped_of_current? hd, execute, Decoded.cycles, hi]
  rfl

end Chip

/-! ## Rounds -/

namespace Sweep

/-- Stores the accumulator, moves the data pointer on and jumps back. -/
def program : Image := #[0xF0, 0xA3, 0x80, 0xFC]

def store : Decoded := ⟨0, ⟨0xF0, 1, "MOVX", .movxStore⟩, 0, 0⟩

def advance : Decoded := ⟨1, ⟨0xA3, 1, "INC", .incDptr⟩, 0, 0⟩

def back : Decoded := ⟨2, ⟨0x80, 2, "SJMP", .sjmp .first⟩, 0xFC, 0⟩

theorem current?_of_fetch (hcode : c.code = program) (hpc : c.pc = d.pc) (hd : fetch program d.pc = .ok d) :
    c.current? = some d := by
  rw [Chip.current?_eq_some, hcode, hpc, hd]

theorem fetch_store : fetch program store.pc = .ok store := rfl

theorem fetch_advance : fetch program advance.pc = .ok advance := rfl

theorem fetch_back : fetch program back.pc = .ok back := rfl

/-- What a round comes to. -/
def round (c : Chip) : Chip :=
  (((c.setXdata c.dptr (c.data.get Sfr.acc)).setDptr (c.dptr + 1)).jump 0).count.count.count

/-- A round is three steps, each of an instruction of the program. -/
theorem stepped_round (hcode : c.code = program) (hpc : c.pc = 0) :
    (∀ k < 3, ((Chip.stepped^[k] c).current?).isSome) ∧ Chip.stepped^[3] c = round c := by
  have h0 : c.current? = some store := current?_of_fetch hcode hpc fetch_store
  have hstored := Chip.stepped_movxStore h0 rfl
  have h1 : c.stepped.current? = some advance := by
    rw [hstored]
    exact current?_of_fetch hcode rfl fetch_advance
  have hmoved := Chip.stepped_incDptr h1 rfl
  have h2 : c.stepped.stepped.current? = some back := by
    rw [hmoved, hstored]
    exact current?_of_fetch hcode rfl fetch_back
  refine ⟨fun k hk => ?_, ?_⟩
  · obtain rfl | rfl | rfl : k = 0 ∨ k = 1 ∨ k = 2 := by omega
    · exact Option.isSome_of_eq_some h0
    · exact Option.isSome_of_eq_some h1
    · exact Option.isSome_of_eq_some h2
  · calc Chip.stepped^[3] c = c.stepped.stepped.stepped := rfl
      _ = (c.stepped.stepped.jump (displace back.next 0xFC)).count := Chip.stepped_sjmp h2 rfl
      _ = round c := by
        rw [hmoved, hstored, show displace back.next 0xFC = 0 from by decide]
        rfl

/-! ## Runs -/

/-- After `n` rounds on the chip `c` it has become `c'`. -/
structure Swept (c : Chip) (n : Nat) (c' : Chip) : Prop where
  pc : c'.pc = 0
  dptr : c'.dptr = c.dptr + UInt16.ofNat n
  /-- The cells that the data pointer has left behind. -/
  filled : ∀ i < n, c'.xdata.get (c.dptr + UInt16.ofNat i) = c.data.get Sfr.acc
  spared : ∀ a, (∀ i < n, a ≠ c.dptr + UInt16.ofNat i) → c'.xdata.get a = c.xdata.get a
  /-- Of internal memory nothing but the data pointer has changed. -/
  data : ∀ a, a ≠ Sfr.dpl → a ≠ Sfr.dph → c'.data.get a = c.data.get a
  executed : c'.executed = c.executed + UInt64.ofNat (3 * n)
  code : c'.code = c.code

theorem Swept.zero (hpc : c.pc = 0) : Swept c 0 c where
  pc := hpc
  dptr := (UInt16.add_zero _).symm
  filled i hi := absurd hi (Nat.not_lt_zero i)
  spared _ _ := rfl
  data _ _ _ := rfl
  executed := (UInt64.add_zero _).symm
  code := rfl

/-- One more round stores at the pointer and moves it on. -/
theorem Swept.succ (h : Swept c n c') : Swept c (n + 1) (round c') where
  pc := rfl
  dptr := by
    have hround : (round c').dptr = c'.dptr + 1 := Chip.dptr_setDptr (c'.setXdata c'.dptr _) (c'.dptr + 1)
    rw [hround, h.dptr, UInt16.ofNat_add, UInt16.add_assoc]
    rfl
  filled i hi := by
    have hacc : c'.data.get Sfr.acc = c.data.get Sfr.acc := h.data _ (by decide) (by decide)
    change (c'.xdata.set c'.dptr (c'.data.get Sfr.acc)).get _ = _
    rw [Memory.get_set, hacc]
    split
    · rfl
    · rename_i hne
      -- the cells before are stored already, and the last one is where the pointer is
      have hi' : i ≠ n := by
        rintro rfl
        exact hne h.dptr.symm
      exact h.filled i (by omega)
  spared a ha := by
    have hne : a ≠ c'.dptr := h.dptr ▸ ha n (Nat.lt_succ_self n)
    exact (Memory.get_set_ne _ hne _).trans (h.spared a fun i hi => ha i (by omega))
  data a hl hh := (Chip.get_data_setDptr _ _ hl hh).trans (h.data a hl hh)
  executed := by
    change c'.executed + 1 + 1 + 1 = _
    rw [h.executed, Nat.mul_succ, UInt64.ofNat_add]
    simp only [UInt64.add_assoc]
    rfl
  code := h.code

theorem iterate_stepped (hcode : c.code = program) (hpc : c.pc = 0) (n : Nat) :
    Swept c n (Chip.stepped^[3 * n] c) := by
  induction n with
  | zero => exact .zero hpc
  | succ n ih =>
    rw [Nat.mul_succ, Nat.add_comm (3 * n), Function.iterate_add_apply, (stepped_round (ih.code.trans hcode) ih.pc).2]
    exact ih.succ

/-- Every step of the loop finds an instruction. -/
theorem isSome_current? (hcode : c.code = program) (hpc : c.pc = 0) (k : Nat) :
    ((Chip.stepped^[k] c).current?).isSome := by
  have hround := iterate_stepped hcode hpc (k / 3)
  rw [← Nat.mod_add_div k 3, Function.iterate_add_apply]
  exact (stepped_round (hround.code.trans hcode) hround.pc).1 (k % 3) (Nat.mod_lt k (by decide))

/-- Take a machine without callbacks that is at the start of the program. Its steps all succeed, and after any number
of rounds the accumulator is in the external cells that the data pointer has passed, all around external memory if
there are enough rounds. -/
theorem pointer_sweeps (env : Environment κ σ) {b : Bench κ σ} (hquiet : b.Quiet)
    (hcode : b.machine.chip.code = program) (hpc : b.machine.chip.pc = 0) :
    ∃ B : Nat → Bench κ σ, B 0 = b ∧ (∀ k, Script.step.Yields env (B k) (.ok ()) (B (k + 1))) ∧
      ∀ n, Swept b.machine.chip n (B (3 * n)).machine.chip := by
  obtain ⟨B, rfl, hnext⟩ := hquiet.exists_run env
  have hrun := hquiet.run hnext
  refine ⟨B, rfl, fun k => ?_, fun n => ?_⟩
  · obtain ⟨hq, hchip⟩ := hrun k
    obtain ⟨d, hd⟩ := Option.isSome_iff_exists.1 (isSome_current? hcode hpc k)
    exact hq.yields_step_ok_of_next (hnext k) (hchip ▸ hd)
  · rw [(hrun (3 * n)).2]
    exact iterate_stepped hcode hpc n

/-- A chip whose data pointer is at the last external cell, and whose count of instructions is about to wrap. -/
def lastCellChip : Chip where
  data := ((Memory.zero.set Sfr.dph 0xFF).set Sfr.dpl 0xFF).set Sfr.acc 0x99
  xdata := Memory.zero
  pc := 0
  executed := 0xFFFFFFFFFFFFFFFF
  code := program
  flags := {}
  pacer := { period := Pacer.period1MHz }

theorem pointer_sweeps_around :
    ∃ B : Nat → Bench Unit Unit, B 0 = .bare lastCellChip ∧
      (∀ k, Script.step.Yields .idle (B k) (.ok ()) (B (k + 1))) ∧
      (B 6).machine.chip.xdata.get 0xFFFF = 0x99 ∧ (B 6).machine.chip.xdata.get 0 = 0x99 ∧
      (B 6).machine.chip.xdata.get 1 = 0 ∧ (B 6).machine.chip.dptr = 1 ∧ (B 6).machine.chip.executed = 5 := by
  obtain ⟨B, h0, hsteps, hswept⟩ := pointer_sweeps .idle (b := .bare lastCellChip) rfl rfl rfl
  have hdptr : lastCellChip.dptr = 0xFFFF := by decide +kernel
  have hacc : lastCellChip.data.get Sfr.acc = 0x99 := by decide +kernel
  have h := hswept 2
  change Swept lastCellChip 2 _ at h
  refine ⟨B, h0, hsteps, ?_, ?_, ?_, ?_, ?_⟩
  · rw [← hdptr, ← hacc]
    exact h.filled 0 (by decide)
  · rw [show (0 : UInt16) = lastCellChip.dptr + UInt16.ofNat 1 by rw [hdptr]; decide, ← hacc]
    exact h.filled 1 (by decide)
  · refine (h.spared 1 ?_).trans (Memory.get_zero _)
    rw [hdptr]
    decide
  · exact h.dptr.trans (by rw [hdptr]; decide)
  · exact h.executed.trans (by decide)

end Sweep

end Micro8051
