/-
Counting. An instruction that counts a byte up or down reads it once and stores the next or the previous number
once. The place of the byte is found for the read and again for the store, and the read hooks run in between. So a
working register is stored in the bank that is active after them. The accumulator and direct addresses are the
same cell both times.
-/
import Micro8051.Proofs.Instr.Flow

namespace Micro8051

variable {κ σ : Type} {env : Environment κ σ} {b b₁ b' : Bench κ σ} {d : Decoded} {opcode : UInt8}
  {p : Place UInt8} {f : UInt8 → UInt8}

/-! ## Cells of a place -/

theorem bankOf_lt (psw : UInt8) : (bankOf psw).toNat < 4 := by
  revert psw
  decide +kernel

/-- A register has another cell in each bank. -/
theorem Chip.cellOf_eq_cellOf {c c' : Chip} {r : Reg} : c.cellOf r = c'.cellOf r ↔ c.bank = c'.bank := by
  constructor
  · intro h
    have hrows : c.bank * 8 = c'.bank * 8 := (UInt8.add_left_inj r.toByte).1 h
    have hnat : c.bank.toNat * 8 % 256 = c'.bank.toNat * 8 % 256 := by
      have := congrArg UInt8.toNat hrows
      rwa [UInt8.toNat_mul, UInt8.toNat_mul] at this
    have hlt : c.bank.toNat < 4 := bankOf_lt _
    have hlt' : c'.bank.toNat < 4 := bankOf_lt _
    exact UInt8.toNat.inj (by omega)
  · intro h
    rw [cellOf, cellOf, h]

/-- The cell of a place depends on the chip through the active bank, and only if the place is a register. -/
theorem Place.cell_eq_cell (hp : ∀ r, p ≠ .indirect r) {c c' : Chip} :
    p.cell c = p.cell c' ↔ ∀ r, p = .reg r → c.bank = c'.bank := by
  cases p with
  | acc => exact iff_of_true rfl fun r h => by cases h
  | direct a => exact iff_of_true rfl fun r h => by cases h
  | reg r => exact Chip.cellOf_eq_cellOf.trans ⟨fun h _ _ => h, fun h => h r rfl⟩
  | indirect r => exact absurd rfl (hp r)

/-! ## Read and store -/

theorem Place.yields_load (hp : ∀ r, p ≠ .indirect r) {v : UInt8} :
    (Script.ofCycles p.load).Yields env b v b' ↔ (Script.read (p.cell b.machine.chip)).Yields env b v b' := by
  cases p with
  | acc => exact Iff.rfl
  | direct a => exact Iff.rfl
  | reg r => exact Iff.rfl
  | indirect r => exact absurd rfl (hp r)

theorem Place.yields_store (hp : ∀ r, p ≠ .indirect r) {v : UInt8} {u : Unit} :
    (Script.ofCycles (p.store v)).Yields env b u b' ↔ (Script.write (p.cell b.machine.chip) v).Yields env b u b' := by
  cases p with
  | acc => exact Iff.rfl
  | direct a => exact Iff.rfl
  | reg r => exact Iff.rfl
  | indirect r => exact absurd rfl (hp r)

/-- Executing `d` leads from `b` to `b'` by a read of the byte at the place `p`, which leads to `b₁`, and a store of
what `f` makes of the byte. -/
structure Decoded.Counts (env : Environment κ σ) (d : Decoded) (p : Place UInt8) (f : UInt8 → UInt8)
    (b b₁ b' : Bench κ σ) (v : UInt8) : Prop where
  reads : (Script.read (p.cell b.machine.chip)).Yields env b v b₁
  /-- The read and the store are the only accesses. -/
  accesses : (Script.execute d).Passes env b
    [.reading (p.cell b.machine.chip) v,
      .writing (p.cell b₁.machine.chip) (b₁.machine.chip.data.get (p.cell b₁.machine.chip)) (f v)] () b'
  stored : b'.machine.chip.data.get (p.cell b₁.machine.chip) = f v
  /-- If no hook waits for the store, the instruction stores the byte and sets the program counter. -/
  unhooked : b₁.machine.registry.callbacks (.write (p.cell b₁.machine.chip)) = [] →
    b' = (Act.edit fun c => (c.setData (p.cell b₁.machine.chip) (f v)).jump b'.machine.chip.pc).apply b₁
  /-- The cell that is stored is the one that was read, unless another bank is active. -/
  sameCell : p.cell b₁.machine.chip = p.cell b.machine.chip ↔
    ∀ r, p = .reg r → b₁.machine.chip.bank = b.machine.chip.bank

theorem Decoded.cycles_of_counted (hi : d.instr.counted? = some (p, f)) :
    ∃ g : UInt8 → UInt16, d.cycles = p.modify f >>= fun v => pure (g v) := by
  unfold cycles
  generalize d.instr = i at hi
  cases i with
  | inc q => cases hi; exact ⟨fun _ => d.next, rfl⟩
  | dec q => cases hi; exact ⟨fun _ => d.next, rfl⟩
  | djnz q rel => cases hi; exact ⟨fun v => if v = 0 then d.next else displace d.next rel, rfl⟩
  | _ => cases hi

theorem Decoded.counts_of_yields (hd : Row.of? opcode = some d.row) (hi : d.instr.counted? = some (p, f))
    (h : (Script.execute d).Yields env b () b') :
    ∃ b₁, d.Counts env p f b b₁ b' (b.machine.chip.data.get (p.cell b.machine.chip)) := by
  have hp := counted_place hd hi
  obtain ⟨g, hcycles⟩ := cycles_of_counted hi
  obtain ⟨v, b₂, hv, rfl, hall⟩ := Script.passes_execute hcycles h
  obtain ⟨x, b₁, hload, hstore, rfl, rfl, hmodify, hcell⟩ := Place.passes_modify hp f hv
  refine ⟨b₁, ?_, hall _ hmodify, hcell, fun hnil => ?_, Place.cell_eq_cell hp⟩
  · exact (Place.yields_load hp).1 hload
  · rw [← Script.apply_of_write hnil ((Place.yields_store hp).1 hstore)]
    rfl

/-- Take an instruction of the table that counts a byte up or down, and any machine. Whatever the callbacks do,
executing it reads the byte once and stores the next or the previous number of what the read returned once: in the
same cell, or, of a register, in the cell that it has in the bank that is active when the read is done. Nothing else
changes after the read unless hooks wait for the store. And executing it comes to an end if the callbacks return. -/
theorem counting_reads_and_stores_once (env : Environment κ σ) (b : Bench κ σ) (hd : Row.of? opcode = some d.row)
    (hi : d.instr.counted? = some (p, f)) :
    (∀ b', (Script.execute d).Yields env b () b' →
      ∃ b₁, d.Counts env p f b b₁ b' (b.machine.chip.data.get (p.cell b.machine.chip))) ∧
    ((Moment.start (Script.execute d) b).Returning env → ∃ b', (Script.execute d).Yields env b () b') := by
  refine ⟨fun b' h => Decoded.counts_of_yields hd hi h, fun h => ?_⟩
  obtain ⟨_, b', hy⟩ := exists_yields_of_returning (Script.noRuns_suffices.execute d) h
  exact ⟨b', hy⟩

/-- A hook that makes another bank active and sets the accumulator. -/
def switching : Environment Unit Unit where
  respond _ _ := Script.edit fun c => (c.setData Sfr.psw bankBit0).setData Sfr.acc 9
  holds _ := return true

def incrementAcc : Decoded := ⟨0, ⟨0x04, 1, "INC", .inc .acc⟩, 0, 0⟩

def incrementR0 : Decoded := ⟨0, ⟨0x08, 1, "INC", .inc (.reg (.ofLowBits 0))⟩, 0, 0⟩

/-- A machine whose accumulator and first cell hold 5. Reads of them run this hook, and no hook waits for writes. -/
def switchedBench : Bench Unit Unit where
  machine := { chip := (((Chip.new Pacer.period1MHz {}).load #[0x08]).setData 0 5).setData Sfr.acc 5
               registry := { waiting := [(.read 0, .custom ()), (.read Sfr.acc, .custom ())] } }
  world := ()

/-- The moments of counting the accumulator up. -/
def switched (k : Nat) : Moment Unit Unit Unit :=
  (Moment.start (Script.execute incrementAcc) switchedBench).after switching k

/-- The accumulator is read as 5 and stored as 6, though it has been set to 9 in between. -/
theorem counting_reads_and_stores_once_acc :
    ∃ b', (Script.execute incrementAcc).Yields switching switchedBench () b' ∧
      b'.machine.chip.data.get Sfr.acc = 6 ∧ b'.machine.chip.bank = 1 ∧
      ∃ b₁, incrementAcc.Counts switching .acc (· + 1) switchedBench b₁ b' 5 := by
  have hrow : Row.of? 0x04 = some incrementAcc.row := by decide
  have hend : ((switched 12).advance switching).isNone := by decide +kernel
  have hreturns : ∀ k < 12, (switched k).returnsWithin switching 4 = true := by decide +kernel
  obtain ⟨hcounts, hyields⟩ :=
    counting_reads_and_stores_once switching switchedBench hrow (p := .acc) (f := (· + 1)) rfl
  obtain ⟨b', hy⟩ := hyields (Moment.returning_of_after (Option.isNone_iff_eq_none.1 hend) hreturns)
  have hrun : ((Script.execute incrementAcc).run switching 6 switchedBench).any (fun x =>
      x.2.machine.chip.data.get Sfr.acc = 6 ∧ x.2.machine.chip.bank = 1) = true := by decide +kernel
  obtain ⟨⟨_, b''⟩, hb'', hx⟩ := (Option.any_eq_true _ _).1 hrun
  obtain ⟨-, rfl⟩ := hy.unique ⟨6, hb''⟩
  obtain ⟨hacc, hbank⟩ := of_decide_eq_true hx
  exact ⟨b', hy, hacc, hbank, hcounts b' hy⟩

/-- A register is read as 5 in one bank and stored as 6 in another one. The cell that was read still holds 5. -/
theorem counting_switches_bank :
    (∀ a, switchedBench.machine.registry.callbacks (.write a) = []) ∧
    ∃ b', (Script.execute incrementR0).Yields switching switchedBench () b' ∧
      (Script.execute incrementR0).Passes switching switchedBench [.reading 0 5, .writing 8 0 6] () b' ∧
      b'.machine.chip.data.get 0 = 5 ∧ b'.machine.chip.data.get 8 = 6 ∧
      ¬∃ cell old v w, (Script.execute incrementR0).Passes switching switchedBench
        [.reading cell v, .writing cell old w] () b' := by
  have hrow : Row.of? 0x08 = some incrementR0.row := by decide
  have hrun : ((Script.execute incrementR0).run switching 6 switchedBench).any (fun x =>
      x.2.machine.chip.data.get 0 = 5 ∧ x.2.machine.chip.data.get 8 = 6) = true := by decide +kernel
  have hread : ((Script.read 0).run switching 6 switchedBench).any (fun x =>
      x.2.machine.chip.cellOf (.ofLowBits 0) = 8 ∧ x.2.machine.chip.data.get 8 = 0) = true := by decide +kernel
  obtain ⟨⟨_, b'⟩, hb', hx⟩ := (Option.any_eq_true _ _).1 hrun
  obtain ⟨⟨_, b₂⟩, hb₂, hx₂⟩ := (Option.any_eq_true _ _).1 hread
  obtain ⟨h0, h8⟩ := of_decide_eq_true hx
  obtain ⟨hcell, hold⟩ := of_decide_eq_true hx₂
  have hfirst : switchedBench.machine.chip.cellOf (.ofLowBits 0) = 0 := by decide +kernel
  have hfive : switchedBench.machine.chip.data.get 0 = 5 := by decide +kernel
  obtain ⟨b₁, hcounts⟩ := Decoded.counts_of_yields hrow (p := .reg (.ofLowBits 0)) (f := (· + 1)) rfl ⟨6, hb'⟩
  have hreads := hcounts.reads
  have haccesses := hcounts.accesses
  simp only [Place.cell, hfirst, hfive] at hreads haccesses
  obtain ⟨-, rfl⟩ := hreads.unique ⟨6, hb₂⟩
  rw [hcell, hold] at haccesses
  refine ⟨fun a => ?_, b', ⟨6, hb'⟩, haccesses, h0, h8, ?_⟩
  · revert a
    decide +kernel
  · rintro ⟨cell, old, v, w, hsame⟩
    obtain ⟨hevents, -⟩ := haccesses.unique hsame
    -- the two accesses would be to the cells 0 and 8 at once
    cases hevents

end Micro8051
