/-
Printed and executed control flow. Where an instruction leads when it is executed is what the text of its operands
says, whatever the hooks do to the machine in the midst of it: the target is fixed when the instruction begins,
and the program counter is set when everything else is done.
-/
import Micro8051.Proofs.Bench.Accesses
import Micro8051.Proofs.Instr.Addressing
import Micro8051.Proofs.Moment.Returning
import Micro8051.Proofs.Text.Operands

namespace Micro8051

variable {κ σ α : Type} {env : Environment κ σ} {b b' : Bench κ σ}

/-! ## Offsets -/

theorem toNat_displace (w : UInt16) (rel : UInt8) :
    ((displace w rel).toNat : Int) = (w.toNat + rel.toInt8.toInt) % 65536 := by
  have hrel : ∀ rel : UInt8, (rel.toInt8.toInt16.toUInt16.toNat : Int) = rel.toInt8.toInt % 65536 := by decide +kernel
  rw [displace, UInt16.toNat_add]
  push_cast
  rw [hrel]
  omega

theorem signedText_eq_toString (b : UInt8) : signedText b = toString b.toInt8.toInt := by
  revert b
  decide +kernel

/-- The text of the operands ends with a signed offset and the address `t`, which is that far from the end of the
instruction, modulo `2^16`. -/
def Decoded.ShowsJump (d : Decoded) (t : UInt16) : Prop :=
  ∃ (before : String) (offset : Int),
    d.operandText = some (before ++ "C:" ++ toString offset ++ "(" ++ Text.hexWord t ++ ")") ∧
    (t.toNat : Int) = (d.pc.toNat + d.row.length + offset) % 65536

theorem Decoded.showsJump {d : Decoded} (hd : d.row.length ≤ 3) {before : String} {rel : UInt8}
    (h : d.operandText = some (before ++ relativeText d.next rel)) : d.ShowsJump (displace d.next rel) := by
  refine ⟨before, rel.toInt8.toInt, ?_, ?_⟩
  · rw [h, relativeText, signedText_eq_toString]
    simp only [String.append_assoc]
  · have hnext : d.next.toNat = (d.pc.toNat + d.row.length) % 65536 := by
      rw [next, UInt16.toNat_add, UInt16.toNat_ofNat_of_lt' (by omega : d.row.length < 65536)]
    rw [toNat_displace, hnext]
    omega

/-! ## Places -/

/-- The place whose byte an instruction counts up or down, and what becomes of the byte. -/
def Instr.counted? {β : Type} : Instr β → Option (Place β × (UInt8 → UInt8))
  | .inc p => some (p, (· + 1))
  | .dec p | .djnz p _ => some (p, (· - 1))
  | _ => none

theorem Instr.counted?_map {β γ : Type} (g : β → γ) (i : Instr β) :
    (i.map g).counted? = i.counted?.map fun x => (x.1.map g, x.2) := by
  cases i <;> rfl

/-- What is counted is not found by a pointer. -/
theorem Row.counted_place {opcode : UInt8} {row : Row} (h : of? opcode = some row) :
    ∀ p f, row.pattern.counted? = some (p, f) → ∀ r, p ≠ .indirect r := by
  refine of?_induction (P := fun row => ∀ p f, row.pattern.counted? = some (p, f) → ∀ r, p ≠ .indirect r) ?_ ?_ ?_ h
  · intro row hrow p f hp
    fin_cases hrow
    all_goals cases hp
    all_goals rintro r ⟨⟩
  · intro n s row hrow p f hp
    fin_cases hrow
    all_goals cases hp
  · intro n s row hrow p f hp
    fin_cases hrow
    all_goals cases hp
    all_goals rintro r ⟨⟩

theorem Decoded.counted_place {d : Decoded} {opcode : UInt8} (hd : Row.of? opcode = some d.row) {p : Place UInt8}
    {f : UInt8 → UInt8} (hi : d.instr.counted? = some (p, f)) (r : Reg) : p ≠ .indirect r := by
  rw [instr, Instr.counted?_map] at hi
  obtain ⟨⟨q, g⟩, hq, hpq⟩ := Option.map_eq_some_iff.1 hi
  have hplace := Row.counted_place hd q g hq
  cases hpq
  cases q with
  | indirect r' => exact absurd rfl (hplace r')
  | _ => rintro ⟨⟩

/-- A place that is found without a pointer is loaded by one read. -/
theorem Place.passes_load {p : Place UInt8} (hp : ∀ r, p ≠ .indirect r) {v : UInt8}
    (h : (Script.ofCycles p.load).Yields env b v b') :
    v = b.machine.chip.data.get (p.cell b.machine.chip) ∧
      (Script.ofCycles p.load).Passes env b [.reading (p.cell b.machine.chip) v] v b' := by
  cases p with
  | acc => exact Script.passes_read h
  | direct a => exact Script.passes_read h
  | reg r =>
    have hreg : (Script.ofCycles (reg r).load : Script κ σ UInt8) = Script.readReg r := rfl
    rw [hreg, Script.readReg] at h ⊢
    obtain ⟨addr, b₁, ha, h⟩ := Script.yields_bind.1 h
    obtain ⟨rfl, rfl⟩ := Script.yields_chip.1 ha
    obtain ⟨hv, hread⟩ := Script.passes_read h
    exact ⟨hv, Script.passes_chip.bind hread⟩
  | indirect r => exact absurd rfl (hp r)

/-- A place that is found without a pointer is set by one write. -/
theorem Place.passes_store {p : Place UInt8} (hp : ∀ r, p ≠ .indirect r) {v : UInt8} {u : Unit}
    (h : (Script.ofCycles (p.store v)).Yields env b u b') :
    (Script.ofCycles (p.store v)).Passes env b
        [.writing (p.cell b.machine.chip) (b.machine.chip.data.get (p.cell b.machine.chip)) v] () b' ∧
      b'.machine.chip.data.get (p.cell b.machine.chip) = v := by
  cases p with
  | acc => exact Script.passes_write h
  | direct a => exact Script.passes_write h
  | reg r =>
    have hreg : (Script.ofCycles ((reg r).store v) : Script κ σ Unit) = Script.writeReg r v := rfl
    rw [hreg, Script.writeReg] at h ⊢
    obtain ⟨addr, b₁, ha, h⟩ := Script.yields_bind.1 h
    obtain ⟨rfl, rfl⟩ := Script.yields_chip.1 ha
    obtain ⟨hwrite, hcell⟩ := Script.passes_write h
    exact ⟨Script.passes_chip.bind hwrite, hcell⟩
  | indirect r => exact absurd rfl (hp r)

/-- Such a place is modified by one read and one write, from the bench that the read has led to. -/
theorem Place.passes_modify {p : Place UInt8} (hp : ∀ r, p ≠ .indirect r) (f : UInt8 → UInt8) {v : UInt8}
    (h : (Script.ofCycles (p.modify f)).Yields env b v b') :
    ∃ x b₁, (Script.ofCycles p.load).Yields env b x b₁ ∧ (Script.ofCycles (p.store v)).Yields env b₁ () b' ∧
      x = b.machine.chip.data.get (p.cell b.machine.chip) ∧ v = f x ∧
      (Script.ofCycles (p.modify f)).Passes env b
        [.reading (p.cell b.machine.chip) x,
          .writing (p.cell b₁.machine.chip) (b₁.machine.chip.data.get (p.cell b₁.machine.chip)) v] v b' ∧
      b'.machine.chip.data.get (p.cell b₁.machine.chip) = v := by
  unfold modify at h ⊢
  simp only [Script.ofCycles_bind] at h ⊢
  obtain ⟨x, b₁, hx, h⟩ := Script.yields_bind.1 h
  obtain ⟨u, b₂, hu, h⟩ := Script.yields_bind.1 h
  obtain ⟨rfl, rfl⟩ := Script.yields_pure.1 h
  obtain ⟨hv, hload⟩ := passes_load hp hx
  obtain ⟨hstore, hcell⟩ := passes_store hp hu
  exact ⟨x, b₁, hx, hu, hv, rfl, hload.bind (hstore.bind (.done _ _)), hcell⟩

/-! ## Executions -/

/-- Instructions that neither jump nor return come to the next instruction. -/
theorem Instr.results_next {i : Instr UInt8} {next : UInt16} (hjump : i.target? next = none) (hret : i ≠ .ret) :
    (i.cycles next).Results (· = next) := by
  cases i with
  | nop => rfl
  | ret => exact absurd rfl hret
  | inc p => exact .bind fun _ => rfl
  | dec p => exact .bind fun _ => rfl
  | incDptr => exact .bind fun _ => .bind fun _ => rfl
  | clr => exact .bind fun _ => rfl
  | mov dst src => exact .bind fun _ => .bind fun _ => rfl
  | movDptr hi lo => exact .bind fun _ => rfl
  | movxLoad => exact .bind fun _ => fun _ => .bind fun _ => rfl
  | movxStore => exact .bind fun _ => .bind fun _ => rfl
  | push a => exact .bind fun _ => .bind fun _ => .bind fun _ => .bind fun _ => rfl
  | pop a => exact .bind fun _ => .bind fun _ => .bind fun _ => .bind fun _ => .bind fun _ => rfl
  | _ => cases hjump

section Execute

variable {d : Decoded}

/-- The program counter is set when all cycles are done, to what they come to. -/
theorem Script.pc_of_execute {u : Unit} (h : (execute d).Yields env b u b') {P : UInt16 → Prop}
    (hp : d.cycles.Results P) : P b'.machine.chip.pc := by
  unfold execute at h
  obtain ⟨pc, b₁, hc, h⟩ := yields_bind.1 h
  obtain rfl := yields_perform.1 h
  exact hp.of_yields hc

/-- An instruction that does its accesses first and then decides where to go. -/
theorem Script.passes_execute {p : Cycles α} {f : α → UInt16} (hd : d.cycles = p >>= fun a => pure (f a)) {u : Unit}
    (h : (execute d).Yields env b u b') :
    ∃ a b₁, (ofCycles p).Yields env b a b₁ ∧ b' = (Act.edit fun c => c.jump (f a)).apply b₁ ∧
      ∀ os, (ofCycles p).Passes env b os a b₁ → (execute d).Passes env b os () b' := by
  unfold execute at h ⊢
  rw [hd, ofCycles_bind] at h ⊢
  obtain ⟨pc, b₁, hc, h⟩ := yields_bind.1 h
  obtain ⟨a, b₂, ha, hc⟩ := yields_bind.1 hc
  obtain ⟨rfl, rfl⟩ := yields_pure.1 hc
  obtain rfl := yields_perform.1 h
  refine ⟨a, b₂, ha, rfl, fun os hos => ?_⟩
  have hcycles := hos.bind (k := fun a => ofCycles (pure (f a))) (Passes.done (f a) b₂)
  have hall := hcycles.bind (k := fun pc => edit fun c => c.jump pc) passes_perform
  rwa [List.append_nil, List.append_nil] at hall

end Execute

/-- How an instruction that leads from `b` to `b'` sets the program counter, by its mnemonic. -/
structure Decoded.Flows (env : Environment κ σ) (d : Decoded) (b b' : Bench κ σ) : Prop where
  /-- Jumps and calls to an address lead there. -/
  absolute : d.row.mnemonic = "LJMP" ∨ d.row.mnemonic = "LCALL" →
    d.operandText = some ("C:" ++ Text.hexWord b'.machine.chip.pc)
  sjmp : d.row.mnemonic = "SJMP" → d.ShowsJump b'.machine.chip.pc
  /-- The accumulator is read, and decides. -/
  jz : d.row.mnemonic = "JZ" → ∃ t, d.ShowsJump t ∧
    (Script.execute d).Passes env b [.reading Sfr.acc (b.machine.chip.data.get Sfr.acc)] () b' ∧
    b'.machine.chip.pc = if b.machine.chip.data.get Sfr.acc = 0 then t else d.next
  jnz : d.row.mnemonic = "JNZ" → ∃ t, d.ShowsJump t ∧
    (Script.execute d).Passes env b [.reading Sfr.acc (b.machine.chip.data.get Sfr.acc)] () b' ∧
    b'.machine.chip.pc = if b.machine.chip.data.get Sfr.acc = 0 then d.next else t
  /-- A byte is read, one less is stored, and what is stored decides. -/
  djnz : d.row.mnemonic = "DJNZ" → ∃ t addr cell old v, d.ShowsJump t ∧
    v = b.machine.chip.data.get addr - 1 ∧
    (Script.execute d).Passes env b [.reading addr (b.machine.chip.data.get addr), .writing cell old v] () b' ∧
    b'.machine.chip.data.get cell = v ∧
    b'.machine.chip.pc = if v = 0 then d.next else t
  straight : d.row.mnemonic ∉ Instr.branches → d.row.mnemonic ≠ "RET" → b'.machine.chip.pc = d.next

/-- What the mnemonic of a branch tells of the instruction. -/
structure Instr.BranchForm (i : Instr UInt8) : Prop where
  ljmp : i.mnemonic = "LJMP" → ∃ hi lo, i = .ljmp hi lo
  lcall : i.mnemonic = "LCALL" → ∃ hi lo, i = .lcall hi lo
  sjmp : i.mnemonic = "SJMP" → ∃ rel, i = .sjmp rel
  jz : i.mnemonic = "JZ" → ∃ rel, i = .jz rel
  jnz : i.mnemonic = "JNZ" → ∃ rel, i = .jnz rel
  djnz : i.mnemonic = "DJNZ" → ∃ p rel, i = .djnz p rel

theorem Instr.branchForm (i : Instr UInt8) : i.BranchForm := by
  cases i <;> constructor <;> simp [mnemonic]

section Executed

variable {d : Decoded} {opcode : UInt8} {u : Unit}

theorem Decoded.mnemonic_eq (hd : Row.of? opcode = some d.row) : d.row.mnemonic = d.instr.mnemonic := by
  rw [Row.mnemonic_eq hd, instr, Instr.mnemonic_map]

/-- An instruction that reads the accumulator and decides by it where to go. -/
theorem Script.passes_execute_of_load {f : UInt8 → UInt16}
    (hd : d.cycles = Cycles.load Sfr.acc >>= fun a => pure (f a)) (h : (execute d).Yields env b u b') :
    (execute d).Passes env b [.reading Sfr.acc (b.machine.chip.data.get Sfr.acc)] () b' ∧
      b'.machine.chip.pc = f (b.machine.chip.data.get Sfr.acc) := by
  obtain ⟨a, b₁, ha, rfl, hall⟩ := passes_execute hd h
  obtain ⟨rfl, hread⟩ := passes_read ha
  exact ⟨hall _ hread, rfl⟩

theorem Decoded.djnz_place (hd : Row.of? opcode = some d.row) {p : Place UInt8} {rel : UInt8}
    (hi : d.instr = .djnz p rel) (r : Reg) : p ≠ .indirect r :=
  counted_place hd (f := (· - 1)) (hi ▸ rfl) r

/-- An instruction that counts a byte down and decides by it where to go. -/
theorem Script.passes_execute_of_modify {p : Place UInt8} (hp : ∀ r, p ≠ .indirect r) {g : UInt8 → UInt8}
    {f : UInt8 → UInt16} (hd : d.cycles = p.modify g >>= fun v => pure (f v)) (h : (execute d).Yields env b u b') :
    ∃ addr cell old v, v = g (b.machine.chip.data.get addr) ∧
      (execute d).Passes env b [.reading addr (b.machine.chip.data.get addr), .writing cell old v] () b' ∧
      b'.machine.chip.data.get cell = v ∧ b'.machine.chip.pc = f v := by
  obtain ⟨v, b₂, hv, rfl, hall⟩ := passes_execute hd h
  obtain ⟨x, b₁, -, -, rfl, he, hmodify, hcell⟩ := Place.passes_modify hp g hv
  exact ⟨_, _, _, v, he, hall _ hmodify, hcell, rfl⟩

theorem Decoded.flows_of_yields (hd : Row.of? opcode = some d.row) (h : (Script.execute d).Yields env b u b') :
    d.Flows env b b' := by
  have hmnemonic := Decoded.mnemonic_eq hd
  have hform := Instr.branchForm d.instr
  have htext {i : Instr UInt8} (hi : d.instr = i) : d.operandText = i.operandText d.next := hi ▸ rfl
  have hcycles {i : Instr UInt8} (hi : d.instr = i) : d.cycles = i.cycles d.next := hi ▸ rfl
  have hshows {before : String} {rel : UInt8} (ht : d.operandText = some (before ++ relativeText d.next rel)) :
      d.ShowsJump (displace d.next rel) :=
    Decoded.showsJump (Row.length_of_of? hd).2 ht
  have halone {rel : UInt8} : some (relativeText d.next rel) = some ("" ++ relativeText d.next rel) := by
    rw [String.empty_append]
  refine { absolute := ?absolute, sjmp := ?sjmp, jz := ?jz, jnz := ?jnz, djnz := ?djnz, straight := ?straight }
  case absolute =>
    rintro (hm | hm)
    · obtain ⟨hi, lo, hi'⟩ := hform.ljmp (hmnemonic.symm.trans hm)
      have hpc : b'.machine.chip.pc = word hi lo :=
        Script.pc_of_execute (P := (· = word hi lo)) h (hcycles hi' ▸ rfl)
      rw [htext hi', hpc]
      rfl
    · obtain ⟨hi, lo, hi'⟩ := hform.lcall (hmnemonic.symm.trans hm)
      have hpc : b'.machine.chip.pc = word hi lo :=
        Script.pc_of_execute (P := (· = word hi lo)) h (hcycles hi' ▸ .bind fun _ => .bind fun _ => rfl)
      rw [htext hi', hpc]
      rfl
  case sjmp =>
    intro hm
    obtain ⟨rel, hi⟩ := hform.sjmp (hmnemonic.symm.trans hm)
    have hpc : b'.machine.chip.pc = displace d.next rel :=
      Script.pc_of_execute (P := (· = displace d.next rel)) h (hcycles hi ▸ rfl)
    rw [hpc]
    exact hshows ((htext hi).trans halone)
  case jz =>
    intro hm
    obtain ⟨rel, hi⟩ := hform.jz (hmnemonic.symm.trans hm)
    exact ⟨_, hshows ((htext hi).trans halone), Script.passes_execute_of_load (hcycles hi) h⟩
  case jnz =>
    intro hm
    obtain ⟨rel, hi⟩ := hform.jnz (hmnemonic.symm.trans hm)
    exact ⟨_, hshows ((htext hi).trans halone), Script.passes_execute_of_load (hcycles hi) h⟩
  case djnz =>
    intro hm
    obtain ⟨p, rel, hi⟩ := hform.djnz (hmnemonic.symm.trans hm)
    obtain ⟨addr, cell, old, v, hall⟩ :=
      Script.passes_execute_of_modify (Decoded.djnz_place hd hi) (hcycles hi) h
    exact ⟨_, addr, cell, old, v, hshows (htext hi), hall⟩
  case straight =>
    intro hjump hret
    rw [hmnemonic] at hjump hret
    have hnone : d.instr.target? d.next = none := by
      rw [← Option.not_isSome_iff_eq_none, ← Instr.mnemonic_mem_branches]
      exact hjump
    refine Script.pc_of_execute (P := (· = d.next)) h (Instr.results_next hnone ?_)
    intro hi
    exact hret (hi ▸ rfl)

/-- Take an instruction of the table at any address and with any operand bytes, and any machine. Wherever executing
it leads, whatever the callbacks do meanwhile, the program counter is as the text of the instruction says: jumps and
calls lead to the printed target, conditional jumps lead there or to the next instruction, as the byte says that
they have read or counted down, and the others, returns aside, lead to the next instruction. And executing it comes
to an end if the callbacks return. -/
theorem execution_goes_where_printed (env : Environment κ σ) (b : Bench κ σ) (hd : Row.of? opcode = some d.row) :
    (∀ b', (Script.execute d).Yields env b () b' → d.Flows env b b') ∧
    ((Moment.start (Script.execute d) b).Returning env → ∃ b', (Script.execute d).Yields env b () b') := by
  refine ⟨fun b' h => Decoded.flows_of_yields hd h, fun h => ?_⟩
  obtain ⟨_, b', hy⟩ := exists_yields_of_returning (Script.noRuns_suffices.execute d) h
  exact ⟨b', hy⟩

end Executed

/-- Hooks that move the program counter, reset the machine and step it. -/
def diverting : Environment Nat Unit where
  respond
    | 0, _ => do
      Script.edit fun c => c.jump 0x1234
      Script.reset
    | _, _ => do
      let _ ← Script.step
  holds _ := return true

/-- A jump back across the end of the address space, as long as a cell counts down. -/
def backJump : Decoded := ⟨0xFFFD, ⟨0xD5, 3, "DJNZ", .djnz (.direct .first) .second⟩, 0x30, 0xFB⟩

/-- A machine whose cell holds 2 and is watched by these hooks. -/
def divertedBench : Bench Nat Unit where
  machine := { chip := ((Chip.new Pacer.period1MHz {}).load #[0x00]).setData 0x30 2
               registry := { waiting := [(.read 0x30, .custom 0), (.write 0x30, .custom 1)] } }
  world := ()

/-- The moments of executing the jump. -/
def diverted (k : Nat) : Moment Nat Unit Unit :=
  (Moment.start (Script.execute backJump) divertedBench).after diverting k

/-- The jump is taken, to where it is printed to go, though its hooks have been elsewhere and have cleared the
cell. -/
theorem back_jump_goes_where_printed :
    backJump.operandText = some "0x30, C:-5(FFFB)" ∧
    ∃ b', (Script.execute backJump).Yields diverting divertedBench () b' ∧
      backJump.Flows diverting divertedBench b' ∧
      b'.machine.chip.data.get 0x30 = 1 ∧ b'.machine.chip.pc = 0xFFFB := by
  have hrow : Row.of? 0xD5 = some backJump.row := by decide
  have hend : ((diverted 19).advance diverting).isNone := by decide +kernel
  have hreturns : ∀ k < 19, (diverted k).returnsWithin diverting 4 = true := by decide +kernel
  obtain ⟨hflows, hyields⟩ := execution_goes_where_printed diverting divertedBench hrow
  obtain ⟨b', hy⟩ := hyields (Moment.returning_of_after (Option.isNone_iff_eq_none.1 hend) hreturns)
  have hrun : ((Script.execute backJump).run diverting 6 divertedBench).any (fun x =>
      x.2.machine.chip.data.get 0x30 = 1 ∧ x.2.machine.chip.pc = 0xFFFB) = true := by decide +kernel
  obtain ⟨⟨_, b''⟩, hb'', hx⟩ := (Option.any_eq_true _ _).1 hrun
  obtain ⟨-, rfl⟩ := hy.unique ⟨6, hb''⟩
  exact ⟨by decide +kernel, b', hy, hflows b' hy, of_decide_eq_true hx⟩

end Micro8051
