/-
Loops that count a byte down. An instruction that decrements a cell and jumps back until the cell is
zero, around a body that comes back to it with the cell unchanged, jumps one time less than the cell
counts at first, and 255 times if it is zero at first; then control goes on behind it.

The body is arbitrary: of the steps between two arrivals at the instruction only what they leave in
the cell matters, and, where the instruction names a working register, which bank they leave active.
The induction is on what the cell holds after the decrement.
-/
import Mathlib.Data.Nat.Count
import Micro8051.Proofs.Instr.Addressing
import Micro8051.Proofs.Instr.Flow

namespace Micro8051

variable {κ σ : Type} {env : Environment κ σ} {b : Nat → Bench κ σ} {d : Decoded} {place : Place UInt8}
  {rel cell : UInt8} {c : Chip} {t t' T n : Nat}

namespace Loop

/-- Before step `t` of the run control is at the instruction. -/
def Arrives (b : Nat → Bench κ σ) (d : Decoded) (t : Nat) : Prop := (b t).machine.chip.pc = d.pc

/-- Step `t` of the run is the instruction, and it jumps: the cell does not become zero. -/
def Taken (b : Nat → Bench κ σ) (d : Decoded) (cell : UInt8) (t : Nat) : Prop :=
  Arrives b d t ∧ (b t).machine.chip.data.get cell - 1 ≠ 0

instance : DecidablePred (Taken b d cell) :=
  fun t => inferInstanceAs (Decidable ((b t).machine.chip.pc = d.pc ∧ (b t).machine.chip.data.get cell - 1 ≠ 0))

/-- Step `t` of the run succeeds. -/
def Succeeds (env : Environment κ σ) (b : Nat → Bench κ σ) (t : Nat) : Prop :=
  Script.step.Yields env (b t) (.ok ()) (b (t + 1))

/-- The steps between the jump at step `t` and the next arrival, at step `t'`, succeed. They leave the cell
as the jump left it, and the active bank too if the instruction names a register of the bank. -/
structure Returns (env : Environment κ σ) (b : Nat → Bench κ σ) (d : Decoded) (place : Place UInt8) (cell : UInt8)
    (t t' : Nat) : Prop where
  lt : t < t'
  arrives : Arrives b d t'
  between : ∀ s, t < s → s < t' → ¬ Arrives b d s ∧ Succeeds env b s
  kept : (b t').machine.chip.data.get cell = (b (t + 1)).machine.chip.data.get cell
  bank : ∀ r, place = .reg r → (b t').machine.chip.bank = (b (t + 1)).machine.chip.bank

/-- As long as the instruction has jumped at each arrival, control comes back to it. -/
def BodyReturns (env : Environment κ σ) (b : Nat → Bench κ σ) (d : Decoded) (place : Place UInt8) (cell : UInt8) :
    Prop :=
  ∀ t, Arrives b d t → (∀ s ≤ t, Arrives b d s → Taken b d cell s) → ∃ t', Returns env b d place cell t t'

/-- The loop ends with step `T`, the first arrival at which the instruction does not jump. -/
structure Ends (env : Environment κ σ) (b : Nat → Bench κ σ) (d : Decoded) (cell rel : UInt8) (T : Nat) : Prop where
  arrives : Arrives b d T
  leaves : ¬ Taken b d cell T
  taken : ∀ s < T, Arrives b d s → Taken b d cell s
  succeeds : ∀ s ≤ T, Succeeds env b s
  /-- The instruction changes the cell and nothing else in the memories. -/
  decrements : ∀ s ≤ T, Arrives b d s →
    (b (s + 1)).machine.chip.data =
      (b s).machine.chip.data.set cell ((b s).machine.chip.data.get cell - 1) ∧
    (b (s + 1)).machine.chip.xdata = (b s).machine.chip.xdata
  jumps : ∀ s ≤ T, Taken b d cell s → (b (s + 1)).machine.chip.pc = displace d.next rel
  falls : (b (T + 1)).machine.chip.pc = d.pc + UInt16.ofNat d.bytes.length
  zero : (b (T + 1)).machine.chip.data.get cell = 0

end Loop

/-! ## The instruction -/

theorem Decoded.stepped_of_effect {e : Effect} (hd : c.current? = some d) (he : d.instr.effect? c = some e) :
    c.stepped = ((c.setData e.cell e.value).jump (d.successor e.taken)).count := by
  rw [Chip.stepped_of_current? hd, Chip.execute, onChip_of_effect he]

/-- The status word is no working register. -/
theorem Chip.cellOf_ne_psw (c : Chip) (r : Reg) : c.cellOf r ≠ Sfr.psw := by
  have h : ∀ psw : UInt8, ∀ n : Fin 8, Reg.cell ⟨n⟩ (bankOf psw) ≠ Sfr.psw := by decide +kernel
  exact h _ r.no

/-- A place that no pointer finds is the same cell where the same bank is active. -/
theorem Place.cell_congr {c' : Chip} (hp : ∀ r, place ≠ .indirect r)
    (hbank : ∀ r, place = .reg r → c'.bank = c.bank) : place.cell c' = place.cell c := by
  cases place with
  | acc => rfl
  | reg r => exact congrArg r.cell (hbank r rfl)
  | direct a => rfl
  | indirect r => exact absurd rfl (hp r)

/-- Counting a register down leaves the active bank alone. -/
theorem Place.bank_setData {r : Reg} (h : place = .reg r) (v : UInt8) :
    (c.setData (place.cell c) v).bank = c.bank := by
  subst h
  exact congrArg bankOf (Memory.get_set_ne _ (c.cellOf_ne_psw r).symm v)

namespace Loop

/-- A run of a machine without callbacks whose first step is an instruction that counts down. -/
structure Starts (env : Environment κ σ) (b : Nat → Bench κ σ) (d : Decoded) (place : Place UInt8) (rel : UInt8) :
    Prop where
  quiet : (b 0).Quiet
  next : ∀ k, (b k).Next env (b (k + 1))
  fetched : fetch (b 0).machine.chip.code (b 0).machine.chip.pc = .ok d
  instr : d.instr = .djnz place rel

namespace Starts

variable (h : Starts env b d place rel)

include h

theorem quiet_at (k : Nat) : (b k).Quiet := (h.quiet.run h.next k).1

theorem chip_succ (k : Nat) : (b (k + 1)).machine.chip = (b k).machine.chip.stepped :=
  ((h.quiet_at k).next (h.next k)).2

theorem arrives_zero : Arrives b d 0 := (pc_of_fetch h.fetched).symm

theorem indirect (r : Reg) : place ≠ .indirect r := by
  obtain ⟨_, _, hr, _⟩ := fetch_eq_ok h.fetched
  exact Decoded.djnz_place ((Row.opcode_of_of? hr).symm ▸ hr) h.instr r

theorem code_at (k : Nat) : (b k).machine.chip.code = (b 0).machine.chip.code := by
  induction k with
  | zero => rfl
  | succ k ih =>
    rw [h.chip_succ, ← ih]
    cases hc : (b k).machine.chip.current? with
    | none => rw [Chip.stepped_of_current?_eq_none hc]
    | some d => rw [Chip.stepped_of_current? hc, Chip.code_count_execute]

theorem current?_at (ht : Arrives b d t) : (b t).machine.chip.current? = some d := by
  rw [Chip.current?_eq_some, h.code_at, ht, pc_of_fetch h.fetched]
  exact h.fetched

/-- The step at an arrival. -/
theorem chip_at (ht : Arrives b d t) (hcell : place.cell (b t).machine.chip = cell) :
    (b (t + 1)).machine.chip =
      (((b t).machine.chip.setData cell ((b t).machine.chip.data.get cell - 1)).jump
        (if (b t).machine.chip.data.get cell - 1 ≠ 0 then displace d.next rel else d.next)).count := by
  subst hcell
  rw [h.chip_succ, Decoded.stepped_of_effect (h.current?_at ht) (by rw [h.instr]; rfl)]
  simp only [Decoded.successor, h.instr, Instr.target?, Option.getD_some, decide_eq_true_eq]

/-- A step succeeds where there is an instruction. -/
theorem succeeds_of_current? {d' : Decoded} (hd : (b t).machine.chip.current? = some d') : Succeeds env b t :=
  (h.quiet_at t).yields_step_ok_of_next (h.next t) hd

theorem succeeds_at (ht : Arrives b d t) : Succeeds env b t := h.succeeds_of_current? (h.current?_at ht)

end Starts

/-! ## Iterations -/

/-- Between the arrivals at the steps `t` and `T` the instruction jumps `n` times, each time it is
executed; it is the same cell that is counted down at all of these arrivals. -/
structure Iterations (env : Environment κ σ) (b : Nat → Bench κ σ) (d : Decoded) (place : Place UInt8) (cell : UInt8)
    (t n T : Nat) : Prop where
  le : t ≤ T
  arrives : Arrives b d T
  taken : ∀ s, t ≤ s → s < T → Arrives b d s → Taken b d cell s
  succeeds : ∀ s, t ≤ s → s < T → Succeeds env b s
  cells : ∀ s, t ≤ s → s ≤ T → Arrives b d s → place.cell (b s).machine.chip = cell
  count : Nat.count (Taken b d cell) T = Nat.count (Taken b d cell) t + n

theorem count_of_returns (ht : Taken b d cell t) (h : Returns env b d place cell t t') :
    Nat.count (Taken b d cell) t' = Nat.count (Taken b d cell) t + 1 := by
  -- one arrival at `t`, and none until `t'`
  have hgap : ∀ k, t + 1 + k ≤ t' → Nat.count (Taken b d cell) (t + 1 + k) = Nat.count (Taken b d cell) t + 1 := by
    intro k
    induction k with
    | zero => exact fun _ => by rw [Nat.add_zero, Nat.count_succ, if_pos ht]
    | succ k ih =>
      intro hk
      rw [← Nat.add_assoc, Nat.count_succ, ih (by omega),
        if_neg fun hs => (h.between (t + 1 + k) (by omega) (by omega)).1 hs.1]
  obtain ⟨k, rfl⟩ := Nat.exists_eq_add_of_le h.lt
  exact hgap k le_rfl

/-- An iteration keeps which cell is counted down, and leaves it counted down. -/
theorem Starts.cell_of_returns (h : Starts env b d place rel) (ht : Arrives b d t)
    (hcell : place.cell (b t).machine.chip = cell) (hr : Returns env b d place cell t t') :
    place.cell (b t').machine.chip = cell ∧
      (b t').machine.chip.data.get cell = (b t).machine.chip.data.get cell - 1 := by
  have hchip := h.chip_at ht hcell
  constructor
  · rw [← hcell]
    refine Place.cell_congr h.indirect fun r hplace => ?_
    rw [hr.bank r hplace, hchip, ← hcell]
    exact Place.bank_setData hplace _
  · rw [hr.kept, hchip]
    exact Memory.get_set_self ..

/-- A step from a jump on is the jump, a step of the body, or comes with the next arrival or later. -/
theorem Returns.cases {s : Nat} (hr : Returns env b d place cell t t') (h : t ≤ s) :
    s = t ∨ (¬ Arrives b d s ∧ Succeeds env b s) ∨ t' ≤ s := by
  rcases h.eq_or_lt with rfl | hlt
  · exact .inl rfl
  · rcases Nat.lt_or_ge s t' with hs | hs
    · exact .inr (.inl (hr.between s hlt hs))
    · exact .inr (.inr hs)

/-- One iteration and the iterations after it. -/
theorem Iterations.cons (h : Starts env b d place rel) (ht : Taken b d cell t)
    (hcell : place.cell (b t).machine.chip = cell) (hr : Returns env b d place cell t t')
    (hrest : Iterations env b d place cell t' n T) : Iterations env b d place cell t (n + 1) T where
  le := hr.lt.le.trans hrest.le
  arrives := hrest.arrives
  taken s h1 h2 hs := by
    obtain rfl | ⟨hbody, -⟩ | h' := hr.cases h1
    · exact ht
    · exact absurd hs hbody
    · exact hrest.taken s h' h2 hs
  succeeds s h1 h2 := by
    obtain rfl | ⟨-, hbody⟩ | h' := hr.cases h1
    · exact h.succeeds_at ht.1
    · exact hbody
    · exact hrest.succeeds s h' h2
  cells s h1 h2 hs := by
    obtain rfl | ⟨hbody, -⟩ | h' := hr.cases h1
    · exact hcell
    · exact absurd hs hbody
    · exact hrest.cells s h' h2 hs
  count := by rw [hrest.count, count_of_returns ht hr, Nat.add_assoc, Nat.add_comm 1 n]

/-- What an arrival leaves in the cell says how often the instruction still jumps. -/
theorem Starts.iterations (h : Starts env b d place rel) (hbody : BodyReturns env b d place cell) :
    ∀ (n t : Nat), Arrives b d t → place.cell (b t).machine.chip = cell →
      (∀ s < t, Arrives b d s → Taken b d cell s) → ((b t).machine.chip.data.get cell - 1).toNat = n →
      ∃ T, Iterations env b d place cell t n T ∧ ¬ Taken b d cell T := by
  intro n
  induction n with
  | zero =>
    intro t ht hcell _ hn
    have hzero : (b t).machine.chip.data.get cell - 1 = 0 := UInt8.toNat_inj.1 hn
    refine ⟨t, ⟨le_rfl, ht, fun s h1 h2 => by omega, fun s h1 h2 => by omega, fun s h1 h2 _ => ?_, rfl⟩,
      fun hx => hx.2 hzero⟩
    rw [Nat.le_antisymm h2 h1]
    exact hcell
  | succ n ih =>
    intro t ht hcell hbefore hn
    -- the cell is not zero yet, so the body runs once more and comes back at `t'`
    have htaken : Taken b d cell t := by
      refine ⟨ht, fun hzero => ?_⟩
      rw [hzero] at hn
      cases hn
    have hall : ∀ s ≤ t, Arrives b d s → Taken b d cell s := fun s hs ha =>
      (Nat.eq_or_lt_of_le hs).elim (fun he => he ▸ htaken) fun hlt => hbefore s hlt ha
    obtain ⟨t', hr⟩ := hbody t ht hall
    obtain ⟨hcell', hvalue⟩ := h.cell_of_returns ht hcell hr
    have hbefore' : ∀ s < t', Arrives b d s → Taken b d cell s := by
      intro s hs ha
      rcases Nat.lt_or_ge t s with hts | hts
      · exact absurd ha (hr.between s hts hs).1
      · exact hall s hts ha
    have hn' : ((b t').machine.chip.data.get cell - 1).toNat = n := by
      rw [hvalue, UInt8.toNat_sub, hn, show (1 : UInt8).toNat = 1 from rfl]
      have := ((b t).machine.chip.data.get cell - 1).toNat_lt
      omega
    obtain ⟨T, hit, hlast⟩ := ih t' hr.arrives hcell' hbefore' hn'
    exact ⟨T, .cons h htaken hcell hr hit, hlast⟩

theorem toNat_sub_one (v : UInt8) : (v - 1).toNat = if v = 0 then 255 else v.toNat - 1 := by
  revert v
  decide +kernel

/-- A loop that counts a cell down from `N` jumps back `N - 1` times, or 255 times if `N` is zero. Then
control falls through to the instruction behind it, with the cell at zero. This holds for any body
that always comes back with the cell, and with the active bank if a register is counted down, as the
jump left them. -/
theorem loop_ends (h : Starts env b d place rel)
    (hbody : BodyReturns env b d place (place.cell (b 0).machine.chip)) :
    ∃ T, Ends env b d (place.cell (b 0).machine.chip) rel T ∧
      Nat.count (Taken b d (place.cell (b 0).machine.chip)) (T + 1) =
        if (b 0).machine.chip.data.get (place.cell (b 0).machine.chip) = 0 then 255
        else ((b 0).machine.chip.data.get (place.cell (b 0).machine.chip)).toNat - 1 := by
  generalize hcell : place.cell (b 0).machine.chip = cell at hbody ⊢
  obtain ⟨T, hit, hlast⟩ := h.iterations hbody _ 0 h.arrives_zero hcell (fun s hs => by omega) rfl
  have hzero : (b T).machine.chip.data.get cell - 1 = 0 := by
    by_contra hne
    exact hlast ⟨hit.arrives, hne⟩
  have hat : ∀ s ≤ T, Arrives b d s → _ := fun s hs ha => h.chip_at ha (hit.cells s (Nat.zero_le s) hs ha)
  have hexit := hat T le_rfl hit.arrives
  refine ⟨T, ⟨hit.arrives, hlast, fun s => hit.taken s (Nat.zero_le s), fun s hs => ?_, fun s hs ha => ?_,
    fun s hs ha => ?_, ?_, ?_⟩, ?_⟩
  · rcases hs.eq_or_lt with rfl | hs
    · exact h.succeeds_at hit.arrives
    · exact hit.succeeds s (Nat.zero_le s) hs
  · rw [hat s hs ha]
    exact ⟨rfl, rfl⟩
  · rw [hat s hs ha.1, if_pos ha.2]
    rfl
  · rw [hexit, hzero, length_bytes_of_fetch h.fetched]
    rfl
  · rw [hexit, hzero]
    exact Memory.get_set_self ..
  · rw [Nat.count_succ, if_neg hlast, hit.count, Nat.count_zero, toNat_sub_one, Nat.add_zero, Nat.zero_add]

/-- Counts `R0` of bank 1 down from 3 and the cell `40` up meanwhile. -/
def tallyChip : Chip where
  data := (Memory.zero.set Sfr.psw 0x08).set 0x08 3
  xdata := Memory.zero
  pc := 2
  executed := 0
  code := #[0x05, 0x40, 0xD8, 0xFC]
  flags := {}
  pacer := { period := Pacer.period1MHz }

def tally : Decoded := ⟨2, ⟨0xD8, 2, "DJNZ", .djnz (.reg (.ofLowBits 0)) .first⟩, 0xFC, 0⟩

/-- The bench with `tallyChip` after `k` steps. -/
def tallied (k : Nat) : Bench Unit Unit := .bare (Chip.stepped^[k] tallyChip)

theorem tallied_starts : Starts .idle tallied tally (.reg (.ofLowBits 0)) 0xFC where
  quiet := rfl
  next k := by
    unfold tallied
    rw [Function.iterate_succ_apply']
    exact Bench.next_bare _
  fetched := by decide +kernel
  instr := rfl

theorem tallied_returns {k : Nat} (hk : k = 0 ∨ k = 2) :
    Returns .idle tallied tally (.reg (.ofLowBits 0)) 0x08 k (k + 2) := by
  have hsome : (tallied (k + 1)).machine.chip.current?.isSome := by
    rcases hk with rfl | rfl <;> decide +kernel
  obtain ⟨d, hd⟩ := Option.isSome_iff_exists.1 hsome
  refine ⟨by omega, ?_, fun s h1 h2 => ?_, ?_, fun _ _ => ?_⟩
  · rcases hk with rfl | rfl <;> (unfold Arrives; decide +kernel)
  · obtain rfl : s = k + 1 := by omega
    refine ⟨?_, tallied_starts.succeeds_of_current? hd⟩
    rcases hk with rfl | rfl <;> (unfold Arrives; decide +kernel)
  · rcases hk with rfl | rfl <;> decide +kernel
  · rcases hk with rfl | rfl <;> decide +kernel

theorem loop_ends_tally : ∃ T, Ends .idle tallied tally 0x08 0xFC T ∧
    Nat.count (Taken tallied tally 0x08) (T + 1) = 2 := by
  have hbody : BodyReturns .idle tallied tally (.reg (.ofLowBits 0)) 0x08 := by
    intro t ht hall
    rcases Nat.lt_or_ge t 4 with hlt | hge
    · -- of the first four steps every other one is at the instruction
      have hone : ¬ (tallied 1).machine.chip.pc = 2 := by decide +kernel
      have hthree : ¬ (tallied 3).machine.chip.pc = 2 := by decide +kernel
      refine ⟨t + 2, tallied_returns ?_⟩
      have h1 : t ≠ 1 := fun he => hone (he ▸ ht)
      have h3 : t ≠ 3 := fun he => hthree (he ▸ ht)
      omega
    · -- the third arrival is the last
      have hlast : (tallied 4).machine.chip.pc = 2 ∧ (tallied 4).machine.chip.data.get 0x08 - 1 = 0 := by
        decide +kernel
      exact absurd hlast.2 (hall 4 hge hlast.1).2
  have hcell : Place.cell (tallied 0).machine.chip (.reg (.ofLowBits 0)) = 0x08 := by decide +kernel
  have hvalue : (tallied 0).machine.chip.data.get 0x08 = 3 := by decide +kernel
  have hends := loop_ends tallied_starts (hcell ▸ hbody)
  rw [hcell, hvalue] at hends
  exact hends

end Loop

end Micro8051
