/-
The first contents of the memories, cell by cell. The bytes of a supply go to the cells in address order, first
to the lower half of internal memory and then to external memory, so each cell holds the byte that is drawn
when its turn comes. No other byte is drawn: a supply that keeps a log of its draws fills the memories alike,
and its log is what they hold.
-/
import Mathlib.Data.Stream.Init
import Mathlib.Logic.Function.Iterate
import Micro8051.Memory.Fill

namespace Micro8051

section Fill

variable {α τ : Type} [Address α] {draw : τ → UInt8 × τ} {count : Nat}

/-! ## What a supply produces -/

/-- A supply after `n` draws. -/
def drawn (draw : τ → UInt8 × τ) (n : Nat) (s : τ) : τ := (fun s => (draw s).2)^[n] s

theorem drawn_succ (n : Nat) (s : τ) : drawn draw (n + 1) s = (draw (drawn draw n s)).2 :=
  Function.iterate_succ_apply' _ n s

theorem drawn_add (n k : Nat) (s : τ) : drawn draw (n + k) s = drawn draw n (drawn draw k s) :=
  Function.iterate_add_apply _ n k s

/-- The bytes that a supply produces, one after the other. -/
def produced (draw : τ → UInt8 × τ) (s : τ) : Stream' UInt8 := Stream'.corec' draw s

theorem get_produced (n : Nat) (s : τ) : (produced draw s).get n = (draw (drawn draw n s)).1 := by
  induction n generalizing s with
  | zero => rfl
  | succ n ih =>
    rw [produced, Stream'.corec'_eq]
    exact ih (draw s).2

/-- What is left of a supply produces the bytes that come next. -/
theorem produced_drawn (n : Nat) (s : τ) : produced draw (drawn draw n s) = (produced draw s).drop n := by
  refine Stream'.ext fun k => ?_
  rw [Stream'.get_drop, get_produced, get_produced, ← drawn_add, Nat.add_comm]

/-- The supply with a log of the bytes that it has produced so far. -/
def logged (draw : τ → UInt8 × τ) (s : τ × List UInt8) : UInt8 × (τ × List UInt8) :=
  let (v, left) := draw s.1
  (v, left, s.2 ++ [v])

/-! ## Filled memories -/

theorem Memory.fill_zero (h : 0 ≤ Address.size α) (s : τ) : Memory.fill draw 0 h s = ((zero : Memory α), s) := rfl

/-- The last of the cells is filled last. -/
theorem Memory.fill_succ (h : count + 1 ≤ Address.size α) (s : τ) :
    (Memory.fill draw (count + 1) h s : Memory α × τ) =
      let filled : Memory α × τ := Memory.fill draw count (Nat.le_of_succ_le h) s
      (filled.1.set (Address.ofIndex ⟨count, h⟩) (draw filled.2).1, (draw filled.2).2) := by
  unfold Memory.fill
  rw [Nat.fold_succ]

theorem Memory.snd_fill (h : count ≤ Address.size α) (s : τ) :
    (Memory.fill draw count h s : Memory α × τ).2 = drawn draw count s := by
  induction count with
  | zero => rfl
  | succ count ih => rw [fill_succ, drawn_succ, ← ih (Nat.le_of_succ_le h)]

/-- The byte that is drawn to be stored next. -/
theorem Memory.fst_draw_snd_fill (h : count ≤ Address.size α) (s : τ) :
    (draw (Memory.fill draw count h s : Memory α × τ).2).1 = (produced draw s).get count := by
  rw [snd_fill, get_produced]

/-- The cell numbered `i` holds byte number `i`. -/
theorem Memory.get_fill (h : count ≤ Address.size α) (s : τ) (a : α) :
    (Memory.fill draw count h s : Memory α × τ).1.get a =
      if (Address.index a).val < count then (produced draw s).get (Address.index a).val else 0 := by
  induction count with
  | zero =>
    rw [fill_zero, if_neg (Nat.not_lt_zero _)]
    exact get_zero a
  | succ count ih =>
    rw [fill_succ]
    rcases eq_or_ne a (Address.ofIndex ⟨count, h⟩) with rfl | hne
    · rw [Address.index_ofIndex, if_pos (Nat.lt_succ_self count)]
      exact (get_set_self _ _ _).trans (fst_draw_snd_fill _ s)
    · have hindex : (Address.index a).val ≠ count := by
        intro he
        apply hne
        rw [← Address.ofIndex_index a]
        exact congrArg Address.ofIndex (Fin.ext he)
      refine (get_set_ne _ hne _).trans ((ih (Nat.le_of_succ_le h)).trans ?_)
      exact if_congr ⟨fun hlt => by omega, fun hlt => by omega⟩ rfl rfl

/-- A log changes nothing, and it grows by one byte for each cell. -/
theorem Memory.fill_logged (h : count ≤ Address.size α) (s : τ) (log : List UInt8) :
    (Memory.fill (logged draw) count h (s, log) : Memory α × (τ × List UInt8)) =
      let filled : Memory α × τ := Memory.fill draw count h s
      (filled.1, filled.2, log ++ (produced draw s).take count) := by
  induction count with
  | zero => rw [fill_zero, fill_zero, Stream'.take_zero, List.append_nil]
  | succ count ih =>
    have hv : (draw (Memory.fill draw count _ s : Memory α × τ).2).1 = (produced draw s).get count :=
      fst_draw_snd_fill (Nat.le_of_succ_le h) s
    rw [fill_succ, fill_succ, ih (Nat.le_of_succ_le h), Stream'.take_succ', ← List.append_assoc, ← hv]
    rfl

theorem Internal.get_fill (s : τ) (a : UInt8) :
    (Internal.fill draw s).1.get a = if a < sfrStart then (produced draw s).get a.toNat else 0 := by
  have hindex : (Address.index a).val = a.toNat := rfl
  unfold Internal.fill
  rw [Memory.get_fill, hindex]
  exact if_congr UInt8.lt_iff_toNat_lt.symm rfl rfl

theorem Internal.snd_fill (s : τ) : (Internal.fill draw s).2 = drawn draw sfrStart.toNat s := Memory.snd_fill _ s

theorem Internal.fill_logged (s : τ) (log : List UInt8) :
    Internal.fill (logged draw) (s, log) =
      ((Internal.fill draw s).1, (Internal.fill draw s).2, log ++ (produced draw s).take sfrStart.toNat) :=
  Memory.fill_logged _ s log

theorem External.get_fill (s : τ) (a : UInt16) :
    (External.fill draw s).1.get a = (produced draw s).get a.toNat := by
  have hindex : (Address.index a).val = a.toNat := rfl
  unfold External.fill
  rw [Memory.get_fill, hindex, if_pos a.toNat_lt]

theorem External.snd_fill (s : τ) : (External.fill draw s).2 = drawn draw 65536 s := Memory.snd_fill _ s

theorem External.fill_logged (s : τ) (log : List UInt8) :
    External.fill (logged draw) (s, log) =
      ((External.fill draw s).1, (External.fill draw s).2, log ++ (produced draw s).take 65536) :=
  Memory.fill_logged _ s log

/-! ## Both memories -/

/-- External memory, filled with what internal memory leaves of a supply. -/
theorem External.get_fill_rest (s : τ) (a : UInt16) :
    (External.fill draw (Internal.fill draw s).2).1.get a = (produced draw s).get (sfrStart.toNat + a.toNat) := by
  rw [get_fill, Internal.snd_fill, produced_drawn, Stream'.get_drop]

theorem External.snd_fill_rest (s : τ) :
    (External.fill draw (Internal.fill draw s).2).2 = drawn draw (sfrStart.toNat + 65536) s := by
  rw [snd_fill, Internal.snd_fill, ← drawn_add, Nat.add_comm]

/-- The log of internal memory goes on with the bytes for external memory. -/
theorem External.fill_rest_logged (s : τ) :
    External.fill (logged draw) ((Internal.fill draw s).2, (produced draw s).take sfrStart.toNat) =
      let filled := External.fill draw (Internal.fill draw s).2
      (filled.1, filled.2, (produced draw s).take (sfrStart.toNat + 65536)) := by
  rw [fill_logged, Stream'.take_add, ← produced_drawn, Internal.snd_fill]

/-- One supply fills both memories in the order of their addresses. Its log shows that it is drawn from `128 + 65536`
times, once for each cell that is not a special function register. The cell holds the byte that was drawn in its
turn, and special function registers are zero. -/
theorem memories_filled_in_turn (draw : τ → UInt8 × τ) (s : τ) :
    let g := produced draw s
    let data := Internal.fill draw s
    let xdata := External.fill draw data.2
    Internal.fill (logged draw) (s, []) = (data.1, data.2, g.take 128) ∧
      External.fill (logged draw) (data.2, g.take 128) = (xdata.1, xdata.2, g.take (128 + 65536)) ∧
      xdata.2 = drawn draw (128 + 65536) s ∧
      (∀ a, data.1.get a = if a < sfrStart then g.get a.toNat else 0) ∧
      ∀ a, xdata.1.get a = g.get (128 + a.toNat) :=
  ⟨Internal.fill_logged s [], External.fill_rest_logged s, External.snd_fill_rest s, Internal.get_fill s,
    External.get_fill_rest s⟩

end Fill

/-! ## Bytes of a supply -/

/-- The byte that is promised to be drawn after `n` others, if one is promised. -/
def Contents.byte? (n : Nat) : Contents → Option UInt8
  | .zeroed => some 0
  | .unseeded => none
  | .seeded seed => some (drawn Noise.Stream.draw n (.ofSeed seed)).draw.1
  | .known value => some value

theorem drawn_constant (v : UInt8) (n : Nat) : drawn Supply.draw n (.constant v) = .constant v := by
  induction n with
  | zero => rfl
  | succ n ih =>
    rw [drawn_succ, ih]
    rfl

theorem drawn_noise (s : Noise.Stream) (n : Nat) :
    drawn Supply.draw n (.noise s) = .noise (drawn Noise.Stream.draw n s) := by
  induction n with
  | zero => rfl
  | succ n ih =>
    rw [drawn_succ, drawn_succ, ih]
    rfl

/-- Where the contents are promised, whatever entropy there is comes to the same. -/
theorem Contents.byte?_eq {c : Contents} (h : c ≠ .unseeded) (entropy : Entropy) (n : Nat) :
    c.byte? n = some ((produced Supply.draw (c.supply entropy)).get n) := by
  rw [get_produced]
  cases c with
  | zeroed => rw [supply, drawn_constant]; rfl
  | unseeded => exact absurd rfl h
  | seeded seed => rw [supply, drawn_noise]; rfl
  | known value => rw [supply, drawn_constant]; rfl

theorem drawn_arbitrary (entropy : Entropy) (used n : Nat) :
    drawn Supply.draw n (.arbitrary entropy used) = .arbitrary entropy (used + n) := by
  induction n with
  | zero => rfl
  | succ n ih =>
    rw [drawn_succ, ih]
    rfl

/-- Where they are not, the bytes are those of the entropy. -/
theorem Contents.get_unseeded (entropy : Entropy) (n : Nat) :
    (produced Supply.draw (unseeded.supply entropy)).get n = entropy n := by
  rw [get_produced, supply, drawn_arbitrary, Nat.zero_add]
  rfl

/-! ## Machines at their start -/

theorem Contents.memories_fst (c : Contents) (entropy : Entropy) :
    (c.memories entropy).1 = (Internal.fill Supply.draw (c.supply entropy)).1 := by
  unfold memories
  generalize Internal.fill Supply.draw (c.supply entropy) = filled
  rfl

theorem Contents.memories_snd (c : Contents) (entropy : Entropy) :
    (c.memories entropy).2 = (External.fill Supply.draw (Internal.fill Supply.draw (c.supply entropy)).2).1 := by
  -- external memory is named, as it is too large to be unfolded
  obtain ⟨fill, hfill⟩ : ∃ fill, External.fill Supply.draw = fill := ⟨_, rfl⟩
  unfold memories
  rw [hfill]

/-- The general-purpose half of internal memory holds the first bytes, and the special function registers are
zero. -/
theorem Contents.byte?_data {c : Contents} (h : c ≠ .unseeded) (entropy : Entropy) (a : UInt8) :
    some ((c.memories entropy).1.get a) = if a < sfrStart then c.byte? a.toNat else some 0 := by
  rw [memories_fst, Internal.get_fill, c.byte?_eq h entropy]
  split <;> rfl

/-- External memory holds the bytes that come next. -/
theorem Contents.byte?_xdata {c : Contents} (h : c ≠ .unseeded) (entropy : Entropy) (a : UInt16) :
    some ((c.memories entropy).2.get a) = c.byte? (a.toNat + sfrStart.toNat) := by
  rw [memories_snd, External.get_fill_rest, c.byte?_eq h entropy, Nat.add_comm]

theorem Contents.memories_congr {c : Contents} (h : c ≠ .unseeded) (entropy entropy' : Entropy) :
    c.memories entropy = c.memories entropy' := by
  have hsupply : c.supply entropy = c.supply entropy' := by
    cases c with
    | unseeded => exact absurd rfl h
    | _ => rfl
  unfold memories
  rw [hsupply]

/-- Any memories whose special function registers are zero may be those of a machine of which nothing is promised. -/
theorem Contents.exists_entropy (data : Internal) (xdata : External) (h : ∀ a, sfrStart ≤ a → data.get a = 0) :
    ∃ entropy, unseeded.memories entropy = (data, xdata) := by
  refine ⟨fun n => if n < sfrStart.toNat then data.get (.ofNat n) else xdata.get (.ofNat (n - sfrStart.toNat)),
    Prod.ext (Memory.ext_get fun a => ?_) (Memory.ext_get fun a => ?_)⟩
  · rw [memories_fst, Internal.get_fill, get_unseeded]
    split_ifs with hlt hle
    · rw [UInt8.ofNat_toNat]
    · exact absurd (UInt8.lt_iff_toNat_lt.1 hlt) hle
    · exact (h a (UInt8.not_lt.1 hlt)).symm
  · rw [memories_snd, External.get_fill_rest, get_unseeded, if_neg (by omega), Nat.add_sub_cancel_left,
      UInt16.ofNat_toNat]

end Micro8051
