/-
Histories of internal memory: the writes to some of its cells, each with what the cell held before. Those
that a program of bus cycles makes are the complete history of the cells between the memory before it and
the memory after it, and each is made while the program counter is at the instruction.
-/
import Micro8051.Proofs.Chip.Frame

namespace Micro8051

/-! ## Replaying writes -/

/-- A write to a cell of internal memory. -/
structure Event where
  /-- The program counter during the write. -/
  pc : UInt16
  addr : UInt8
  /-- What the cell held. -/
  old : UInt8
  new : UInt8
  deriving DecidableEq

/-- The memory after some writes. -/
def replay (m : Internal) (es : List Event) : Internal := es.foldl (fun m e => m.set e.addr e.new) m

theorem replay_append (m : Internal) (es es' : List Event) : replay m (es ++ es') = replay (replay m es) es' :=
  List.foldl_append

theorem replay_congr {W : UInt8 → Bool} {m m' : Internal} (h : ∀ a, W a → m.get a = m'.get a) (es : List Event) :
    ∀ a, W a → (replay m es).get a = (replay m' es).get a := by
  induction es generalizing m m' with
  | nil => exact h
  | cons e es ih =>
    refine ih fun a ha => ?_
    rw [Memory.get_set, Memory.get_set, h a ha]

theorem get_replay_of_forall_ne {a : UInt8} (es : List Event) (m : Internal) (h : ∀ e ∈ es, e.addr ≠ a) :
    (replay m es).get a = m.get a := by
  induction es generalizing m with
  | nil => rfl
  | cons e es ih =>
    rw [List.forall_mem_cons] at h
    exact (ih _ h.2).trans (Memory.get_set_ne m h.1.symm e.new)

/-! ## Histories -/

/-- The writes `es` are the complete history of the cells `W` from the memory `m` to `m'`. -/
structure History (W : UInt8 → Bool) (m : Internal) (es : List Event) (m' : Internal) : Prop where
  watched : ∀ e ∈ es, W e.addr
  /-- Each write tells what the ones before it have left in its cell. -/
  chained : ∀ {before e after}, es = before ++ e :: after → e.old = (replay m before).get e.addr
  complete : ∀ a, W a → m'.get a = (replay m es).get a

namespace History

variable {W : UInt8 → Bool} {m m₁ m' : Internal} {es es' : List Event}

theorem nil (h : ∀ a, W a → m'.get a = m.get a) : History W m [] m' :=
  ⟨fun _ he => absurd he List.not_mem_nil, fun h => by simp at h, h⟩

/-- A write to a cell that is watched is the history of the write; any other has none. -/
theorem store (W : UInt8 → Bool) (m : Internal) (pc : UInt16) (addr v : UInt8) :
    History W m (if W addr then [⟨pc, addr, m.get addr, v⟩] else []) (m.set addr v) := by
  split
  · rename_i hw
    refine ⟨by simpa using hw, ?_, fun _ _ => rfl⟩
    intro before e after h
    obtain ⟨rfl, h⟩ | ⟨_, _, h⟩ := List.cons_eq_append_iff.1 h
    · cases h
      rfl
    · simp at h
  · rename_i hw
    exact nil fun a ha => Memory.get_set_ne m (by rintro rfl; exact hw ha) v

/-- The history of one stretch, then that of the next. -/
theorem append (h : History W m es m₁) (h' : History W m₁ es' m') : History W m (es ++ es') m' := by
  refine ⟨List.forall_mem_append.2 ⟨h.watched, h'.watched⟩, ?_, fun a ha => ?_⟩
  · intro before e after heq
    -- the write is in the second history, is the first one of it, or is in the first history
    obtain ⟨l, rfl, rfl⟩ | ⟨l, rfl, hl⟩ := List.append_eq_append_iff.1 heq
    · have he : W e.addr := h'.watched e (by simp)
      rw [replay_append, ← replay_congr h.complete l e.addr he]
      exact h'.chained rfl
    · obtain ⟨rfl, rfl⟩ | ⟨l', rfl, -⟩ := List.cons_eq_append_iff.1 hl
      · have he : W e.addr := h'.watched e (by simp)
        have hfirst : e.old = (replay m₁ []).get e.addr := h'.chained rfl
        rw [hfirst, ← List.append_nil before, ← h.complete e.addr he]
        rfl
      · exact h.chained rfl
  · rw [h'.complete a ha, replay_append]
    exact replay_congr h.complete es' a ha

/-- If every cell is watched, then replaying the writes yields the memory at the end. -/
theorem eq_replay (h : History W m es m') (hW : ∀ a, W a) : m' = replay m es :=
  Memory.ext_get fun a => h.complete a (hW a)

/-- A cell that is watched does not change without a write. -/
theorem exists_of_ne (h : History W m es m') {a : UInt8} (ha : W a) (hne : m'.get a ≠ m.get a) :
    ∃ e ∈ es, e.addr = a :=
  Classical.byContradiction fun hnone => hne ((h.complete a ha).trans
    (get_replay_of_forall_ne es m fun e he hea => hnone ⟨e, he, hea⟩))

end History

/-! ## Writes of bus cycles -/

namespace Cycles

variable {α β : Type}

/-- The writes to the cells `W` that a program makes on an unwatched chip, in order. -/
def events (W : UInt8 → Bool) : Cycles α → Chip → List Event
  | .done _, _ => []
  | .read addr next, c => (next (c.data.get addr)).events W c
  | .write addr v next, c =>
    (if W addr then [⟨c.pc, addr, c.data.get addr, v⟩] else []) ++ next.events W (c.setData addr v)
  | .bank next, c => (next c.bank).events W c
  | .readExternal addr next, c => (next (c.xdata.get addr)).events W c
  | .writeExternal addr v next, c => next.events W (c.setXdata addr v)

theorem history (W : UInt8 → Bool) (p : Cycles α) (c : Chip) :
    History W c.data (p.events W c) (p.onChip c).2.data := by
  induction p generalizing c with
  | done _ => exact .nil fun _ _ => rfl
  | read addr next ih => exact ih _ c
  | write addr v next ih => exact (History.store W c.data c.pc addr v).append (ih (c.setData addr v))
  | bank next ih => exact ih _ c
  | readExternal addr next ih => exact ih _ c
  | writeExternal addr v next ih => exact ih (c.setXdata addr v)

theorem pc_of_mem_events {W : UInt8 → Bool} {e : Event} (p : Cycles α) (c : Chip) (h : e ∈ p.events W c) :
    e.pc = c.pc := by
  induction p generalizing c with
  | done _ => cases h
  | read addr next ih => exact ih _ c h
  | write addr v next ih =>
    rw [events, List.mem_append] at h
    obtain h | h := h
    · split at h
      · rw [List.mem_singleton.1 h]
      · cases h
    · exact ih (c.setData addr v) h
  | bank next ih => exact ih _ c h
  | readExternal addr next ih => exact ih _ c h
  | writeExternal addr v next ih => exact ih (c.setXdata addr v) h

/-! ## External memory -/

/-- A program that does not write external memory. -/
def KeepsExternal : Cycles α → Prop
  | .done _ => True
  | .read _ next => ∀ v, (next v).KeepsExternal
  | .write _ _ next => next.KeepsExternal
  | .bank next => ∀ v, (next v).KeepsExternal
  | .readExternal _ next => ∀ v, (next v).KeepsExternal
  | .writeExternal _ _ _ => False

namespace KeepsExternal

theorem xdata_onChip {p : Cycles α} (h : p.KeepsExternal) (c : Chip) : (p.onChip c).2.xdata = c.xdata := by
  induction p generalizing c with
  | done _ => rfl
  | read addr next ih => exact ih _ (h _) c
  | write addr v next ih => exact ih h (c.setData addr v)
  | bank next ih => exact ih _ (h _) c
  | readExternal addr next ih => exact ih _ (h _) c
  | writeExternal addr v next => exact h.elim

theorem bind {p : Cycles α} {k : α → Cycles β} (h : p.KeepsExternal) (hk : ∀ a, (k a).KeepsExternal) :
    (p >>= k).KeepsExternal := by
  change (p.bind k).KeepsExternal
  induction p with
  | done a => exact hk a
  | read addr next ih => exact fun v => ih v (h v)
  | write addr v next ih => exact ih h
  | bank next ih => exact fun v => ih v (h v)
  | readExternal addr next ih => exact fun v => ih v (h v)
  | writeExternal addr v next => exact h.elim

theorem load (addr : UInt8) : (Cycles.load addr).KeepsExternal := fun _ => trivial

theorem store (addr v : UInt8) : (Cycles.store addr v).KeepsExternal := trivial

theorem cellOf (r : Reg) : (Cycles.cellOf r).KeepsExternal := fun _ => trivial

theorem push (v : UInt8) : (Cycles.push v).KeepsExternal := fun _ => trivial

theorem pop : Cycles.pop.KeepsExternal := fun _ _ => trivial

theorem loadDptr : Cycles.loadDptr.KeepsExternal := fun _ _ => trivial

theorem storeDptr (w : UInt16) : (Cycles.storeDptr w).KeepsExternal := trivial

end KeepsExternal

end Cycles

open Cycles (KeepsExternal)

theorem Place.load_keepsExternal (p : Place UInt8) : p.load.KeepsExternal := by
  cases p with
  | acc => exact .load _
  | reg r => exact .bind (.cellOf r) .load
  | direct a => exact .load a
  | indirect r => exact .bind (.cellOf r) fun a => .bind (.load a) .load

theorem Place.store_keepsExternal (v : UInt8) (p : Place UInt8) : (p.store v).KeepsExternal := by
  cases p with
  | acc => exact .store _ v
  | reg r => exact .bind (.cellOf r) fun a => .store a v
  | direct a => exact .store a v
  | indirect r => exact .bind (.cellOf r) fun a => .bind (.load a) fun i => .store i v

theorem Place.modify_keepsExternal (f : UInt8 → UInt8) (p : Place UInt8) : (p.modify f).KeepsExternal :=
  .bind p.load_keepsExternal fun v => .bind (p.store_keepsExternal (f v)) fun _ => trivial

theorem Source.load_keepsExternal (s : Source UInt8) : s.load.KeepsExternal := by
  cases s with
  | place p => exact p.load_keepsExternal
  | imm v => trivial

/-- No instruction but the one that stores to external memory writes it. -/
theorem Instr.cycles_keepsExternal (next : UInt16) {i : Instr UInt8} (h : i ≠ .movxStore) :
    (i.cycles next).KeepsExternal := by
  cases i with
  | nop => trivial
  | ljmp hi lo => trivial
  | lcall hi lo => exact .bind (.push _) fun _ => .bind (.push _) fun _ => trivial
  | ret => exact .bind .pop fun _ => .bind .pop fun _ => trivial
  | sjmp rel => trivial
  | jz rel => exact .bind (.load _) fun _ => trivial
  | jnz rel => exact .bind (.load _) fun _ => trivial
  | djnz p rel => exact .bind (p.modify_keepsExternal _) fun _ => trivial
  | inc p => exact .bind (p.modify_keepsExternal _) fun _ => trivial
  | dec p => exact .bind (p.modify_keepsExternal _) fun _ => trivial
  | incDptr => exact .bind .loadDptr fun _ => .bind (.storeDptr _) fun _ => trivial
  | clr => exact .bind (.store _ _) fun _ => trivial
  | mov dst src => exact .bind src.load_keepsExternal fun v => .bind (dst.store_keepsExternal v) fun _ => trivial
  | movDptr hi lo => exact .bind (.storeDptr _) fun _ => trivial
  | movxLoad => exact .bind .loadDptr fun _ _ => .bind (.store _ _) fun _ => trivial
  | movxStore => exact absurd rfl h
  | push a =>
    refine .bind (.load _) fun sp => .bind (.store _ _) fun _ => ?_
    exact .bind (.load _) fun v => .bind (.store _ _) fun _ => trivial
  | pop a =>
    refine .bind (.load _) fun sp => .bind (.load _) fun v => .bind (.store _ _) fun _ => ?_
    exact .bind (.load _) fun sp => .bind (.store _ _) fun _ => trivial

/-- The external address that the data pointer holds. -/
def Chip.dptr (c : Chip) : UInt16 := word (c.data.get Sfr.dph) (c.data.get Sfr.dpl)

/-- External memory changes only where the data pointer points, and only when the accumulator is stored
there. -/
theorem Decoded.xdata_onChip (d : Decoded) (c : Chip) :
    (d.cycles.onChip c).2.xdata =
      if d.instr = .movxStore then c.xdata.set c.dptr (c.data.get Sfr.acc) else c.xdata := by
  unfold Decoded.cycles
  split
  · rename_i h
    rw [h]
    rfl
  · rename_i h
    exact (Instr.cycles_keepsExternal d.next h).xdata_onChip c

end Micro8051
