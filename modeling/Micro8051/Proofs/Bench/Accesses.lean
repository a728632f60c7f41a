/-
Accesses to memory on a watched machine, and programs of bus cycles made of them. Whatever the hooks do, a read
returns the byte that was there at first, and a write leaves the byte that was written.
-/
import Micro8051.Proofs.Bench.Occasions

namespace Micro8051

variable {κ σ α β : Type} {env : Environment κ σ} {b b' : Bench κ σ} {addr v : UInt8}

namespace Script

theorem passes_read (h : (read addr).Yields env b v b') :
    v = b.machine.chip.data.get addr ∧ (read addr).Passes env b [.reading addr v] v b' := by
  unfold read at h ⊢
  obtain ⟨x, b₀, hx, h⟩ := yields_bind.1 h
  obtain ⟨rfl, rfl⟩ := yields_chip.1 hx
  obtain ⟨_, b₁, hs, h⟩ := yields_bind.1 h
  obtain ⟨rfl, rfl⟩ := yields_pure.1 h
  exact ⟨rfl, passes_chip.bind ((passes_serve hs).bind (.done _ _))⟩

theorem passes_write {u : Unit} (h : (write addr v).Yields env b u b') :
    (write addr v).Passes env b [.writing addr (b.machine.chip.data.get addr) v] () b' ∧
      b'.machine.chip.data.get addr = v := by
  unfold write at h ⊢
  obtain ⟨x, b₀, hx, h⟩ := yields_bind.1 h
  obtain ⟨rfl, rfl⟩ := yields_chip.1 hx
  obtain ⟨_, b₁, hs, h⟩ := yields_bind.1 h
  obtain rfl := yields_perform.1 h
  exact ⟨passes_chip.bind ((passes_serve hs).bind passes_perform), Memory.get_set_self _ _ _⟩

/-- A write that no hook waits for is nothing but the store. -/
theorem apply_of_write {u : Unit} (hc : b.machine.registry.callbacks (.write addr) = [])
    (h : (write addr v).Yields env b u b') : (Act.edit fun c => c.setData addr v).apply b = b' := by
  unfold write at h
  obtain ⟨x, b₀, hx, h⟩ := yields_bind.1 h
  obtain ⟨rfl, rfl⟩ := yields_chip.1 hx
  obtain ⟨_, b₁, hs, hstore⟩ := yields_bind.1 h
  obtain ⟨-, rfl⟩ := hs.unique (yields_serve_of_nil hc)
  exact yields_perform.1 hstore

/-! ## Programs of bus cycles -/

theorem ofCycles_bind (p : Cycles α) (k : α → Cycles β) :
    (ofCycles (p >>= k) : Script κ σ β) = ofCycles p >>= fun a => ofCycles (k a) := by
  show ofCycles (p.bind k) = (ofCycles p).bind fun a => ofCycles (k a)
  induction p with
  | done a => rfl
  | read addr next ih => simp only [Cycles.bind, ofCycles, bind_assoc, ih]
  | write addr v next ih => simp only [Cycles.bind, ofCycles, bind_assoc, ih]
  | bank next ih => simp only [Cycles.bind, ofCycles, bind_assoc, ih]
  | readExternal addr next ih => simp only [Cycles.bind, ofCycles, bind_assoc, ih]
  | writeExternal addr v next ih => simp only [Cycles.bind, ofCycles, bind_assoc, ih]

end Script

/-- All results of a program satisfy `P`. -/
def Cycles.Results (P : α → Prop) : Cycles α → Prop
  | .done a => P a
  | .read _ next => ∀ v, (next v).Results P
  | .write _ _ next => next.Results P
  | .bank next => ∀ b, (next b).Results P
  | .readExternal _ next => ∀ v, (next v).Results P
  | .writeExternal _ _ next => next.Results P

namespace Cycles.Results

variable {P : α → Prop}

theorem bind {p : Cycles β} {k : β → Cycles α} (h : ∀ x, (k x).Results P) : (p >>= k).Results P := by
  show (p.bind k).Results P
  induction p with
  | done x => exact h x
  | read addr next ih => exact ih
  | write addr v next ih => exact ih
  | bank next ih => exact ih
  | readExternal addr next ih => exact ih
  | writeExternal addr v next ih => exact ih

/-- Whatever the hooks do, the result is one of those that the program can have. -/
theorem of_yields {p : Cycles α} {a : α} (h : p.Results P) (hy : (Script.ofCycles p).Yields env b a b') : P a := by
  induction p generalizing b with
  | done x =>
    obtain ⟨rfl, -⟩ := Script.yields_pure.1 hy
    exact h
  | read addr next ih =>
    obtain ⟨x, _, -, hy⟩ := Script.yields_bind.1 hy
    exact ih x (h x) hy
  | write addr v next ih =>
    obtain ⟨_, _, -, hy⟩ := Script.yields_bind.1 hy
    exact ih h hy
  | bank next ih =>
    obtain ⟨x, _, -, hy⟩ := Script.yields_bind.1 hy
    exact ih x (h x) hy
  | readExternal addr next ih =>
    obtain ⟨x, _, -, hy⟩ := Script.yields_bind.1 hy
    exact ih x (h x) hy
  | writeExternal addr v next ih =>
    obtain ⟨_, _, -, hy⟩ := Script.yields_bind.1 hy
    exact ih h hy

end Cycles.Results

end Micro8051
