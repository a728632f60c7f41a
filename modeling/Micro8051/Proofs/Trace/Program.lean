/-
What is taken from program memory. Executing an instruction uses no operand byte beyond the length that the table
gives for it (`Row.map_pattern_congr`), and a step looks at program memory once, to fetch the instruction. So where
the callbacks leave program memory alone, a step depends on the bytes of the instruction and on no others.

A machine with another image is taken through a step moment by moment: what is left of the step once the instruction
is fetched looks at everything but the image, and so do the callbacks.
-/
import Micro8051.Proofs.Bench.Orderly
import Micro8051.Proofs.Image.Fetch
import Micro8051.Proofs.Instr.Addressing
import Micro8051.Proofs.Moment.Returning

namespace Micro8051

variable {κ σ α β : Type} {env : Environment κ σ} {b : Bench κ σ} {image : Image}

/-! ## Scripts that go the same way -/

/-- The callbacks that begin to run in the first moments, with the events that they are told of. -/
def Moment.calls (env : Environment κ σ) (M : Moment κ σ α) : Nat → List (Occasion × Callback κ)
  | 0 => []
  | k + 1 => M.calls env k ++ (M.after env k).told?.toList

/-- On `f b` the script `s'` goes the way of `s` on `b`: at each moment the bench is the same but for `f`, the same
callbacks are called in the same order, and the outcome is the same but for `f`. -/
structure Script.Follows (env : Environment κ σ) (f : Bench κ σ → Bench κ σ) (b : Bench κ σ) (s' s : Script κ σ α) :
    Prop where
  benches : ∀ k, ((Moment.start s' (f b)).after env k).bench = f ((Moment.start s b).after env k).bench
  calls : ∀ k, (Moment.start s' (f b)).calls env k = (Moment.start s b).calls env k
  outcome : ∀ x b₁, s'.Yields env (f b) x b₁ ↔ ∃ b', s.Yields env b x b' ∧ f b' = b₁
  /-- There is an outcome if the callbacks return. -/
  ends : (Moment.start s b).Returning env → ∃ x b', s.Yields env b x b'

/-! ## Operand bytes -/

/-- Two instructions of the same row of the table at the same address, with operand bytes that are the same as far as
the row says that there are any. -/
structure Decoded.SameBytes (d d' : Decoded) : Prop where
  implemented : Row.of? d.row.opcode = some d.row
  pc : d'.pc = d.pc
  row : d'.row = d.row
  first : 1 < d.row.length → d.first = d'.first
  second : 2 < d.row.length → d.second = d'.second

namespace Decoded.SameBytes

variable {d d' : Decoded}

theorem instr (h : d.SameBytes d') : d'.instr = d.instr := by
  unfold Decoded.instr
  rw [h.row]
  exact (Row.map_pattern_congr h.implemented h.first h.second).symm

theorem next (h : d.SameBytes d') : d'.next = d.next := by
  rw [Decoded.next, h.pc, h.row, ← Decoded.next]

theorem operandText (h : d.SameBytes d') : d'.operandText = d.operandText := by
  rw [Decoded.operandText, h.instr, h.next, ← Decoded.operandText]

theorem bytes (h : d.SameBytes d') : d'.bytes = d.bytes := by
  obtain ⟨hpos, hle⟩ := Row.length_of_of? h.implemented
  have hfirst := h.first
  have hsecond := h.second
  unfold Decoded.bytes
  rw [h.row]
  obtain hl | hl | hl : d.row.length = 1 ∨ d.row.length = 2 ∨ d.row.length = 3 := by omega
  · rw [hl]
    rfl
  · rw [hl, hfirst (by omega)]
    rfl
  · rw [hfirst (by omega), hsecond (by omega)]

theorem execute (h : d.SameBytes d') : (Script.execute d' : Script κ σ Unit) = Script.execute d := by
  unfold Script.execute Decoded.cycles
  rw [h.instr, h.next]

theorem follows (h : d.SameBytes d') (env : Environment κ σ) (b : Bench κ σ) :
    (Script.execute d').Follows env id b (Script.execute d) := by
  rw [h.execute]
  refine ⟨fun _ => rfl, fun _ => rfl, fun x b₁ => ⟨fun hy => ⟨b₁, hy, rfl⟩, ?_⟩, fun hr => ?_⟩
  · rintro ⟨b', hy, rfl⟩
    exact hy
  · exact exists_yields_of_returning (Script.noRuns_suffices.execute d) hr

end Decoded.SameBytes

/-! ## Other images -/

/-- The machine with another image in program memory. -/
def Machine.load (image : Image) (m : Machine κ) : Machine κ := m.onChip fun c => c.load image

def Bench.load (image : Image) (b : Bench κ σ) : Bench κ σ := { b with machine := b.machine.load image }

def Moment.load (image : Image) (M : Moment κ σ α) : Moment κ σ α := ⟨M.role, M.script, M.stack, M.bench.load image⟩

/-- A change that neither depends on program memory nor affects it. -/
def Act.IgnoresCode : Act κ σ → Prop
  | .edit f => ∀ c image, f (c.load image) = (f c).load image
  | _ => True

theorem Act.IgnoresCode.apply_load {a : Act κ σ} (h : a.IgnoresCode) (image : Image) (b : Bench κ σ) :
    a.apply (b.load image) = (a.apply b).load image := by
  cases a with
  | edit f => simp only [apply, Bench.load, Machine.load, Machine.onChip, h b.machine.chip image]
  | _ => rfl

namespace Script

/-- A script that neither looks at program memory nor replaces it, and starts no run. A step is no such script, as it
fetches an instruction. -/
def IgnoresCode : Script κ σ α → Prop
  | .done _ => True
  | .look next => ∀ m w, (∀ image, next (m.load image) w = next m w) ∧ (next m w).IgnoresCode
  | .act a next => a.IgnoresCode ∧ next.IgnoresCode
  | .call c next => (∀ m, c ≠ .loop m) ∧ ∀ x, (next x).IgnoresCode

namespace IgnoresCode

theorem pure (a : α) : (Pure.pure a : Script κ σ α).IgnoresCode := trivial

theorem bind {s : Script κ σ α} {k : α → Script κ σ β} (h : s.IgnoresCode) (hk : ∀ a, (k a).IgnoresCode) :
    (s >>= k).IgnoresCode := by
  rw [bind_eq_bind]
  induction s with
  | done a => exact hk a
  | look next ih =>
    exact fun m w => ⟨fun image => congrArg (fun s => s.bind k) ((h m w).1 image), ih m w (h m w).2⟩
  | act a next ih => exact ⟨h.1, ih h.2⟩
  | call c next ih => exact ⟨h.1, fun x => ih x (h.2 x)⟩

theorem chip {f : Chip → α} (h : ∀ c image, f (c.load image) = f c) : (Script.chip f : Script κ σ α).IgnoresCode :=
  fun m _ => ⟨fun image => congrArg Script.done (h m.chip image), trivial⟩

theorem edit {f : Chip → Chip} (h : ∀ c image, f (c.load image) = (f c).load image) :
    (Script.edit f : Script κ σ Unit).IgnoresCode :=
  ⟨h, trivial⟩

theorem report (r : Record) : (Script.report r : Script κ σ Unit).IgnoresCode := ⟨trivial, trivial⟩

theorem serve (o : Occasion) : (Script.serve o : Script κ σ Unit).IgnoresCode := ⟨by rintro m ⟨⟩, fun _ => trivial⟩

/-! ## What machines do -/

theorem read (addr : UInt8) : (Script.read addr : Script κ σ UInt8).IgnoresCode :=
  (chip fun _ _ => rfl).bind fun v => (serve _).bind fun _ => .pure v

theorem write (addr v : UInt8) : (Script.write addr v : Script κ σ Unit).IgnoresCode :=
  (chip fun _ _ => rfl).bind fun _ => (serve _).bind fun _ => edit fun _ _ => rfl

theorem ofCycles (p : Cycles α) : (Script.ofCycles p : Script κ σ α).IgnoresCode := by
  induction p with
  | done a => exact .pure a
  | read addr next ih => exact (read addr).bind ih
  | write addr v next ih => exact (write addr v).bind fun _ => ih
  | bank next ih => exact (chip fun _ _ => rfl).bind ih
  | readExternal addr next ih => exact (chip fun _ _ => rfl).bind ih
  | writeExternal addr v next ih => exact (edit fun _ _ => rfl).bind fun _ => ih

theorem execute (d : Decoded) : (Script.execute d : Script κ σ Unit).IgnoresCode :=
  (ofCycles d.cycles).bind fun _ => edit fun _ _ => rfl

theorem visit (pc : UInt16) : (Script.visit pc : Script κ σ Unit).IgnoresCode := by
  refine fun m w => ⟨fun image => rfl, ?_⟩
  dsimp only [Script.bind]
  split
  · exact (report _).bind fun _ => serve _
  · exact serve _

theorem afterVisit (pc : UInt16) (d : Decoded) :
    (Script.afterVisit pc d : Script κ σ (Except Fault Unit)).IgnoresCode := by
  refine (chip fun _ _ => rfl).bind fun now => ?_
  dsimp only
  split
  · exact (report _).bind fun _ => (execute d).bind fun _ => (edit fun _ _ => rfl).bind fun _ => .pure _
  · exact (report _).bind fun _ => .pure _

end IgnoresCode

end Script

/-- Callbacks that neither look at program memory nor replace it, and start no steps and no runs. -/
def Environment.IgnoresCode (env : Environment κ σ) : Prop := ∀ c o, (env.respond c o).IgnoresCode

theorem Environment.IgnoresCode.respond (h : env.IgnoresCode) (c : Callback κ) (o : Occasion) :
    (c.respond env o).IgnoresCode := by
  cases c with
  | custom c => exact h c o
  | latch r =>
    cases o with
    | writing addr old new => exact (Script.IgnoresCode.chip fun _ _ => rfl).bind fun _ => .report _
    | _ => exact .pure ()

/-! ## From moment to moment -/

/-- Nothing but callbacks is suspended, and what goes on after them ignores program memory. -/
def Stack.IgnoresCode : {r : Role} → Stack κ σ α r → Prop
  | _, .base => True
  | _, .telling _ _ next below => next.IgnoresCode ∧ below.IgnoresCode
  | _, .checking .. | _, .stepping .. => False

namespace Moment

/-- What is left to do at this moment ignores program memory. -/
structure IgnoresCode (M : Moment κ σ α) : Prop where
  script : M.script.IgnoresCode
  stack : M.stack.IgnoresCode

variable {r : Role} {M : Moment κ σ α}

theorem told?_load (image : Image) (M : Moment κ σ α) : (M.load image).told? = M.told? := by
  obtain ⟨r, s, stack, b⟩ := M
  cases s with
  | look next => rfl
  | act a next => rfl
  | call c next => cases c <;> rfl
  | done x =>
    cases stack with
    | telling o cs next below => cases cs <;> rfl
    | _ => rfl

theorem tell_load (env : Environment κ σ) (image : Image) (o : Occasion) (cs : List (Callback κ))
    (next : Script κ σ (r.Result α)) (below : Stack κ σ α r) (b : Bench κ σ) :
    tell env o cs next below (b.load image) = (tell env o cs next below b).load image := by
  cases cs <;> rfl

theorem serve_load (env : Environment κ σ) (image : Image) (o : Occasion) (next : Script κ σ (r.Result α))
    (below : Stack κ σ α r) (b : Bench κ σ) :
    serve env o next below (b.load image) = (serve env o next below b).load image := by
  by_cases hc : b.machine.registry.callbacks o.slot = []
  · have hc' : (b.load image).machine.registry.callbacks o.slot = [] := hc
    rw [serve_of_nil hc, serve_of_nil hc']
    rfl
  · have hc' : (b.load image).machine.registry.callbacks o.slot ≠ [] := hc
    rw [serve_of_ne_nil hc, serve_of_ne_nil hc']
    exact tell_load env image o _ next below { b with machine := b.machine.onRegistry fun g => g.enter o.slot }

theorem tell_ignoresCode (henv : env.IgnoresCode) (o : Occasion) (cs : List (Callback κ))
    {next : Script κ σ (r.Result α)} {below : Stack κ σ α r} (hnext : next.IgnoresCode) (hbelow : below.IgnoresCode)
    (b : Bench κ σ) : (tell env o cs next below b).IgnoresCode := by
  cases cs with
  | nil => exact ⟨hnext, hbelow⟩
  | cons c rest => exact ⟨henv.respond c o, hnext, hbelow⟩

theorem serve_ignoresCode (henv : env.IgnoresCode) (o : Occasion) {next : Script κ σ (r.Result α)}
    {below : Stack κ σ α r} (hnext : next.IgnoresCode) (hbelow : below.IgnoresCode) (b : Bench κ σ) :
    (serve env o next below b).IgnoresCode := by
  by_cases hc : b.machine.registry.callbacks o.slot = []
  · rw [serve_of_nil hc]
    exact ⟨hnext, hbelow⟩
  · rw [serve_of_ne_nil hc]
    exact tell_ignoresCode henv o _ hnext hbelow _

/-- The next moment is the same on a machine with another image. -/
theorem IgnoresCode.advance_load (env : Environment κ σ) (h : M.IgnoresCode) (image : Image) :
    (M.load image).advance env = (M.advance env).map (Moment.load image) := by
  obtain ⟨r, s, stack, b⟩ := M
  obtain ⟨hs, hstack⟩ := h
  cases s with
  | look next =>
    exact congrArg (fun s => some (⟨r, s, stack, b.load image⟩ : Moment κ σ α)) ((hs b.machine b.world).1 image)
  | act a next =>
    exact congrArg (fun b => some (⟨r, next, stack, b⟩ : Moment κ σ α)) (hs.1.apply_load image b)
  | call c next =>
    cases c with
    | loop m => exact absurd rfl (hs.1 m)
    | serve o => exact congrArg some (serve_load env image o (next ()) stack b)
  | done x =>
    cases stack with
    | base => rfl
    | telling o cs next below => exact congrArg some (tell_load env image o cs next below b)
    | checking g next below => exact hstack.elim
    | stepping m next below => exact hstack.elim

theorem IgnoresCode.advance (henv : env.IgnoresCode) (h : M.IgnoresCode) {M' : Moment κ σ α}
    (hM : M.advance env = some M') : M'.IgnoresCode := by
  obtain ⟨r, s, stack, b⟩ := M
  obtain ⟨hs, hstack⟩ := h
  cases s with
  | look next =>
    cases hM
    exact ⟨(hs b.machine b.world).2, hstack⟩
  | act a next =>
    cases hM
    exact ⟨hs.2, hstack⟩
  | call c next =>
    cases c with
    | loop m => exact absurd rfl (hs.1 m)
    | serve o =>
      cases hM
      exact serve_ignoresCode henv o (hs.2 ()) hstack b
  | done x =>
    cases stack with
    | base => cases hM
    | telling o cs next below =>
      cases hM
      exact tell_ignoresCode henv o cs hstack.1 hstack.2 b
    | checking g next below => exact hstack.elim
    | stepping m next below => exact hstack.elim

theorem IgnoresCode.after (henv : env.IgnoresCode) (h : M.IgnoresCode) (image : Image) (k : Nat) :
    (M.load image).after env k = (M.after env k).load image ∧ (M.after env k).IgnoresCode := by
  induction k with
  | zero => exact ⟨rfl, h⟩
  | succ k ih =>
    obtain ⟨hload, hk⟩ := ih
    rw [Moment.after, Moment.after, hload, hk.advance_load env image]
    cases hM : (M.after env k).advance env with
    | none => exact ⟨rfl, hk⟩
    | some M' => exact ⟨rfl, hk.advance henv hM⟩

/-- A script whose moments are the same on a machine with another image. -/
theorem follows_of_after {s : Script κ σ α}
    (h : ∀ k, (start s (b.load image)).after env k = ((start s b).after env k).load image)
    (hends : (start s b).Returning env → ∃ x b', s.Yields env b x b') :
    s.Follows env (Bench.load image) b s where
  benches k := congrArg Moment.bench (h k)
  calls k := by
    induction k with
    | zero => rfl
    | succ k ih => rw [calls, calls, ih, h k, told?_load]
  outcome x b₁ := by
    simp only [yields_iff_reaches, reaches_iff_exists_after, h]
    constructor
    · rintro ⟨k, hk⟩
      generalize hM : (start s b).after env k = M at hk
      obtain ⟨r, s', stack, b'⟩ := M
      cases hk
      exact ⟨b', ⟨k, hM⟩, rfl⟩
    · rintro ⟨b', ⟨k, hk⟩, rfl⟩
      exact ⟨k, congrArg (Moment.load image) hk⟩
  ends := hends

end Moment

/-! ## Steps -/

/-- The first two moments of a step fetch the instruction. -/
theorem Script.after_step {d : Decoded} (h : fetch b.machine.chip.code b.machine.chip.pc = .ok d) (k : Nat) :
    (Moment.start step b).after env (k + 2) =
      (Moment.start (visit b.machine.chip.pc >>= fun _ => afterVisit b.machine.chip.pc d) b).after env k := by
  have hcounter : (Moment.start step b).advance env = some (Moment.start (stepAt b.machine.chip.pc) b) := rfl
  have hlook : (Moment.start (stepAt b.machine.chip.pc) b).advance env =
      some (Moment.start (visit b.machine.chip.pc >>= fun _ => afterVisit b.machine.chip.pc d) b) := by
    refine congrArg (fun s => some (Moment.start s b)) ?_
    simp only [h]
    rfl
  rw [Moment.after_succ env hcounter, Moment.after_succ env hlook]

/-- The moments of a step are the same with another image that has the same instruction at the program counter. -/
theorem Script.after_step_load (henv : env.IgnoresCode) {d : Decoded}
    (h : fetch b.machine.chip.code b.machine.chip.pc = .ok d) (h' : fetch image b.machine.chip.pc = .ok d) (k : Nat) :
    (Moment.start step (b.load image)).after env k = ((Moment.start step b).after env k).load image := by
  match k with
  | 0 => rfl
  | 1 => rfl
  | k + 2 =>
    have hrest : (Moment.start (visit b.machine.chip.pc >>= fun _ => afterVisit b.machine.chip.pc d) b).IgnoresCode :=
      ⟨(IgnoresCode.visit _).bind fun _ => IgnoresCode.afterVisit _ d, trivial⟩
    rw [after_step h, after_step (b := b.load image) (d := d) h']
    exact (hrest.after henv image k).1

/-- Take an environment and a machine. An instruction of the table is the same, printed and executed, whatever operand
bytes are beyond the length that the table gives for it: it has the same text, the same bytes and the same successor,
and executing it goes the same way, whatever the callbacks do. If the callbacks leave program memory alone, then a
step goes the same way with any other image that has the bytes of the instruction at the program counter. -/
theorem length_covers_what_is_used (env : Environment κ σ) (b : Bench κ σ) :
    (∀ d d' : Decoded, d.SameBytes d' →
      d'.operandText = d.operandText ∧ d'.bytes = d.bytes ∧ d'.next = d.next ∧
        (Script.execute d').Follows env id b (Script.execute d)) ∧
    (env.IgnoresCode → ∀ d image, fetch b.machine.chip.code b.machine.chip.pc = .ok d →
      (∀ i < d.row.length, image[b.machine.chip.pc.toNat + i]? = b.machine.chip.code[b.machine.chip.pc.toNat + i]?) →
      Script.step.Follows env (Bench.load image) b Script.step) := by
  refine ⟨fun d d' h => ⟨h.operandText, h.bytes, h.next, h.follows env b⟩, fun henv d image hd hsame => ?_⟩
  obtain ⟨hpos, -, hle⟩ := length_of_fetch hd
  have hsize : b.machine.chip.pc.toNat + d.row.length ≤ image.size := by
    -- the last byte of the instruction is in this image as well
    have hlast := hsame (d.row.length - 1) (by omega)
    rw [Array.getElem?_eq_getElem (by omega : b.machine.chip.pc.toNat + (d.row.length - 1) < b.machine.chip.code.size)]
      at hlast
    have := (Array.getElem?_eq_some_iff.1 hlast).1
    omega
  have hd' : fetch image b.machine.chip.pc = .ok d := by
    refine fetch_congr hd hsize fun i hi hlt => ?_
    have := hsame (i - b.machine.chip.pc.toNat) (by omega)
    rwa [Nat.add_sub_cancel' hi] at this
  refine Moment.follows_of_after (Script.after_step_load henv hd hd') fun hr => ?_
  exact exists_yields_of_returning (Script.noRuns_suffices.step trivial) hr

/-- A callback that copies a cell to the next one. -/
def copying : Environment Unit Unit where
  respond _ _ := do
    let v ← Script.chip fun c => c.data.get 0x30
    Script.edit fun c => c.setData 0x31 v
  holds _ := return true

/-- Increments a cell. The operand byte behind its address does not belong to the instruction. -/
def incrementCell (behind : UInt8) : Decoded := ⟨0, ⟨0x05, 2, "INC", .inc (.direct .first)⟩, 0x30, behind⟩

/-- A machine at this instruction, with a breakpoint there and a hook for reads of the cell. -/
def copyingBench : Bench Unit Unit where
  machine := { chip := ((Chip.new Pacer.period1MHz {}).load #[0x05, 0x30, 0x99]).setData 0x30 5
               registry := { waiting := [(.visit 0, .custom ()), (.read 0x30, .custom ())] } }
  world := ()

/-- A step on this machine is the same if the image ends with the instruction, and the byte behind it could be any
other one. -/
theorem length_covers_what_is_used_increment :
    (∃ b', Script.step.Yields copying copyingBench (.ok ()) b' ∧
      Script.step.Yields copying (copyingBench.load #[0x05, 0x30]) (.ok ()) (b'.load #[0x05, 0x30]) ∧
      b'.machine.chip.data.get 0x30 = 6 ∧ b'.machine.chip.data.get 0x31 = 5) ∧
    (incrementCell 0x99).operandText = (incrementCell 0).operandText ∧
    (Script.execute (incrementCell 0x99)).Follows copying id copyingBench (Script.execute (incrementCell 0)) := by
  obtain ⟨hdecoded, hsteps⟩ := length_covers_what_is_used copying copyingBench
  have hignores : copying.IgnoresCode :=
    fun _ _ => (Script.IgnoresCode.chip fun _ _ => rfl).bind fun _ => .edit fun _ _ => rfl
  have hstep := hsteps hignores (incrementCell 0) #[0x05, 0x30] rfl (by decide +kernel)
  have hrun : (Script.step.run copying 6 copyingBench).any (fun x =>
      x.1 = .ok () ∧ x.2.machine.chip.data.get 0x30 = 6 ∧ x.2.machine.chip.data.get 0x31 = 5) = true := by
    decide +kernel
  obtain ⟨⟨r, b'⟩, hb', hx⟩ := (Option.any_eq_true _ _).1 hrun
  obtain ⟨rfl, hcells⟩ := of_decide_eq_true hx
  have hy : Script.step.Yields copying copyingBench (.ok ()) b' := ⟨6, hb'⟩
  have hsame : (incrementCell 0).SameBytes (incrementCell 0x99) :=
    ⟨by decide, rfl, rfl, fun _ => rfl, fun h => absurd h (by decide)⟩
  obtain ⟨htext, -, -, hfollows⟩ := hdecoded _ _ hsame
  exact ⟨⟨b', hy, (hstep.outcome _ _).2 ⟨b', hy, rfl⟩, hcells⟩, htext, hfollows⟩

end Micro8051
