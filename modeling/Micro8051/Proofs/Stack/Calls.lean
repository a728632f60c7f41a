/-
Calls and returns are pushes and pops. A call leaves the memories as two pushes of the bytes of its
return address do, and a return leaves them as two pops do, up to the cells that the pops fill. This
holds wherever the stack pointer is, also where the stack runs over the stack pointer itself.

The pushes and pops are compared as functions of internal memory (`Memory.pushed`, `Memory.popped`):
what remains are stores to different cells, which change places.
-/
import Micro8051.Proofs.Observers.Harmless
import Micro8051.Proofs.Stack.Refinement

namespace Micro8051

/-! ## Memories -/

namespace Memory

variable (m : Internal) (a v : UInt8)

/-- The byte that the stack pointer addresses. -/
def top : UInt8 := m.get (m.get Sfr.sp)

/-- The memory after a byte is pushed. The stack pointer is moved first, so the byte takes its place
where it would point at itself. -/
def pushed : Internal := (m.set Sfr.sp (m.get Sfr.sp + 1)).set (m.get Sfr.sp + 1) v

/-- The memory after the top is popped. -/
def popped : Internal := m.set Sfr.sp (m.get Sfr.sp - 1)

variable {m a v} {x y : UInt8}

/-- Stores to different cells change places. -/
theorem set_comm (h : x ≠ y) (u : UInt8) : (m.set x u).set y v = (m.set y v).set x u := by
  refine ext_get fun c => ?_
  simp only [get_set]
  by_cases hx : c = x
  · rw [if_pos hx, if_pos hx, if_neg (fun hy => h (hx.symm.trans hy))]
  · rw [if_neg hx, if_neg hx]

theorem get_pushed (hsp : a ≠ Sfr.sp) (hslot : a ≠ m.get Sfr.sp + 1) : (m.pushed v).get a = m.get a := by
  rw [pushed, get_set_ne _ hslot, get_set_ne _ hsp]

theorem get_sp_set (h : x ≠ Sfr.sp) : (m.set x v).get Sfr.sp = m.get Sfr.sp := get_set_ne m h.symm v

/-- A store off the stack pointer comes before or after a pop. -/
theorem popped_set (h : x ≠ Sfr.sp) : (m.set x v).popped = m.popped.set x v := by
  rw [popped, get_sp_set h, set_comm h, popped]

/-- A store below the top shows when the top is popped, and no other does. -/
theorem top_popped_set (h : x ≠ Sfr.sp) (hx : x ≠ m.get Sfr.sp - 1) :
    (m.popped.set x v).top = m.popped.top := by
  have hsp : m.popped.get Sfr.sp = m.get Sfr.sp - 1 := get_set_self ..
  rw [top, get_sp_set h, hsp, get_set_ne _ hx.symm, top, hsp]

end Memory

/-! ## Instructions -/

section Cycles

variable (c : Chip) (next : UInt16) {a x : UInt8}

theorem data_onChip_lcall (hi lo : UInt8) : ((Instr.cycles next (.lcall hi lo)).onChip c).2.data =
    (c.data.pushed (lowByte next)).pushed (highByte next) := rfl

theorem onChip_ret_popped : (Instr.cycles next .ret).onChip c =
    (word c.data.top c.data.popped.top, { c with data := c.data.popped.popped }) := rfl

/-- A push reads its cell after the stack pointer has moved, which only the stack pointer shows. -/
theorem data_onChip_pushCell (ha : a ≠ Sfr.sp) : ((Instr.cycles next (.push a)).onChip c).2.data =
    c.data.pushed (c.data.get a) := by
  change (c.data.set Sfr.sp _).set _ ((c.data.set Sfr.sp (c.data.get Sfr.sp + 1)).get a) = _
  rw [Memory.get_set_ne _ ha, Memory.pushed]

/-- A pop fills its cell and then looks at the stack pointer again. -/
theorem data_onChip_popCell (hx : x ≠ Sfr.sp) : ((Instr.cycles next (.pop x)).onChip c).2.data =
    c.data.popped.set x c.data.top :=
  Memory.popped_set (m := c.data) (v := c.data.top) hx

end Cycles

/-! ## On the chip -/

namespace Chip

variable {c : Chip} {a h x y t u : UInt8} {call ret d₁ d₂ : Decoded}

theorem data_execute (c : Chip) (d : Decoded) : (c.execute d).data = ((d.instr.cycles d.next).onChip c).2.data := rfl

/-- Both pushes find the bytes of the return address, since the first one leaves the second cell as
it is. -/
theorem data_execute_pushes (hcall : call.instr = .lcall t u) (h₁ : d₁.instr = .push a) (h₂ : d₂.instr = .push h)
    (ha : a ≠ Sfr.sp) (hh : h ≠ Sfr.sp) (hslot : h ≠ c.data.get Sfr.sp + 1)
    (hlo : c.data.get a = lowByte call.next) (hhi : c.data.get h = highByte call.next) :
    ((c.execute d₁).execute d₂).data = (c.execute call).data := by
  have hfirst : (c.execute d₁).data = c.data.pushed (lowByte call.next) := by
    rw [data_execute, h₁, data_onChip_pushCell c _ ha, hlo]
  have hkept : (c.execute d₁).data.get h = highByte call.next := by
    rw [hfirst, Memory.get_pushed hh hslot, hhi]
  calc ((c.execute d₁).execute d₂).data
      = (c.execute d₁).data.pushed ((c.execute d₁).data.get h) := by
        rw [data_execute, h₂, data_onChip_pushCell _ _ hh]
    _ = (c.data.pushed (lowByte call.next)).pushed (highByte call.next) := by rw [hkept, hfirst]
    _ = (c.execute call).data := by rw [data_execute, hcall, data_onChip_lcall]

/-- The pops fill their cells with the bytes that a return jumps to, and change nothing else than the
return does. -/
theorem data_execute_pops (hret : ret.instr = .ret) (h₁ : d₁.instr = .pop x) (h₂ : d₂.instr = .pop y)
    (hx : x ≠ Sfr.sp) (hy : y ≠ Sfr.sp) (hslot : x ≠ c.data.get Sfr.sp - 1) :
    ((c.execute d₁).execute d₂).data =
      ((c.execute ret).data.set x c.data.top).set y c.data.popped.top := by
  have hfirst : (c.execute d₁).data = c.data.popped.set x c.data.top := by
    rw [data_execute, h₁, data_onChip_popCell c _ hx]
  calc ((c.execute d₁).execute d₂).data
      = (c.execute d₁).data.popped.set y (c.execute d₁).data.top := by
        rw [data_execute, h₂, data_onChip_popCell _ _ hy]
    _ = (c.data.popped.popped.set x c.data.top).set y c.data.popped.top := by
        rw [hfirst, Memory.popped_set hx, Memory.top_popped_set hx hslot]
    _ = ((c.execute ret).data.set x c.data.top).set y c.data.popped.top := by
        rw [data_execute, hret, onChip_ret_popped]

theorem pc_execute_ret (hret : ret.instr = .ret) : (c.execute ret).pc = word c.data.top c.data.popped.top := by
  change ((ret.instr.cycles ret.next).onChip c).1 = _
  rw [hret, onChip_ret_popped]

/-- The stack is in internal memory. -/
theorem xdata_execute_of_stack {d : Decoded} (hd : d.instr.pushed ≠ 0 ∨ d.instr.popped ≠ 0) :
    (c.execute d).xdata = c.xdata := by
  change ((d.instr.cycles d.next).onChip c).2.xdata = c.xdata
  cases hi : d.instr with
  | lcall hb lb => rfl
  | ret => rfl
  | push a => rfl
  | pop a => rfl
  | _ => simp [hi, Instr.pushed, Instr.popped] at hd

end Chip

/-! ## On the machine -/

section Machine

variable {κ σ : Type} {b : Bench κ σ}

theorem yields_execute_pair (env : Environment κ σ)
    (hhooks : ∀ s : Slot, s.isHook → b.machine.registry.callbacks s = []) (d₁ d₂ : Decoded) :
    ∃ b', (do Script.execute d₁; Script.execute d₂).Yields env b () b' ∧
      b'.machine.chip = (b.machine.chip.execute d₁).execute d₂ := by
  obtain ⟨b₁, hy₁, hc₁, hb₁⟩ := Script.yields_execute_of_no_hooks env hhooks d₁
  obtain ⟨b₂, hy₂, hc₂, -⟩ := Script.yields_execute_of_no_hooks env hb₁ d₂
  refine ⟨b₂, Script.yields_bind.2 ⟨(), b₁, hy₁, hy₂⟩, ?_⟩
  rw [hc₂, hc₁]

/-- Calls and returns agree with pushes and pops on every machine without hooks, whatever its stack
pointer is. If two direct cells hold the bytes of the return address of a call, pushing the cells
leaves the same memories as the call does; the cells are not the stack pointer, and the second one is
not the cell that the first push writes. Two pops into different direct cells leave the same memories
as a return does, up to these cells, which then hold the address that the return jumps to; the cells
are not the stack pointer, and the first one is not the cell that the second pop reads. -/
theorem calls_agree_with_pushes (env : Environment κ σ)
    (hhooks : ∀ s : Slot, s.isHook → b.machine.registry.callbacks s = []) :
    (∀ {call d₁ d₂ : Decoded} {t u lo hi : UInt8}, call.instr = .lcall t u →
      d₁.instr = .push lo → d₂.instr = .push hi → lo ≠ Sfr.sp → hi ≠ Sfr.sp →
      hi ≠ b.machine.chip.data.get Sfr.sp + 1 →
      b.machine.chip.data.get lo = lowByte call.next → b.machine.chip.data.get hi = highByte call.next →
      ∃ called pushed : Bench κ σ, (Script.execute call).Yields env b () called ∧
        (do Script.execute d₁; Script.execute d₂).Yields env b () pushed ∧
        pushed.machine.chip.data = called.machine.chip.data ∧
        pushed.machine.chip.xdata = called.machine.chip.xdata) ∧
    (∀ {ret d₁ d₂ : Decoded} {x y : UInt8}, ret.instr = .ret → d₁.instr = .pop x → d₂.instr = .pop y →
      x ≠ Sfr.sp → y ≠ Sfr.sp → x ≠ y → x ≠ b.machine.chip.data.get Sfr.sp - 1 →
      ∃ returned popped : Bench κ σ, (Script.execute ret).Yields env b () returned ∧
        (do Script.execute d₁; Script.execute d₂).Yields env b () popped ∧
        (∀ a, a ≠ x → a ≠ y → popped.machine.chip.data.get a = returned.machine.chip.data.get a) ∧
        popped.machine.chip.xdata = returned.machine.chip.xdata ∧
        returned.machine.chip.pc.toNat =
          256 * (popped.machine.chip.data.get x).toNat + (popped.machine.chip.data.get y).toNat) := by
  constructor
  · intro call d₁ d₂ t u lo hi hcall h₁ h₂ hlo hhi hslot hl hh
    obtain ⟨called, hy, hc, -⟩ := Script.yields_execute_of_no_hooks env hhooks call
    obtain ⟨pushed, hy', hc'⟩ := yields_execute_pair env hhooks d₁ d₂
    refine ⟨called, pushed, hy, hy', ?_, ?_⟩
    · rw [hc', hc, Chip.data_execute_pushes hcall h₁ h₂ hlo hhi hslot hl hh]
    · rw [hc', hc, Chip.xdata_execute_of_stack (by simp [h₂, Instr.pushed]),
        Chip.xdata_execute_of_stack (by simp [h₁, Instr.pushed]),
        Chip.xdata_execute_of_stack (by simp [hcall, Instr.pushed])]
  · intro ret d₁ d₂ x y hret h₁ h₂ hx hy hxy hslot
    obtain ⟨returned, hyr, hc, -⟩ := Script.yields_execute_of_no_hooks env hhooks ret
    obtain ⟨popped, hyp, hc'⟩ := yields_execute_pair env hhooks d₁ d₂
    have hdata : popped.machine.chip.data = (returned.machine.chip.data.set x b.machine.chip.data.top).set y
        b.machine.chip.data.popped.top := by
      rw [hc', hc, Chip.data_execute_pops hret h₁ h₂ hx hy hslot]
    refine ⟨returned, popped, hyr, hyp, fun a hax hay => ?_, ?_, ?_⟩
    · rw [hdata, Memory.get_set_ne _ hay, Memory.get_set_ne _ hax]
    · rw [hc', hc, Chip.xdata_execute_of_stack (by simp [h₂, Instr.popped]),
        Chip.xdata_execute_of_stack (by simp [h₁, Instr.popped]),
        Chip.xdata_execute_of_stack (by simp [hret, Instr.popped])]
    · rw [hdata, Memory.get_set_ne _ hxy, Memory.get_set_self, Memory.get_set_self, hc,
        Chip.pc_execute_ret hret, toNat_word]

/-- A chip on whose next push the stack reaches the stack pointer. The cells `30` and `31` hold the
address after `callAt1234`. -/
def brimChip : Chip :=
  ((Chip.new Pacer.period1MHz {}).setData Sfr.sp 0x80).setData 0x30 0x37 |>.setData 0x31 0x12

def callAt1234 : Decoded := ⟨0x1234, ⟨0x12, 3, "LCALL", .lcall .first .second⟩, 0x00, 0x06⟩

def pushCell (a : UInt8) : Decoded := ⟨0, ⟨0xC0, 2, "PUSH", .push .first⟩, a, 0⟩

def popCell (a : UInt8) : Decoded := ⟨0, ⟨0xD0, 2, "POP", .pop .first⟩, a, 0⟩

def returnAt0 : Decoded := ⟨0, ⟨0x22, 1, "RET", .ret⟩, 0, 0⟩

theorem calls_agree_with_pushes_at_brim :
    (∃ called pushed, (Script.execute callAt1234).Yields .idle (.bare brimChip) () called ∧
      (do Script.execute (pushCell 0x30); Script.execute (pushCell 0x31)).Yields .idle (.bare brimChip) () pushed ∧
      pushed.machine.chip.data = called.machine.chip.data ∧
      pushed.machine.chip.xdata = called.machine.chip.xdata) ∧
    ∃ returned popped, (Script.execute returnAt0).Yields .idle (.bare brimChip) () returned ∧
      (do Script.execute (popCell 0x30); Script.execute (popCell 0x31)).Yields .idle (.bare brimChip) () popped ∧
      (∀ a, a ≠ 0x30 → a ≠ 0x31 → popped.machine.chip.data.get a = returned.machine.chip.data.get a) ∧
      popped.machine.chip.xdata = returned.machine.chip.xdata ∧
      returned.machine.chip.pc.toNat =
        256 * (popped.machine.chip.data.get 0x30).toNat + (popped.machine.chip.data.get 0x31).toNat := by
  have hsp : brimChip.data.get Sfr.sp = 0x80 := by decide +kernel
  have hlo : brimChip.data.get 0x30 = lowByte callAt1234.next := by decide +kernel
  have hhi : brimChip.data.get 0x31 = highByte callAt1234.next := by decide +kernel
  obtain ⟨hcall, hret⟩ := calls_agree_with_pushes (b := Bench.bare brimChip) .idle fun _ _ => rfl
  refine ⟨hcall rfl rfl rfl (by decide) (by decide) ?_ hlo hhi,
    hret rfl rfl rfl (by decide) (by decide) (by decide) ?_⟩
  · rw [show (Bench.bare brimChip).machine.chip.data.get Sfr.sp = 0x80 from hsp]
    decide
  · rw [show (Bench.bare brimChip).machine.chip.data.get Sfr.sp = 0x80 from hsp]
    decide

end Machine

end Micro8051
