/-
A listing is a map of execution. If no line is a return and every printed target is the address of a
line, then a machine without callbacks that starts at a line stays on the lines, or stops at the end
of the image; the instruction it executes is always the one that the line shows.

The proof is an invariant of the program counter: it is at the address of a line or at the end of the
image. The next instruction is there because lines are adjacent, and the target of a jump is there
because the text of the line says so.
-/
import Micro8051.Proofs.Instr.Target
import Micro8051.Proofs.Listing.Walk
import Micro8051.Proofs.Machine.Unwatched

namespace Micro8051

/-- No line is a return, and the target that is printed on a jump or a call is the address of a
line. -/
structure Closed (ls : Array Line) : Prop where
  noReturn : ∀ l ∈ ls, l.mnemonic ≠ "RET"
  targets : ∀ l ∈ ls, l.mnemonic ∈ Instr.branches →
    ∃ l' ∈ ls, l.operands.bind Text.lastWord? = some l'.addr

/-- An address where a line begins or where the image ends. -/
def OnMap (image : Image) (ls : Array Line) (pc : UInt16) : Prop :=
  (∃ l ∈ ls, l.addr = pc) ∨ pc.toNat = image.size

variable {κ σ : Type} {image : Image} {ls : Array Line} {pc : UInt16}

/-! ## Lines and what follows them -/

/-- After a line there is another one, or the listing ends. -/
theorem Listed.after_of_mem {ls : List Line} {a e : Nat} (h : Listed image a ls e) {l : Line} (hl : l ∈ ls) :
    l.addr.toNat + l.bytes.length = e ∨ ∃ l' ∈ ls, l'.addr.toNat = l.addr.toNat + l.bytes.length := by
  induction h with
  | nil a => cases hl
  | @cons a e d ls hlt hf rest ih =>
    rcases List.mem_cons.1 hl with rfl | hl
    · have haddr : d.line.addr.toNat = a := (Listed.cons hlt hf rest).addr_of_cons
      have hlen : d.line.bytes.length = d.row.length := length_bytes_of_fetch hf
      rw [haddr, hlen]
      cases ls with
      | nil =>
        cases rest
        exact .inl rfl
      | cons l ls => exact .inr ⟨l, List.mem_cons_of_mem _ (List.mem_cons_self ..), rest.addr_of_cons⟩
    · obtain he | ⟨l', hl', ha⟩ := ih hl
      · exact .inl he
      · exact .inr ⟨l', List.mem_cons_of_mem _ hl', ha⟩

theorem fetch_of_line (hls : Image.lines image = .ok ls) (h : ∃ l ∈ ls, l.addr = pc) :
    ∃ d, fetch image pc = .ok d ∧ d.line ∈ ls := by
  obtain ⟨ls, e, rfl, hl, -⟩ := Image.linesFrom_eq_ok hls
  obtain ⟨l, hm, rfl⟩ := h
  obtain ⟨d, hf, rfl⟩ := hl.fetch_of_mem (by simpa using hm)
  exact ⟨d, hf, hm⟩

/-- The address after a line is on the map. After the last address of all comes the first line. -/
theorem onMap_next {d : Decoded} (hsize : image.size ≤ UInt16.size) (hls : Image.lines image = .ok ls)
    (hf : fetch image pc = .ok d) (hd : d.line ∈ ls) : OnMap image ls d.next := by
  obtain ⟨ls, e, rfl, hl, he⟩ := Image.linesFrom_eq_ok hls
  have hd : d.line ∈ ls := by simpa using hd
  have hend := hl.le_size (Nat.zero_le _)
  obtain rfl : e = image.size := by omega
  have hn : d.next.toNat = (pc.toNat + d.row.length) % UInt16.size := by
    rw [Decoded.next, pc_of_fetch hf, UInt16.toNat_add, UInt16.toNat_ofNat', UInt16.size]
    omega
  have haddr : d.line.addr = pc := pc_of_fetch hf
  have hlen : d.line.bytes.length = d.row.length := length_bytes_of_fetch hf
  obtain hlast | ⟨l, hm, hl'⟩ := hl.after_of_mem hd
  · rw [haddr, hlen] at hlast
    rw [hlast] at hn
    rcases hsize.lt_or_eq with hlt | heq
    · exact .inr (by rw [hn, Nat.mod_eq_of_lt hlt])
    · -- the image fills the address space: the next address is 0
      obtain ⟨l0, ls0, rfl⟩ := List.exists_cons_of_ne_nil (List.ne_nil_of_mem hd)
      have h0 : l0.addr.toNat = 0 := hl.addr_of_cons
      refine .inl ⟨l0, by simp, UInt16.toNat_inj.1 ?_⟩
      rw [h0, hn, heq, Nat.mod_self]
  · rw [haddr, hlen] at hl'
    refine .inl ⟨l, by simpa using hm, UInt16.toNat_inj.1 ?_⟩
    rw [hn, ← hl', Nat.mod_eq_of_lt l.addr.toNat_lt]

/-- Where a line leads is on the map: to the next line, or to the target that it shows. -/
theorem onMap_execute {c : Chip} {d : Decoded} (hsize : image.size ≤ UInt16.size)
    (hls : Image.lines image = .ok ls) (hc : Closed ls) (hf : fetch image pc = .ok d) (hd : d.line ∈ ls) :
    OnMap image ls (d.cycles.onChip c).1 := by
  have hmn : d.line.mnemonic = d.instr.mnemonic := mnemonic_of_fetch hf
  have hret : d.instr ≠ .ret := by
    intro h
    apply hc.noReturn d.line hd
    rw [hmn, h]
    rfl
  rcases Instr.pc_onChip d.next hret c with hpc | hpc
  · rw [Decoded.cycles, hpc]
    exact onMap_next hsize hls hf hd
  · obtain ⟨s, hs, ht⟩ := Instr.lastWord?_operandText hpc
    obtain ⟨l, hl, hl'⟩ := hc.targets d.line hd (hmn ▸ Instr.mnemonic_mem_branches.2 (Option.isSome_of_eq_some hpc))
    rw [show d.line.operands = some s from hs, Option.bind_some, ht, Option.some_inj] at hl'
    exact .inl ⟨l, hl, hl'.symm⟩

/-! ## Steps and runs -/

section Steps

variable {c : Chip}

/-- The outcome of a step on the map: the instruction of the line at the program counter has run, or
the program counter is at the end of the image. -/
theorem step_onMap (hls : Image.lines image = .ok ls) (hcode : c.code = image) (hpc : OnMap image ls c.pc) :
    (∃ d, fetch image c.pc = .ok d ∧ d.line ∈ ls ∧ c.step = .ok (c.execute d).count) ∨
      (c.pc.toNat = image.size ∧ c.step = .error (.outOfBounds c.pc image.size)) := by
  unfold Chip.step
  rw [hcode]
  rcases hpc with hl | hend
  · obtain ⟨d, hf, hd⟩ := fetch_of_line hls hl
    exact .inl ⟨d, hf, hd, by rw [hf]⟩
  · rw [fetch_of_size_le hend.ge]
    exact .inr ⟨hend, rfl⟩

theorem onMap_stepped (hsize : image.size ≤ UInt16.size) (hls : Image.lines image = .ok ls)
    (hc : Closed ls) (hcode : c.code = image) (hpc : OnMap image ls c.pc) :
    c.stepped.code = image ∧ OnMap image ls c.stepped.pc := by
  unfold Chip.stepped
  obtain ⟨d, hf, hd, hs⟩ | ⟨-, hs⟩ := step_onMap hls hcode hpc
  · rw [hs]
    exact ⟨(Chip.code_count_execute c d).trans hcode, onMap_execute hsize hls hc hf hd⟩
  · rw [hs]
    exact ⟨hcode, hpc⟩

end Steps

/-- The run lemma: steps of a machine without callbacks do not leave the map. -/
theorem onMap_run {env : Environment κ σ} {b b' : Bench κ σ} (hsize : image.size ≤ UInt16.size)
    (hls : Image.lines image = .ok ls) (hc : Closed ls) (hq : b.Quiet) (hcode : b.machine.chip.code = image)
    (hpc : OnMap image ls b.machine.chip.pc) (hrun : Relation.ReflTransGen (Bench.Next env) b b') :
    b'.Quiet ∧ b'.machine.chip.code = image ∧ OnMap image ls b'.machine.chip.pc := by
  induction hrun with
  | refl => exact ⟨hq, hcode, hpc⟩
  | tail hsteps hn ih =>
    obtain ⟨hq', hcode', hpc'⟩ := ih
    obtain ⟨hq'', hchip⟩ := hq'.next hn
    rw [hchip]
    exact ⟨hq'', onMap_stepped hsize hls hc hcode' hpc'⟩

/-- A listing without returns whose printed targets are addresses of lines is a map of execution. Take
a machine without callbacks that has the image as its program and starts at a line, whatever its
memories hold. Whenever it has taken any number of steps, its program counter is at a line or at the
end of the image. It can then take a step. If the step succeeds, it has executed the instruction
whose line is at the program counter; if it fails, the program counter is at the end of the image,
and the fault says so. -/
theorem listing_sound (env : Environment κ σ) {b b' : Bench κ σ} (hsize : image.size ≤ UInt16.size)
    (hls : Image.lines image = .ok ls) (hc : Closed ls) (hq : b.Quiet) (hcode : b.machine.chip.code = image)
    (hstart : ∃ l ∈ ls, l.addr = b.machine.chip.pc) (hrun : Relation.ReflTransGen (Bench.Next env) b b') :
    OnMap image ls b'.machine.chip.pc ∧
    (∃ r b'', Script.step.Yields env b' r b'') ∧
    ∀ r b'', Script.step.Yields env b' r b'' →
      match r with
      | .ok () => ∃ d, fetch image b'.machine.chip.pc = .ok d ∧ d.line ∈ ls ∧
          d.line.addr = b'.machine.chip.pc ∧ b''.machine.chip = (b'.machine.chip.execute d).count
      | .error fault => fault = .outOfBounds b'.machine.chip.pc image.size ∧
          b'.machine.chip.pc.toNat = image.size ∧ image.size < UInt16.size ∧
          b''.machine.chip = b'.machine.chip := by
  obtain ⟨hq', hcode', hpc'⟩ := onMap_run hsize hls hc hq hcode (.inl hstart) hrun
  refine ⟨hpc', hq'.exists_yields_step env, fun r b'' hs => ?_⟩
  obtain ⟨-, hchip, rfl⟩ := hq'.yields_step hs
  unfold Chip.stepped at hchip
  obtain ⟨d, hf, hd, hstep⟩ | ⟨hend, hstep⟩ := step_onMap hls hcode' hpc'
  · rw [hstep] at hchip ⊢
    exact ⟨d, hf, hd, pc_of_fetch hf, hchip⟩
  · rw [hstep] at hchip ⊢
    exact ⟨rfl, hend, hend ▸ b'.machine.chip.pc.toNat_lt, hchip⟩

/-- A loop that counts `R0` down from 2 and runs off the end of the image. -/
def countdown : Chip where
  data := Memory.zero
  xdata := Memory.zero
  pc := 0
  executed := 0
  code := #[0x78, 0x02, 0xD8, 0xFE]
  flags := {}
  pacer := { period := Pacer.period1MHz }

/-- The listing of `countdown`. -/
def countdownLines : Array Line :=
  #[⟨0, [0x78, 0x02], "MOV", some "R0, #0x02"⟩, ⟨2, [0xD8, 0xFE], "DJNZ", some "R0, C:-2(0002)"⟩]

theorem countdown_runs_off_the_end :
    Closed countdownLines ∧ OnMap countdown.code countdownLines (Chip.stepped^[3] countdown).pc ∧
      ∃ b, Script.step.Yields .idle (Bench.bare (Chip.stepped^[3] countdown)) (.error (.outOfBounds 4 4)) b := by
  have hls : Image.lines countdown.code = .ok countdownLines := by decide +kernel
  have hc : Closed countdownLines := ⟨by decide +kernel, by decide +kernel⟩
  have hend : (Bench.bare (Chip.stepped^[3] countdown)).machine.chip.pc = 4 := by decide +kernel
  obtain ⟨hmap, ⟨r, b, hs⟩, hout⟩ := listing_sound .idle (by decide) hls hc (b := Bench.bare countdown) rfl rfl
    ⟨countdownLines[0], by decide +kernel, rfl⟩ (Bench.steps_bare countdown 3)
  refine ⟨hc, hmap, b, ?_⟩
  have hr := hout r b hs
  rw [hend] at hr
  cases r with
  | ok u =>
    obtain ⟨d, hf, -⟩ := hr
    rw [fetch_of_size_le (by decide)] at hf
    cases hf
  | error fault =>
    obtain ⟨rfl, -⟩ := hr
    exact hs

end Micro8051
