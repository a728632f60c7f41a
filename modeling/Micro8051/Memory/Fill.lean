/-
The first contents of the memories. One supply of bytes fills the lower half of internal memory
and then all of external memory, in address order; special function registers start at zero. Where
nothing is promised about the contents, the bytes are the caller's.
-/
import Micro8051.Memory.Cells
import Micro8051.Noise.ChaCha

namespace Micro8051

/-- The lowest address of a special function register. -/
def sfrStart : UInt8 := 0x80

/-- Zeros, with the cells numbered below `count` filled in address order by successive draws from
`s`; with the memory goes what is left of the supply. -/
def Memory.fill {α τ : Type} [Address α] (draw : τ → UInt8 × τ) (count : Nat)
    (h : count ≤ Address.size α) (s : τ) : Memory α × τ :=
  count.fold (fun i hi (filled, s) =>
    let (v, s) := draw s
    (filled.set (Address.ofIndex ⟨i, Nat.lt_of_lt_of_le hi h⟩) v, s)) (Memory.zero, s)

/-- Internal memory at the start: the cells below the special function registers are drawn. -/
def Internal.fill {τ : Type} (draw : τ → UInt8 × τ) (s : τ) : Internal × τ :=
  Memory.fill draw sfrStart.toNat (by decide) s

/-- External memory at the start: every cell is drawn. -/
def External.fill {τ : Type} (draw : τ → UInt8 × τ) (s : τ) : External × τ :=
  Memory.fill draw 65536 (Nat.le_refl _) s

/-! ## Supplies -/

/-- What the memories hold at the start. -/
inductive Contents where
  | zeroed
  /-- Nothing is promised about the cells. -/
  | unseeded
  | seeded (seed : UInt64)
  | known (value : UInt8)
  deriving DecidableEq

/-- Bytes that may be anything, by the number of the draw. -/
abbrev Entropy := Nat → UInt8

/-- The entropy that is given for contents that do not look at it. -/
def Entropy.none : Entropy := fun _ => 0

/-- A supply of bytes. -/
inductive Supply where
  | constant (value : UInt8)
  | noise (stream : Noise.Stream)
  /-- Entropy of which the first `used` bytes have been drawn. -/
  | arbitrary (entropy : Entropy) (used : Nat)

def Supply.draw : Supply → UInt8 × Supply
  | .constant v => (v, .constant v)
  | .noise s =>
    let (v, s) := s.draw
    (v, .noise s)
  | .arbitrary entropy used => (entropy used, .arbitrary entropy (used + 1))

/-- The supply that the memories are filled from. Unseeded contents take their bytes from `entropy`. -/
def Contents.supply (c : Contents) (entropy : Entropy := .none) : Supply :=
  match c with
  | .zeroed => .constant 0
  | .unseeded => .arbitrary entropy 0
  | .seeded seed => .noise (Noise.Stream.ofSeed seed)
  | .known value => .constant value

/-- Internal and external memory as they are at the start. -/
def Contents.memories (c : Contents) (entropy : Entropy) : Internal × External :=
  let (data, s) := Internal.fill Supply.draw (c.supply entropy)
  (data, (External.fill Supply.draw s).1)

end Micro8051
