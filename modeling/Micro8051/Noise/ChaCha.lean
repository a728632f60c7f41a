/-
The ChaCha block function with twelve rounds, and the stream of bytes that it makes of a
64-bit seed: one byte, the lowest, of each 32-bit word of consecutive blocks.
-/
namespace Micro8051.Noise

abbrev Block := Vector UInt32 16

abbrev Key := Vector UInt32 8

/-- A word turned left by `n` bits, for `n` from 1 to 31. -/
def rotateLeft (x n : UInt32) : UInt32 := (x <<< n) ||| (x >>> (32 - n))

/-- One quarter round on the words at four places. -/
def quarterRound (a b c d : Fin 16) (s : Block) : Block :=
  let s := s.set a (s[a] + s[b])
  let s := s.set d (rotateLeft (s[d] ^^^ s[a]) 16)
  let s := s.set c (s[c] + s[d])
  let s := s.set b (rotateLeft (s[b] ^^^ s[c]) 12)
  let s := s.set a (s[a] + s[b])
  let s := s.set d (rotateLeft (s[d] ^^^ s[a]) 8)
  let s := s.set c (s[c] + s[d])
  s.set b (rotateLeft (s[b] ^^^ s[c]) 7)

/-- Two rounds: one on the columns and one on the diagonals. -/
def doubleRound (s : Block) : Block :=
  let s := quarterRound 0 4 8 12 s
  let s := quarterRound 1 5 9 13 s
  let s := quarterRound 2 6 10 14 s
  let s := quarterRound 3 7 11 15 s
  let s := quarterRound 0 5 10 15 s
  let s := quarterRound 1 6 11 12 s
  let s := quarterRound 2 7 8 13 s
  quarterRound 3 4 9 14 s

/-- The state before the rounds: four constants, the key, the block's number and a zero nonce. -/
def initialBlock (key : Key) (number : UInt64) : Block :=
  #v[0x61707865, 0x3320646e, 0x79622d32, 0x6b206574,
    key[0], key[1], key[2], key[3], key[4], key[5], key[6], key[7],
    number.toUInt32, (number >>> 32).toUInt32, 0, 0]

/-- The block of the key with the given number, after twelve rounds. -/
def block (key : Key) (number : UInt64) : Block :=
  let start := initialBlock key number
  (Nat.repeat doubleRound 6 start).zipWith (· + ·) start

/-! ## The key of a seed -/

/-- One step of the linear congruential generator that spreads a seed over a key. -/
def spread (s : UInt64) : UInt64 := s * 6364136223846793005 + 11634580027462260723

/-- The word that a generator state gives: its high bits folded, then turned right by the
topmost five. -/
def keyWord (s : UInt64) : UInt32 :=
  let folded := (((s >>> 18) ^^^ s) >>> 27).toUInt32
  let turn := (s >>> 59).toUInt32
  (folded >>> turn) ||| (folded <<< ((32 - turn) &&& 31))

/-- The key of a seed: the words of eight successive generator states. -/
def Key.ofSeed (seed : UInt64) : Key :=
  Vector.ofFn fun i => keyWord (Nat.repeat spread (i.val + 1) seed)

/-! ## The stream of bytes -/

/-- A place in the stream of a key: the block at hand and how many of its words are used up. -/
structure Stream where
  key : Key
  next : UInt64
  current : Block
  /-- How many words of the block at hand have been given out. -/
  used : Nat

def Stream.ofSeed (seed : UInt64) : Stream :=
  ⟨Key.ofSeed seed, 0, Vector.replicate 16 0, 16⟩

/-- The next byte of the stream. -/
def Stream.draw (s : Stream) : UInt8 × Stream :=
  if h : s.used < 16 then
    (s.current[s.used].toUInt8, { s with used := s.used + 1 })
  else
    let fresh := block s.key s.next
    (fresh[0].toUInt8, { s with next := s.next + 1, current := fresh, used := 1 })

end Micro8051.Noise
