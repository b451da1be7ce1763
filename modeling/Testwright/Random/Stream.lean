import Testwright.Random.Words

/-!
# Random streams

The stream of words that belongs to a seed: the key stream of ChaCha with eight rounds, under a
key that is grown from the seed. Each stage of a run has a stream of its own.
-/

namespace Testwright.Random

/-! ## Blocks -/

/-- A word rotated to the left. -/
@[inline]
def rotateLeft (x n : UInt32) : UInt32 := x <<< n ||| x >>> (32 - n)

/-- A word rotated to the right. -/
def rotateRight (x n : UInt32) : UInt32 := x >>> n ||| x <<< (32 - n)

/-- The sixteen words that are mixed into a block. -/
structure Mix where
  (x0 x1 x2 x3 x4 x5 x6 x7 x8 x9 x10 x11 x12 x13 x14 x15 : UInt32)

/-- Mixes four words. -/
@[inline]
def quarterRound (a b c d : UInt32) : UInt32 × UInt32 × UInt32 × UInt32 :=
  let a := a + b
  let d := rotateLeft (d ^^^ a) 16
  let c := c + d
  let b := rotateLeft (b ^^^ c) 12
  let a := a + b
  let d := rotateLeft (d ^^^ a) 8
  let c := c + d
  let b := rotateLeft (b ^^^ c) 7
  (a, b, c, d)

/-- Two rounds: one over the columns and one over the diagonals. -/
def Mix.doubleRound (m : Mix) : Mix :=
  let (x0, x4, x8, x12) := quarterRound m.x0 m.x4 m.x8 m.x12
  let (x1, x5, x9, x13) := quarterRound m.x1 m.x5 m.x9 m.x13
  let (x2, x6, x10, x14) := quarterRound m.x2 m.x6 m.x10 m.x14
  let (x3, x7, x11, x15) := quarterRound m.x3 m.x7 m.x11 m.x15
  let (x0, x5, x10, x15) := quarterRound x0 x5 x10 x15
  let (x1, x6, x11, x12) := quarterRound x1 x6 x11 x12
  let (x2, x7, x8, x13) := quarterRound x2 x7 x8 x13
  let (x3, x4, x9, x14) := quarterRound x3 x4 x9 x14
  ⟨x0, x1, x2, x3, x4, x5, x6, x7, x8, x9, x10, x11, x12, x13, x14, x15⟩

/-- The words of a mix. -/
def Mix.words (m : Mix) : List UInt32 :=
  [m.x0, m.x1, m.x2, m.x3, m.x4, m.x5, m.x6, m.x7,
    m.x8, m.x9, m.x10, m.x11, m.x12, m.x13, m.x14, m.x15]

/-- A key of eight words. -/
structure Key where
  (k0 k1 k2 k3 k4 k5 k6 k7 : UInt32)

/-- What a block is mixed from: four constant words, the key, the number of the block, and a nonce
of zero. -/
def Key.start (k : Key) (number : UInt64) : Mix :=
  ⟨0x61707865, 0x3320646e, 0x79622d32, 0x6b206574,
    k.k0, k.k1, k.k2, k.k3, k.k4, k.k5, k.k6, k.k7,
    number.toUInt32, (number >>> 32).toUInt32, 0, 0⟩

/-- A block of the stream. -/
def Key.block (k : Key) (number : UInt64) : List UInt32 :=
  let m := k.start number
  let mixed := m.doubleRound.doubleRound.doubleRound.doubleRound
  List.zipWith (· + ·) mixed.words m.words

/-! ## Seeds -/

/-- The next state of the generator that grows a key. -/
def growSeed (s : UInt64) : UInt64 := s * 6364136223846793005 + 11634580027462260723

/-- The word of a key that belongs to a state. -/
def seedWord (s : UInt64) : UInt32 :=
  rotateRight (((s >>> 18) ^^^ s) >>> 27).toUInt32 (s >>> 59).toUInt32

/-- The key that belongs to a seed. -/
def Key.ofSeed (seed : UInt64) : Key :=
  let s0 := growSeed seed
  let s1 := growSeed s0
  let s2 := growSeed s1
  let s3 := growSeed s2
  let s4 := growSeed s3
  let s5 := growSeed s4
  let s6 := growSeed s5
  let s7 := growSeed s6
  ⟨seedWord s0, seedWord s1, seedWord s2, seedWord s3,
    seedWord s4, seedWord s5, seedWord s6, seedWord s7⟩

/-! ## Streams -/

/-- A place in the stream of a key. -/
structure Stream where
  key : Key
  /-- The number of the next block. -/
  number : UInt64
  /-- The words of the block under way that are left. -/
  ahead : List UInt32

/-- The next word of a stream. -/
def Stream.next (s : Stream) : UInt32 × Stream :=
  match s.ahead with
  | w :: ahead => (w, { s with ahead := ahead })
  | [] =>
    match s.key.block s.number with
    | w :: ahead => (w, ⟨s.key, s.number + 1, ahead⟩)
    | [] => (0, s)

instance : WordSource Stream := ⟨Stream.next⟩

/-- The stage in which a population is set up. -/
def setupStage : UInt64 := 0xFFFFFFFFFFFFFFFF

/-- The stream of a stage of a run. -/
def Stream.ofStage (seed stage : UInt64) : Stream := ⟨Key.ofSeed (seed + stage), 0, []⟩

end Testwright.Random
