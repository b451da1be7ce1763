/-!
# Random choices

Choices that are drawn from a source of random words. Everything is stated over an arbitrary
source, so that what is true of a choice is true for every stream of words.
-/

namespace Testwright.Random

/-- A source of words of 32 bits. -/
class WordSource (σ : Type) where
  next : σ → UInt32 × σ

variable {σ : Type} [WordSource σ]

/-- The next word. -/
def draw32 (s : σ) : UInt32 × σ := WordSource.next s

/-- The next two words as one, the low half first. -/
def draw64 (s : σ) : UInt64 × σ :=
  let (low, s) := draw32 s
  let (high, s) := draw32 s
  (high.toUInt64 <<< 32 ||| low.toUInt64, s)

/-- How many words of `bits` bits are accepted as the low half of a product, so that each of
`range` results is equally likely. -/
def acceptance (bits range : Nat) : Nat := range <<< (bits - 1 - range.log2)

/-- How often a choice is tried. No run comes near it. -/
def patience : Nat := Nat.pow 2 62

/-- Draws words of `bits` bits until one is accepted: the high half of its product with `range` is
the result. -/
def drawBelow (bits range : Nat) (draw : σ → Nat × σ) : Nat → σ → Nat × σ
  | 0, s => (0, s)
  | more + 1, s =>
    let (word, s) := draw s
    let product := word * range
    if product % Nat.pow 2 bits < acceptance bits range then (product / Nat.pow 2 bits, s)
    else drawBelow bits range draw more s

/-- A number below `n`, which is positive, from words of 64 bits. -/
def below (n : Nat) (s : σ) : Nat × σ :=
  drawBelow 64 n (fun s => let (w, s) := draw64 s; (w.toNat, s)) patience s

/-- A number below `n`, which is positive, from words of 32 bits. -/
def below32 (n : Nat) (s : σ) : Nat × σ :=
  drawBelow 32 n (fun s => let (w, s) := draw32 s; (w.toNat, s)) patience s

/-- A number from `low` up to `high`, without `high` itself. -/
def between (low high : Nat) (s : σ) : Nat × σ :=
  let (n, s) := below (high - low) s
  (low + n, s)

/-- An integer from `-bound` to `bound`. -/
def offset (bound : Nat) (s : σ) : Int × σ :=
  let (n, s) := below (2 * bound + 1) s
  ((n : Int) - bound, s)

/-- The number of words of 64 bits that count as a success of probability `p`. -/
def successes (p : Float) : UInt64 := (p * 18446744073709551616.0).toUInt64

/-- Whether something of probability `p` happens. What is certain takes no word. -/
def chance (p : Float) (s : σ) : Bool × σ :=
  if p == 1 then (true, s)
  else
    let (w, s) := draw64 s
    (w < successes p, s)

/-- Two different numbers below `n`, which is at least two. -/
def pair (n : Nat) (s : σ) : (Nat × Nat) × σ :=
  let (a, s) := below32 (n - 1) s
  let (b, s) := below32 n s
  (if b = a then (n - 1, a) else (a, b), s)

end Testwright.Random
