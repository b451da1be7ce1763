/-!
# Shortest decimals

The shortest decimal that reads back as a given double. A finite double is `m · 2 ^ q` with a
whole number `m`; the reals that round to it form an interval around it. For one digit, two digits
and so on, the two neighbours of the value with that many digits are tried in exact arithmetic,
and the first that lies in the interval is taken: of two hits the nearer, of two equally near the
upper one.
-/

namespace Testwright.Decimal

/-- The size of a finite double, as the whole number `mantissa` times two to the power
`exponent`. -/
structure Binary where
  mantissa : Nat
  exponent : Int
  deriving DecidableEq

/-- Whether the sign bit is set. -/
def signBit (x : Float) : Bool := x.toBits >>> 63 == 1

/-- The size of a double, from its bits. -/
def Binary.ofFloat (x : Float) : Binary :=
  let bits : Nat := x.toBits.toNat
  let fraction : Nat := bits % Nat.pow 2 52
  let scale : Nat := bits / Nat.pow 2 52 % Nat.pow 2 11
  if scale = 0 then ⟨fraction, -1074⟩ else ⟨Nat.pow 2 52 + fraction, (scale : Int) - 1075⟩

/-- A decimal: `digits` times ten to the power `exponent`. -/
structure Digits where
  digits : Nat
  exponent : Int
  deriving DecidableEq

/-- A power as a fraction: numerator and denominator. -/
def powerFraction (base : Nat) (e : Int) : Nat × Nat :=
  if 0 ≤ e then (base.pow e.toNat, 1) else (1, base.pow (-e).toNat)

/-- A quarter of the spacing of doubles at `b`, in units of ten to the power `e`, as a
fraction. -/
def quarterIn (b : Binary) (e : Int) : Nat × Nat :=
  let p := powerFraction 2 (b.exponent - 2)
  let t := powerFraction 10 (-e)
  (p.1 * t.1, p.2 * t.2)

/-- How many quarters of the spacing the interval of `b` reaches below it: two, or one at the
least double of its scale, below which doubles lie twice as close. -/
def quartersBelow (b : Binary) : Nat :=
  if b.mantissa = Nat.pow 2 52 ∧ b.exponent ≠ -1074 then 1 else 2

/-- Whether `n` units of ten to the power `e` round to `b`. The ends of the interval count when
the mantissa is even. -/
def roundsTo (b : Binary) (e : Int) (n : Nat) : Bool :=
  let (num, den) := quarterIn b e
  let low := (4 * b.mantissa - quartersBelow b) * num
  let high := (4 * b.mantissa + 2) * num
  if b.mantissa % 2 = 0 then low ≤ n * den && n * den ≤ high else low < n * den && n * den < high

/-- The neighbour of `b` among the multiples of ten to the power `e` that reads back as `b`. -/
def hitAt (b : Binary) (e : Int) : Option Nat :=
  let (num, den) := quarterIn b e
  let value := 4 * b.mantissa * num
  let below := value / den
  match roundsTo b e below, roundsTo b e (below + 1) with
  | true, true => some (if 2 * (value - below * den) < den then below else below + 1)
  | true, false => some below
  | false, true => some (below + 1)
  | false, false => none

/-- The first hit with at most 17 digits, from coarse to fine. -/
def searchFrom (b : Binary) : Nat → Int → Digits
  | 0, e => ⟨(hitAt b e).getD 0, e⟩
  | more + 1, e =>
    match hitAt b e with
    | some n => ⟨n, e⟩
    | none => searchFrom b more (e - 1)

/-- The number of digits before the decimal point, or minus the number of zeros after it: the
least `k`, not below `least`, with the value under ten to the power `k`. -/
def magnitudeFrom (b : Binary) : Nat → Int → Int
  | 0, k => k
  | more + 1, k =>
    let p := powerFraction 2 b.exponent
    let t := powerFraction 10 (k - 1)
    if b.mantissa * p.1 * t.2 < t.1 * p.2 then magnitudeFrom b more (k - 1) else k

/-- An upper bound for the number of decimal digits of a number of `bits` binary digits. -/
def digitBound (bits : Int) : Int := bits * 30103 / 100000 + 1

/-- The least `k` with the value under ten to the power `k`. -/
def magnitude (b : Binary) : Int :=
  magnitudeFrom b 20 (digitBound (b.exponent + (b.mantissa.log2 + 1)))

/-- A decimal without zeros at its end. -/
def dropZeros : Nat → Digits → Digits
  | 0, d => d
  | more + 1, d =>
    if d.digits % 10 = 0 ∧ d.digits ≠ 0 then dropZeros more ⟨d.digits / 10, d.exponent + 1⟩ else d

/-- The shortest decimal that reads back as `b`, which is not zero. -/
def shortest (b : Binary) : Digits := dropZeros 20 (searchFrom b 17 (magnitude b - 1))

end Testwright.Decimal
