import Testwright.Json.Basic

/-!
# The value of a number

An integer that fits into 64 bits is exact. Any other number is a double: the leading digits that
fit into 64 bits, rounded to a double, times or divided by a power of ten and rounded again. A
number too large for a double has no value.
-/

namespace Testwright.Json

/-- The value of a number. -/
inductive Numeral where
  | int (n : Int)
  | float (x : Float)

/-- The largest word of 64 bits. -/
def maxWord : Nat := Nat.pow 2 64 - 1

/-- The value of a digit. -/
def digitValue (c : Char) : Nat := c.toNat - '0'.toNat

/-- Leading digits: the number that they form, and how often it is still to be multiplied by
ten. -/
structure Leading where
  digits : Nat
  exponent : Int
  /-- Whether a digit of the part under way was left out. -/
  full : Bool

/-- Takes a digit before the point. Once a digit does not fit, it and all others up to the point
only count as places. -/
def Leading.takeWhole (l : Leading) (c : Char) : Leading :=
  let next := l.digits * 10 + digitValue c
  if l.full || maxWord < next then { l with exponent := l.exponent + 1, full := true }
  else { l with digits := next }

/-- Takes a digit after the point. Once a digit does not fit, it and all others are left out. -/
def Leading.takeFraction (l : Leading) (c : Char) : Leading :=
  let next := l.digits * 10 + digitValue c
  if l.full || maxWord < next then { l with full := true }
  else { l with digits := next, exponent := l.exponent - 1 }

/-- Ten to a power of at most 308, as a double. -/
def tenTo (n : Nat) : Float := Float.ofScientific 1 false n

/-- A double times ten to a power; nothing when it grows too large. -/
def scale (x : Float) (e : Int) : Option Float :=
  if 308 < e then if x == 0 then some x else none
  else if 0 ≤ e then
    let y := x * tenTo e.toNat
    if y.isInf then none else some y
  else if -308 ≤ e then some (x / tenTo (-e).toNat)
  else if -616 ≤ e then some (x / tenTo 308 / tenTo (-e - 308).toNat)
  else some 0

/-- The exponent that is written after the digits. -/
def Number.writtenExponent (n : Number) : Int :=
  match n.exponent with
  | none => 0
  | some (negative, ds) =>
    let e : Int := Nat.ofDigitChars 10 ds 0
    if negative then -e else e

/-- The size of a number as a double. -/
def Number.size (n : Number) : Option Float :=
  let whole := n.whole.foldl Leading.takeWhole ⟨0, 0, false⟩
  let l := n.fraction.foldl Leading.takeFraction { whole with full := false }
  scale l.digits.toUInt64.toFloat (l.exponent + n.writtenExponent)

/-- A number without point and exponent, when its value is an integer of 64 bits. Minus zero is
none. -/
def Number.int? (n : Number) : Option Int :=
  if n.fraction.isEmpty && n.exponent.isNone then
    let size := Nat.ofDigitChars 10 n.whole 0
    if n.negative then if 0 < size ∧ size ≤ Nat.pow 2 63 then some (-(size : Int)) else none
    else if size ≤ maxWord then some size else none
  else none

/-- The value of a number. -/
def Number.value (n : Number) : Option Numeral :=
  match n.int? with
  | some k => some (.int k)
  | none => n.size.map fun x => .float (if n.negative then -x else x)

/-! ## Writing doubles -/

/-- The digits before the first character that is none, and the rest. -/
def splitDigits (cs : List Char) : List Char × List Char := cs.span Char.isDigit

/-- A finite double as a number. -/
def Number.ofFloat (x : Float) : Number :=
  let (negative, cs) :=
    match Decimal.writeData x with
    | '-' :: cs => (true, cs)
    | cs => (false, cs)
  let (whole, cs) := splitDigits cs
  let (fraction, cs) :=
    match cs with
    | '.' :: cs => splitDigits cs
    | cs => ([], cs)
  let exponent :=
    match cs with
    | 'e' :: '-' :: ds => some (true, ds)
    | 'e' :: ds => some (false, ds)
    | _ => none
  ⟨negative, whole, fraction, exponent⟩

/-- A finite double as a document. -/
def float (x : Float) : Json := number (Number.ofFloat x)

/-- A double as a document, with a text for those that are not finite. -/
def oddFloat (x : Float) : Json :=
  if x.isFinite then float x else text (String.ofList (Decimal.writeMessage x))

end Testwright.Json
