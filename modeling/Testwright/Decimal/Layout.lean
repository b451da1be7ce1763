import Testwright.Decimal.Shortest
import Testwright.Text.Integer

/-!
# Writing decimals

Where the decimal point stands and when an exponent is written. The two formats of the project are
values of `Layout`: numbers inside data (`dataLayout`) and numbers inside messages
(`messageLayout`).
-/

namespace Testwright.Decimal

/-- How a number is written. -/
structure Layout where
  /-- Whether digits with the point before place `k` are written without an exponent. -/
  positional : Int → Bool
  /-- What follows the digits of a whole number. -/
  wholeEnd : List Char

/-- Numbers inside data keep a point or an exponent, so that they are told from integers. -/
def dataLayout : Layout := ⟨fun k => -5 < k && k ≤ 16, ['.', '0']⟩

/-- Numbers inside messages never have an exponent, and whole ones have no point. -/
def messageLayout : Layout := ⟨fun _ => true, []⟩

/-- Digits with the decimal point after the first `k` of them. -/
def pointAt (wholeEnd digits : List Char) (k : Int) : List Char :=
  if k ≤ 0 then '0' :: '.' :: List.replicate (-k).toNat '0' ++ digits
  else if digits.length ≤ k then
    digits ++ List.replicate (k.toNat - digits.length) '0' ++ wholeEnd
  else digits.take k.toNat ++ '.' :: digits.drop k.toNat

/-- Digits with one of them before the point, and an exponent. -/
def scientific (digits : List Char) (k : Int) : List Char :=
  let lead :=
    match digits with
    | d :: e :: rest => d :: '.' :: e :: rest
    | ds => ds
  lead ++ 'e' :: Text.writeInt (k - 1)

/-- A decimal in a layout. -/
def Layout.writeDigits (l : Layout) (d : Digits) : List Char :=
  let digits := Nat.toDigits 10 d.digits
  let k := digits.length + d.exponent
  if l.positional k then pointAt l.wholeEnd digits k else scientific digits k

/-- A double in a layout. -/
def Layout.write (l : Layout) (x : Float) : List Char :=
  if x.isNaN then "NaN".toList
  else
    (if signBit x then ['-'] else []) ++
      if x.isInf then "inf".toList
      else if x == 0 then '0' :: l.wholeEnd
      else l.writeDigits (shortest (Binary.ofFloat x))

/-- A double inside data. -/
def writeData (x : Float) : List Char := dataLayout.write x

/-- A double inside a message. -/
def writeMessage (x : Float) : List Char := messageLayout.write x

end Testwright.Decimal
