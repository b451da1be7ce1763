/-!
# Decimal integers

Integers written with the ten digits and an optional sign, and read back.
-/

namespace Testwright.Text

/-- An integer in decimal, with a minus sign when it is negative. -/
def writeInt : Int → List Char
  | .ofNat n => Nat.toDigits 10 n
  | .negSucc n => '-' :: Nat.toDigits 10 (n + 1)

/-- The value of a nonempty list of digits. -/
def readDigits (cs : List Char) : Option Nat :=
  if !cs.isEmpty && cs.all Char.isDigit then some (Nat.ofDigitChars 10 cs 0) else none

/-- The value of digits with an optional sign before them. -/
def readInt : List Char → Option Int
  | '-' :: cs => (readDigits cs).map fun n => -(n : Int)
  | '+' :: cs => (readDigits cs).map Int.ofNat
  | cs => (readDigits cs).map Int.ofNat

/-- An integer as a word of 64 bits, when it fits. -/
def toInt64? (n : Int) : Option Int64 :=
  if Int64.minValue.toInt ≤ n ∧ n ≤ Int64.maxValue.toInt then some (Int64.ofInt n) else none

/-- The value of digits with an optional sign, when it fits into 64 bits. -/
def readInt64 (cs : List Char) : Option Int64 := (readInt cs).bind toInt64?

end Testwright.Text
