import Testwright.Decimal.Layout

/-!
# JSON documents

A document keeps what was written: the members of an object in their order and with repetitions,
and numbers as digits, so that a reader can tell an integer from a fraction and decide for itself
what is out of range.
-/

namespace Testwright

/-- A number as it is written. -/
structure Json.Number where
  negative : Bool
  /-- The digits before the point. -/
  whole : List Char
  /-- The digits after the point; none when there is no point. -/
  fraction : List Char := []
  /-- The exponent, whether it is negative and its digits. -/
  exponent : Option (Bool × List Char) := none
  deriving DecidableEq

/-- A JSON document. A string is `none` when it holds half of a surrogate pair: it is well formed,
but it is no text. -/
inductive Json where
  | null
  | bool (b : Bool)
  | number (n : Json.Number)
  | string (s : Option String)
  | array (items : List Json)
  | object (members : List (Option String × Json))

namespace Json

/-- A text as a document. -/
def text (s : String) : Json := string (some s)

/-- An integer as a document. -/
def int (n : Int) : Json := number ⟨n < 0, Nat.toDigits 10 n.natAbs, [], none⟩

/-- A natural number as a document. -/
def nat (n : Nat) : Json := int n

/-- An object from its members. -/
def record (members : List (String × Json)) : Json :=
  object (members.map fun m => (some m.1, m.2))

/-- A value that may be absent, as a document. -/
def ofOption {α : Type} (f : α → Json) : Option α → Json
  | none => null
  | some a => f a

/-- A list as a document. -/
def ofList {α : Type} (f : α → Json) (l : List α) : Json := array (l.map f)

/-- A list of texts as a document. -/
def texts (l : List String) : Json := ofList text l

end Json

end Testwright
