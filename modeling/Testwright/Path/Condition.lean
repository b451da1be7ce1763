import Testwright.Path.Value

/-!
# Conditions

A condition compares one variable with one value and has a polarity: a negated condition is the
false side of its comparison. `Condition.holds` says whether a value of the variable meets it, as
far as that can be judged.
-/

namespace Testwright

/-- How a condition relates its variable to its value. -/
inductive Relation where
  | eq
  | ne
  | lt
  | le
  | gt
  | ge
  | isNull
  | isNotNull
  | instanceOf
  deriving DecidableEq, Inhabited

namespace Relation

/-- The relation as it is written in a source text. -/
def symbol : Relation → String
  | eq => "=="
  | ne => "!="
  | lt => "<"
  | le => "<="
  | gt => ">"
  | ge => ">="
  | isNull => "== null"
  | isNotNull => "!= null"
  | instanceOf => "instanceof"

/-- The relation with its sides exchanged. -/
def converse : Relation → Relation
  | lt => gt
  | le => ge
  | gt => lt
  | ge => le
  | r => r

/-- Whether the relation compares by size. -/
def isOrdering : Relation → Bool
  | lt | le | gt | ge => true
  | _ => false

/-- Whether two integers are in an ordering relation; the other relations order nothing. -/
def orders : Relation → Int64 → Int64 → Bool
  | lt, a, b => a < b
  | le, a, b => a ≤ b
  | gt, a, b => b < a
  | ge, a, b => b ≤ a
  | _, _, _ => false

end Relation

/-- A comparison of a variable with a value, with a polarity. -/
structure Condition where
  var : String
  relation : Relation
  value : Value
  /-- Whether the false side of the comparison is meant. -/
  negated : Bool
  deriving DecidableEq, Inhabited

namespace Condition

/-- The comparison as it is written in a source text, without its polarity. -/
def comparison (c : Condition) : String :=
  match c.relation with
  | .isNull | .isNotNull => c.var ++ " " ++ c.relation.symbol
  | r => c.var ++ " " ++ r.symbol ++ " " ++ c.value.render

/-- The condition as it is written in a source text. -/
def render (c : Condition) : String :=
  if c.negated then "!(" ++ c.comparison ++ ")" else c.comparison

/-- Whether a value meets the comparison, without its polarity. Nothing can be said when the
value is compared with a symbol that it is not, when an order is asked for on something that is no
integer literal, and about the class of an object other than the one made for the type. -/
def compares (c : Condition) (v : Value) : Option Bool :=
  match c.relation with
  | .eq => if c.value.isSymbol && v != c.value then none else some (v == c.value)
  | .ne => if c.value.isSymbol && v != c.value then none else some (v != c.value)
  | .isNull => some v.isNull
  | .isNotNull => some !v.isNull
  | .instanceOf =>
    if v.isNull then some false
    else if v = c.value.instanceOf then some true
    else none
  | r => c.value.asInt.bind fun literal => v.asInt.map fun n => r.orders n literal

/-- Whether a value meets the condition, or nothing when that cannot be judged. What is no integer
meets no order against an integer, in neither polarity. -/
def holds (c : Condition) (v : Value) : Option Bool :=
  if c.relation.isOrdering && c.value.asInt.isSome && v.asInt.isNone then some false
  else (c.compares v).map (· != c.negated)

/-- Whether a condition lets a value pass: it is not judged to fail. -/
def admits (c : Condition) (v : Value) : Bool := c.holds v != some false

end Condition

end Testwright
