/-!
# Propositional formulas

Formulas in conjunctive normal form over numbered variables, and what it means for an assignment
to satisfy one. A model is given by the variables that are true in it.
-/

namespace Testwright.Sat

/-- A variable or its negation. -/
structure Literal where
  index : Nat
  positive : Bool
  deriving DecidableEq

/-- The variable with a number. -/
def pos (n : Nat) : Literal := ⟨n, true⟩

/-- The negation of the variable with a number. -/
def neg (n : Nat) : Literal := ⟨n, false⟩

/-- The opposite of a literal. -/
def Literal.opposite (l : Literal) : Literal := ⟨l.index, !l.positive⟩

/-- A disjunction of literals. -/
abbrev Clause := List Literal

/-- A conjunction of clauses. -/
abbrev Formula := List Clause

/-- The variables that are true; all others are false. -/
abbrev Model := List Nat

/-- Whether an assignment makes a literal true. -/
def Literal.holds (a : Nat → Bool) (l : Literal) : Bool := a l.index == l.positive

/-- Whether an assignment makes some literal of a clause true. -/
def Clause.holds (a : Nat → Bool) (c : Clause) : Bool := c.any (Literal.holds a)

/-- Whether an assignment makes every clause of a formula true. -/
def Formula.holds (a : Nat → Bool) (f : Formula) : Bool := f.all (Clause.holds a)

/-- The assignment that a model stands for. -/
def Model.assignment (m : Model) : Nat → Bool := fun n => m.contains n

/-! ## Exactly one -/

/-- No two of some variables. -/
def atMostOne : List Nat → Formula
  | [] => []
  | v :: vs => vs.map (fun w => [neg v, neg w]) ++ atMostOne vs

/-- At least one of some variables, and no two of them. -/
def exactlyOne (vs : List Nat) : Formula := vs.map pos :: atMostOne vs

end Testwright.Sat
