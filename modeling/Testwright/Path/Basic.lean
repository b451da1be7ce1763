import Testwright.NameMap
import Testwright.Path.Condition

/-!
# Paths

A path through a method is a conjunction of conditions. A solver adds its verdict: whether some
input satisfies the path, and which.
-/

namespace Testwright

/-- The number of a line, counted from 1. -/
abbrev LineNumber := UInt32

/-- Values for variables. -/
abbrev Bindings := NameMap Value

/-- One route through a method. -/
structure Path where
  id : String
  conditions : List Condition
  feasible : Bool := true
  /-- The values that a solver found for the variables. -/
  inputs : Bindings := .empty
  /-- The lines of the predicates on the route. -/
  lines : List LineNumber := []
  deriving DecidableEq, Inhabited

/-- The verdict of a solver on a path. -/
structure Verdict where
  feasible : Bool
  bindings : Bindings
  deriving DecidableEq, Inhabited

namespace Verdict

/-- The path can be taken, with the given values. -/
def satisfiedBy (b : Bindings) : Verdict := ⟨true, b⟩

/-- The path cannot be taken. -/
def infeasible : Verdict := ⟨false, .empty⟩

end Verdict

/-- The conjunction of some conditions as it is written in a source text. -/
def renderConditions (cs : List Condition) : String :=
  if cs.isEmpty then "true" else " && ".intercalate (cs.map Condition.render)

/-- The conditions of a path as they are written in a source text. -/
def Path.constraint (p : Path) : String := renderConditions p.conditions

/-- The conditions grouped by their variables, each group in the order of the path. -/
def Path.byVariable (p : Path) : NameMap (List Condition) :=
  NameMap.group Condition.var p.conditions

/-- Whether every condition has a value for its variable and admits it. -/
def Path.admits (p : Path) (b : Bindings) : Bool :=
  p.conditions.all fun c => (b.find? c.var).any c.admits

end Testwright
