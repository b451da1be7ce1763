import Testwright.Solver.Basic
import Testwright.Source.Predicate

/-!
# Analysis of a method

The paths through a method body, as far as its recognised predicates tell them apart. The first
four predicates are taken on both sides in all combinations; any further predicate stays on its
true side. A solver decides which paths can be taken.
-/

namespace Testwright

/-- One side of a branch. -/
inductive BranchSide where
  | whenTrue
  | whenFalse
  deriving DecidableEq, Inhabited

namespace BranchSide

/-- The name of a side in messages. -/
def label : BranchSide → String
  | whenTrue => "true_branch"
  | whenFalse => "false_branch"

/-- The name of a side. -/
def name : BranchSide → String
  | whenTrue => "true"
  | whenFalse => "false"

/-- Whether the side negates the predicate. -/
def negates : BranchSide → Bool
  | whenTrue => false
  | whenFalse => true

end BranchSide

/-- A side of a predicate that no feasible path takes. -/
structure UncoveredSide where
  /-- The place of the predicate among the predicates. -/
  index : Nat
  line : LineNumber
  side : BranchSide
  /-- The condition that takes this side. -/
  condition : Condition
  deriving DecidableEq, Inhabited

/-- The uncovered side in words. -/
def UncoveredSide.describe (u : UncoveredSide) : String :=
  s!"line {u.line.toNat} {u.side.label}: {u.condition.render}"

/-- The result of the analysis of a method. -/
structure Analysis where
  method : String
  /-- The number of recognised predicates. -/
  branches : Nat
  /-- The number of `if` statements whose condition was not recognised. -/
  dropped : Nat
  paths : List Path
  uncovered : List UncoveredSide
  deriving DecidableEq, Inhabited

/-! ## Enumeration -/

/-- The most paths that are examined. -/
def maxPaths : Nat := 16

/-- The number of combinations of the sides of some predicates. What does not fit a word of 64 bits
counts as the largest number that does. -/
def combinations (branches : Nat) : Nat :=
  if branches < 64 then 1 <<< branches else UInt64.size - 1

/-- The number of paths that are examined for some predicates. -/
def pathCount (branches : Nat) : Nat := min (combinations branches) maxPaths

/-- Whether path number `mask`, a word of 64 bits, takes the predicate at place `j` on its false
side. -/
def takesFalseSide (mask j : Nat) : Bool := j < 64 && (mask >>> j) &&& 1 == 1

/-- The path with a number, before it is solved. -/
def pathAt (method : String) (ps : List Predicate) (mask : Nat) : Path where
  id := s!"{method}_path_{mask}"
  conditions := ps.zipIdx.map fun (p, j) => p.condition (takesFalseSide mask j)
  lines := ps.map Predicate.line

/-- A path with the verdict of a solver on it. -/
def Path.solved (s : Solver) (p : Path) : Path :=
  let v := s.solve p
  { p with feasible := v.feasible, inputs := v.bindings }

/-- The paths of a method, solved. -/
def solvedPaths (s : Solver) (method : String) (ps : List Predicate) : List Path :=
  (List.range (pathCount ps.length)).map fun mask => (pathAt method ps mask).solved s

/-! ## Coverage -/

/-- Whether a feasible path takes a side of the predicate at place `j`; the paths stand in the
order of their numbers. -/
def isCovered (paths : List Path) (j : Nat) (side : BranchSide) : Bool :=
  paths.zipIdx.any fun (p, mask) => p.feasible && takesFalseSide mask j == side.negates

/-- The sides that no feasible path takes, in the order of the predicates, true side first. -/
def uncoveredSides (ps : List Predicate) (paths : List Path) : List UncoveredSide :=
  ps.zipIdx.flatMap fun (p, j) =>
    ([BranchSide.whenTrue, .whenFalse].filter fun side => !isCovered paths j side).map fun side =>
      ⟨j, p.line, side, p.condition side.negates⟩

/-- The analysis of a method whose predicates are known. -/
def analyzePredicates (s : Solver) (method : String) (ps : List Predicate) (sites : Nat) :
    Analysis :=
  let paths := solvedPaths s method ps
  ⟨method, ps.length, sites - ps.length, paths, uncoveredSides ps paths⟩

/-- The analysis of a method. -/
def analyze (s : Solver) (method body : String) : Analysis :=
  analyzePredicates s method (Source.predicates body) (Source.countSites body)

namespace Analysis

/-- The paths that can be taken. -/
def feasible (a : Analysis) : List Path := a.paths.filter Path.feasible

/-- The number of paths. -/
def totalPaths (a : Analysis) : Nat := a.paths.length

/-- The number of paths that can be taken. -/
def feasiblePaths (a : Analysis) : Nat := a.feasible.length

/-- The number of paths that cannot be taken. -/
def infeasiblePaths (a : Analysis) : Nat := a.totalPaths - a.feasiblePaths

/-- Whether some combination of sides was not examined. -/
def truncated (a : Analysis) : Bool := pathCount a.branches < combinations a.branches

/-- The share of the sides that some feasible path takes; all of them when there are none. -/
def coverage (a : Analysis) : Float :=
  if a.branches = 0 then 1
  else
    let sides := 2 * a.branches
    (sides - a.uncovered.length).toFloat / sides.toFloat

/-- Adds a value at the end of a list, unless it is in it. -/
def addNew (v : Value) (old : Option (List Value)) : List Value :=
  let vs := old.getD []
  if vs.contains v then vs else vs ++ [v]

/-- For each variable the different values that feasible paths bind it to, in their order. -/
def suggestedInputs (a : Analysis) : NameMap (List Value) :=
  (a.feasible.flatMap fun p => p.inputs.entries).foldl
    (fun m e => m.upsert e.1 (addNew e.2)) .empty

end Analysis

end Testwright
