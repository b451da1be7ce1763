import Testwright.BranchTarget
import Testwright.Path.Codec

/-!
# Analyses as documents

Predicates, sides of branches, analyses and branch targets as JSON documents.
-/

namespace Testwright

open Json

/-- A comparison as a document. -/
def Source.Comparison.toJson (c : Source.Comparison) : Json :=
  record [("op", c.relation.toJson), ("value", c.value.toJson), ("variable", text c.var)]

/-- A predicate as a document. -/
def Predicate.toJson (p : Predicate) : Json :=
  record [("line", lineToJson p.line), ("op", p.relation.toJson), ("value", p.value.toJson),
    ("variable", text p.var)]

/-- The names of the sides of a branch. -/
def BranchSide.names : List (String × BranchSide) := [("true", .whenTrue), ("false", .whenFalse)]

/-- A side of a branch as a document. -/
def BranchSide.toJson (s : BranchSide) : Json := text s.name

/-- Reads a side of a branch. -/
def BranchSide.ofJson? (route : Route) (j : Json) : Option BranchSide :=
  j.named? BranchSide.names route

/-- An uncovered side as a document. -/
def UncoveredSide.toJson (u : UncoveredSide) : Json :=
  record [("condition", u.condition.toJson), ("line", lineToJson u.line),
    ("predicate", nat u.index), ("side", u.side.toJson)]

/-- The members of the document of an analysis. -/
def Analysis.members (a : Analysis) : List (String × Json) :=
  [("branch_count", nat a.branches), ("coverage_estimate", float a.coverage),
    ("dropped_predicates", nat a.dropped), ("feasible_paths", nat a.feasiblePaths),
    ("infeasible_paths", nat a.infeasiblePaths), ("method_name", text a.method),
    ("paths", ofList Path.toJson a.paths),
    ("suggested_inputs", ofNameMap (ofList Value.toJson) a.suggestedInputs),
    ("total_paths", nat a.totalPaths), ("truncated", .bool a.truncated),
    ("uncovered_branches", ofList UncoveredSide.toJson a.uncovered)]

/-- An analysis as a document. -/
def Analysis.toJson (a : Analysis) : Json := record a.members

/-- A branch target as a document. -/
def BranchTarget.toJson (t : BranchTarget) : Json :=
  record [("branch_type", text t.kind), ("class_name", text t.className),
    ("covered", .bool t.covered), ("covering_tests", texts t.coveringTests),
    ("line", lineToJson t.line), ("method_name", text t.methodName)]

/-- Reads a branch target. -/
def BranchTarget.ofJson? (j : Json) : Option BranchTarget := do
  let fields ← j.record?
    ["class_name", "method_name", "line", "branch_type", "covered", "covering_tests"]
  some {
    className := ← required fields "class_name" text?
    methodName := ← required fields "method_name" text?
    line := ← required fields "line" uint32?
    kind := ← required fields "branch_type" text?
    covered := ← required fields "covered" bool?
    coveringTests := ← required fields "covering_tests" texts? }

end Testwright
