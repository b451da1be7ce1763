import Testwright.Analysis.Codec
import Testwright.Suite.Validation

/-!
# Validations as documents

Test methods, gaps, suggestions and validations as JSON documents; a gap is also read back.
-/

namespace Testwright

open Json

/-- The literals of variables as a document. -/
def inputsToJson (m : NameMap (List Value)) : Json := ofNameMap (ofList Value.toJson) m

/-- A test method as a document. -/
def TestUnit.toJson (t : TestUnit) : Json :=
  record [("assertion_count", nat t.assertionCount), ("body", text t.body),
    ("input_values", inputsToJson t.inputs), ("method_calls", texts t.calls),
    ("name", text t.name)]

/-- A gap as a document. -/
def CoverageGap.toJson : CoverageGap → Json
  | uncoveredBranch line side condition description =>
    record [("condition", condition.toJson), ("description", text description),
      ("line", lineToJson line), ("side", side.toJson), ("type", text "uncovered_branch")]
  | uncoveredPath pathId constraint inputs description =>
    record [("constraint", text constraint), ("description", text description),
      ("inputs", Bindings.toJson inputs), ("path_id", text pathId),
      ("type", text "uncovered_path")]

/-- Reads an uncovered side from what stands beside its type. -/
def CoverageGap.branchOf? (j : Json) : Option CoverageGap := do
  let fields ← j.record? ["line", "side", "condition", "description"]
  let line ← required fields "line" uint32?
  let side ← required fields "side" (BranchSide.ofJson? .keptAside)
  let condition ← required fields "condition" (Condition.ofJson? .keptAside)
  let description ← required fields "description" text?
  some (uncoveredBranch line side condition description)

/-- Reads an uncovered path from what stands beside its type. -/
def CoverageGap.pathOf? (j : Json) : Option CoverageGap := do
  let fields ← j.record? ["path_id", "constraint", "inputs", "description"]
  let pathId ← required fields "path_id" text?
  let constraint ← required fields "constraint" text?
  let inputs ← required fields "inputs" (Bindings.ofJson? .keptAside)
  let description ← required fields "description" text?
  some (uncoveredPath pathId constraint inputs description)

/-- How many containers may be nested in a gap. -/
def gapDepth : Nat := 126

/-- A document cut into its type and what stands beside it, which is kept aside until the type is
known: the type is a member of an object or the first item of an array. -/
def splitType? : Json → Option (String × Json)
  | .object members => do
    let fields ← (Json.object members).record? ["type"]
    let type ← required fields "type" text?
    let rest := members.filter fun m => m.1 != some "type"
    if rest.all fun m => m.2.isSound gapDepth then some (type, .object rest) else none
  | .array (.string (some type) :: rest) =>
    if rest.all (isSound gapDepth) then some (type, .array rest) else none
  | _ => none

/-- Reads a gap. -/
def CoverageGap.ofJson? (j : Json) : Option CoverageGap := do
  let (type, rest) ← splitType? j
  if type = "uncovered_branch" then branchOf? rest
  else if type = "uncovered_path" then pathOf? rest
  else none

/-- The name of a kind of suggestions. -/
def SuggestionKind.name : SuggestionKind → String
  | addBranchTest => "add_branch_test"
  | addPathTest => "add_path_test"

/-- A suggestion as a document. -/
def Suggestion.toJson (s : Suggestion) : Json :=
  record [("description", text s.description), ("inputs", Bindings.toJson s.inputs),
    ("kind", text s.kind.name), ("method", text s.method), ("priority", nat s.priority),
    ("suggested_code", text s.code)]

/-- The validation of a method as a document. -/
def MethodValidation.toJson (v : MethodValidation) : Json :=
  record [("gaps", ofList CoverageGap.toJson v.gaps), ("method", text v.method),
    ("suggestions", ofList Suggestion.toJson v.suggestions), ("symbolic", v.analysis.toJson),
    ("test_path_count", nat v.testCount), ("validation_score", float v.score)]

/-- The validation of a class as a document. -/
def ValidationReport.toJson (r : ValidationReport) : Json :=
  record [("class_name", text r.className), ("overall_score", float r.overallScore),
    ("suggestions", ofList Suggestion.toJson r.suggestions),
    ("validations", ofList MethodValidation.toJson r.validations)]

end Testwright
