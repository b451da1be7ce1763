import Testwright.Json.Decode
import Testwright.Json.Printer
import Testwright.Path.Basic

/-!
# Paths as documents

Values, conditions, paths and verdicts as JSON documents, and read back.
-/

namespace Testwright

open Json

/-! ## Values -/

/-- A value as a document: its kind and, when it has one, its content. -/
def Value.toJson : Value → Json
  | null => record [("kind", text "null")]
  | nonNull => record [("kind", text "non_null")]
  | bool b => record [("kind", text "bool"), ("value", .bool b)]
  | int n => record [("kind", text "int"), ("value", Json.int n.toInt)]
  | str s => record [("kind", text "str"), ("value", text s)]
  | symbol s => record [("kind", text "symbol"), ("value", text s)]

/-- The kinds of values. -/
inductive ValueKind where
  | null
  | nonNull
  | bool
  | int
  | str
  | symbol

/-- The names of the kinds of values. -/
def ValueKind.names : List (String × ValueKind) :=
  [("null", .null), ("non_null", .nonNull), ("bool", .bool), ("int", .int), ("str", .str),
    ("symbol", .symbol)]

/-- A kind without content has none, or `null`. -/
def absentContent (v : Value) : Option Json → Option Value
  | none => some v
  | some .null => some v
  | some _ => none

/-- The value of a kind with some content. -/
def ValueKind.withContent (content : Option Json) : ValueKind → Option Value
  | .null => absentContent .null content
  | .nonNull => absentContent .nonNull content
  | .bool => content.bind fun j => j.bool?.map .bool
  | .int => content.bind fun j => j.int64?.map .int
  | .str => content.bind fun j => j.text?.map .str
  | .symbol => content.bind fun j => j.text?.map .symbol

/-- Reads a value: an object with its kind and its content, or an array of both. -/
def Value.ofJson? (route : Route) : Json → Option Value
  | .array [kind, content] =>
    (kind.headNamed? ValueKind.names route).bind fun k => k.withContent (some content)
  | .object members => do
    let fields ← (Json.object members).record? ["kind", "value"]
    let kind ← required fields "kind" (named? ValueKind.names route)
    kind.withContent (fields.lookup "value")
  | _ => none

/-! ## Conditions -/

/-- The names of the relations. -/
def Relation.names : List (String × Relation) :=
  [("eq", .eq), ("neq", .ne), ("lt", .lt), ("le", .le), ("gt", .gt), ("ge", .ge),
    ("is_null", .isNull), ("is_not_null", .isNotNull), ("instance_of", .instanceOf)]

/-- The name of a relation in documents. -/
def Relation.name : Relation → String
  | eq => "eq"
  | ne => "neq"
  | lt => "lt"
  | le => "le"
  | gt => "gt"
  | ge => "ge"
  | isNull => "is_null"
  | isNotNull => "is_not_null"
  | instanceOf => "instance_of"

/-- A relation as a document. -/
def Relation.toJson (r : Relation) : Json := text r.name

/-- Reads a relation. -/
def Relation.ofJson? (route : Route) (j : Json) : Option Relation := j.named? Relation.names route

/-- A condition as a document. -/
def Condition.toJson (c : Condition) : Json :=
  record [("negated", .bool c.negated), ("op", c.relation.toJson), ("value", c.value.toJson),
    ("variable", text c.var)]

/-- Reads a condition. -/
def Condition.ofJson? (route : Route) (j : Json) : Option Condition := do
  let fields ← j.record? ["variable", "op", "value", "negated"]
  some {
    var := ← required fields "variable" text?
    relation := ← required fields "op" (Relation.ofJson? route)
    value := ← required fields "value" (Value.ofJson? route)
    negated := ← required fields "negated" bool? }

/-! ## Paths and verdicts -/

/-- Values for variables, as a document. -/
def Bindings.toJson (b : Bindings) : Json := ofNameMap Value.toJson b

/-- Reads values for variables. -/
def Bindings.ofJson? (route : Route) (j : Json) : Option Bindings :=
  j.nameMap? (Value.ofJson? route)

/-- The number of a line as a document. -/
def lineToJson (n : LineNumber) : Json := nat n.toNat

/-- A path as a document. -/
def Path.toJson (p : Path) : Json :=
  record [("conditions", ofList Condition.toJson p.conditions),
    ("covered_statements", ofList lineToJson p.lines), ("id", text p.id),
    ("input_values", Bindings.toJson p.inputs), ("is_feasible", .bool p.feasible)]

/-- Reads a path. -/
def Path.ofJson? (j : Json) : Option Path := do
  let fields ← j.record?
    ["id", "conditions", "is_feasible", "input_values", "covered_statements"]
  some {
    id := ← required fields "id" text?
    conditions := ← required fields "conditions" (list? (Condition.ofJson? .direct))
    feasible := ← required fields "is_feasible" bool?
    inputs := ← required fields "input_values" (Bindings.ofJson? .direct)
    lines := ← required fields "covered_statements" (list? uint32?) }

/-- A verdict as a document. -/
def Verdict.toJson (v : Verdict) : Json :=
  record [("bindings", Bindings.toJson v.bindings), ("feasible", .bool v.feasible)]

/-- Reads a verdict. -/
def Verdict.ofJson? (j : Json) : Option Verdict := do
  let fields ← j.record? ["feasible", "bindings"]
  some {
    feasible := ← required fields "feasible" bool?
    bindings := ← required fields "bindings" (Bindings.ofJson? .direct) }

end Testwright
