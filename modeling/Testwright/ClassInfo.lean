import Testwright.Json.Decode
import Testwright.Json.Printer
import Testwright.Text.Basic

/-!
# Classes under test

What is known about a class: its name, its package, its methods and its fields. Main operation:
`ClassInfo.parse`, which reads a class from a JSON text and refuses one without a name.
-/

namespace Testwright

open Json

/-- A name with a type: a parameter or a field. -/
structure TypedName where
  name : String
  type : String
  deriving DecidableEq, Inhabited

/-- A method of a class. -/
structure MethodInfo where
  name : String
  parameters : List TypedName
  returnType : String
  /-- The text of the body, when it is known. -/
  body : Option String
  deriving DecidableEq, Inhabited

/-- A class under test. -/
structure ClassInfo where
  name : String
  package : String
  methods : List MethodInfo
  fields : List TypedName
  deriving DecidableEq, Inhabited

/-! ## Documents -/

/-- A name with a type as a document. -/
def TypedName.toJson (p : TypedName) : Json := record [("name", text p.name), ("type", text p.type)]

/-- Reads a name with a type. -/
def TypedName.ofJson? (j : Json) : Option TypedName := do
  let fields ← j.record? ["name", "type"]
  some { name := ← required fields "name" text?, type := ← required fields "type" text? }

/-- A method as a document. -/
def MethodInfo.toJson (m : MethodInfo) : Json :=
  record [("body", ofOption text m.body), ("name", text m.name),
    ("parameters", ofList TypedName.toJson m.parameters), ("return_type", text m.returnType)]

/-- Reads a method. A method returns nothing unless it says what. -/
def MethodInfo.ofJson? (j : Json) : Option MethodInfo := do
  let fields ← j.record? ["name", "parameters", "return_type", "body"]
  some {
    name := ← required fields "name" text?
    parameters := ← defaulted fields "parameters" [] (list? TypedName.ofJson?)
    returnType := ← defaulted fields "return_type" "void" text?
    body := ← defaulted fields "body" none (optional? text?) }

/-- A class as a document. -/
def ClassInfo.toJson (c : ClassInfo) : Json :=
  record [("class_name", text c.name), ("fields", ofList TypedName.toJson c.fields),
    ("methods", ofList MethodInfo.toJson c.methods), ("package", text c.package)]

/-- Reads a class. -/
def ClassInfo.ofJson? (j : Json) : Option ClassInfo := do
  let fields ← j.record? ["class_name", "package", "methods", "fields"]
  some {
    name := ← required fields "class_name" text?
    package := ← defaulted fields "package" "" text?
    methods := ← defaulted fields "methods" [] (list? MethodInfo.ofJson?)
    fields := ← defaulted fields "fields" [] (list? TypedName.ofJson?) }

/-- Why a class cannot be read. -/
inductive ClassError where
  /-- The text is no JSON document, or the document is no class. -/
  | undecodable
  /-- The name of the class is blank. -/
  | missingName
  deriving DecidableEq, Inhabited

/-- The error in words; a text that cannot be decoded has none. -/
def ClassError.message : ClassError → Option String
  | undecodable => none
  | missingName => some "class metadata has no class name"

/-- Reads a class that has a name. -/
def ClassInfo.parse (json : String) : Except ClassError ClassInfo :=
  match (Json.parse json).bind ClassInfo.ofJson? with
  | none => .error .undecodable
  | some c => if Text.isBlankText c.name.toList then .error .missingName else .ok c

end Testwright
