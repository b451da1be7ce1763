import Testwright.Text.Basic

/-!
# Types of parameters and results

What a test passes for a parameter of a type, and what it asserts of a result.
-/

namespace Testwright.Source

open Text

/-- A type name without the white space around it. -/
def trimType (type : String) : String := String.ofList (trim type.toList)

/-- The types whose values are no objects. -/
def primitives : List String :=
  ["int", "long", "double", "float", "boolean", "char", "byte", "short"]

/-- Whether the values of a type are no objects. -/
def isPrimitive (type : String) : Bool := primitives.contains (trimType type)

/-- The usual arguments for the types that are known by name. -/
def knownDefaults : List (String × String) :=
  [("int", "0"), ("byte", "0"), ("short", "0"), ("long", "0L"), ("double", "0.0"),
    ("float", "0.0f"), ("boolean", "false"), ("char", "'\\0'"), ("String", "\"test\""),
    ("Integer", "Integer.valueOf(0)"), ("Long", "Long.valueOf(0L)"),
    ("Double", "Double.valueOf(0.0)"), ("Boolean", "Boolean.FALSE"),
    ("List", "Collections.emptyList()"), ("Map", "Collections.emptyMap()"),
    ("Set", "Collections.emptySet()")]

/-- The usual arguments for collections of any element type. -/
def collectionDefaults : List (String × String) :=
  [("List", "Collections.emptyList()"), ("Map", "Collections.emptyMap()"),
    ("Set", "Collections.emptySet()")]

/-- The name of a generic type, before its arguments. -/
def genericBase? (type : String) : Option String :=
  let base := type.toList.takeWhile (· != '<')
  if base.length < type.toList.length then some (trimType (String.ofList base)) else none

/-- The usual argument for a type: an empty array or collection, a plain value, or `null`. -/
def defaultValue (type : String) : String :=
  let type := trimType type
  match knownDefaults.lookup type with
  | some v => v
  | none =>
    if ['[', ']'].isSuffixOf type.toList then "new " ++ type ++ "\x7b\x7d"
    else ((genericBase? type).bind fun base => collectionDefaults.lookup base).getD "null"

/-- Arguments at the bounds of a type, the most interesting first. -/
def boundaryTable : List (String × List String) :=
  [("int", ["Integer.MAX_VALUE", "Integer.MIN_VALUE", "0", "-1", "1"]),
    ("long", ["Long.MAX_VALUE", "Long.MIN_VALUE", "0L", "-1L", "1L"]),
    ("double", ["Double.MAX_VALUE", "Double.MIN_VALUE", "0.0", "-1.0", "1.0", "Double.NaN"]),
    ("float", ["Float.MAX_VALUE", "Float.MIN_VALUE", "0.0f", "-1.0f", "1.0f", "Float.NaN"]),
    ("boolean", ["true", "false"]),
    ("char", ["Character.MAX_VALUE", "Character.MIN_VALUE"]),
    ("String", ["\"\"", "\" \"", "\"null\"", "\"a\"", "\"test_value_123\""])]

/-- Arguments at the bounds of a type; `null` for a type without bounds. -/
def boundaryValues (type : String) : List String :=
  (boundaryTable.lookup (trimType type)).getD ["null"]

/-- What is asserted of a result of a type; nothing when there is no result. -/
def resultAssertion (type : String) : Option String :=
  let type := trimType type
  if type = "void" ∨ type = "" then none
  else if type = "boolean" then some "assertTrue(result)"
  else if isPrimitive type then some ("assertEquals(" ++ defaultValue type ++ ", result)")
  else some "assertNotNull(result)"

end Testwright.Source
