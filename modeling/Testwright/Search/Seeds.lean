import Testwright.ClassInfo
import Testwright.Source.Types
import Testwright.TestCase

/-!
# Seed tests

The tests from which a search starts. Each method has one test with usual arguments, up to two
tests for the bounds of each parameter, and one test that expects an exception.
-/

namespace Testwright

open Source

/-- The method filter, and the class filter, that let everything pass. -/
def anyName : String := "*"

/-- The most boundary tests for one parameter. -/
def maxBoundaryTests : Nat := 2

namespace MethodInfo

/-- The usual arguments of a method. -/
def defaultArguments (m : MethodInfo) : List String :=
  m.parameters.map fun p => defaultValue p.type

/-- The arguments with which a method is expected to fail: `null` wherever it is possible. -/
def nullArguments (m : MethodInfo) : List String :=
  m.parameters.map fun p => if isPrimitive p.type then defaultValue p.type else "null"

/-- A call of a method on the object under test. -/
def call (m : MethodInfo) (arguments : List String) : String :=
  "target." ++ m.name ++ "(" ++ ", ".intercalate arguments ++ ")"

/-- The statement that calls a method with the usual arguments and keeps its result. -/
def actStatement (m : MethodInfo) : String :=
  let call := m.call m.defaultArguments
  if m.returnType = "void" then "    " ++ call ++ ";"
  else "    " ++ m.returnType ++ " result = " ++ call ++ ";"

/-- The boundary cases of a method: a parameter, and arguments with a bound in its place. -/
def boundaryCases (m : MethodInfo) : List (TypedName × List String) :=
  m.parameters.zipIdx.flatMap fun (p, i) =>
    ((boundaryValues p.type).take maxBoundaryTests).map fun v => (p, m.defaultArguments.set i v)

end MethodInfo

namespace ClassInfo

/-- The head of a test: its annotations, its declaration and the object under test. -/
def testHead (c : ClassInfo) (id displayName : String) : String :=
  "@Test\n@DisplayName(\"" ++ displayName ++ "\")\nvoid " ++ id ++
    "() \x7b\n    // Arrange\n    " ++ c.name ++ " target = new " ++ c.name ++ "();\n\n"

/-- A test of a method that has not been evaluated. -/
def testOf (c : ClassInfo) (m : MethodInfo) (id code : String) (assertions : List String) :
    TestCase where
  id := id
  kind := .methodCall
  code := code
  targetMethod := m.name
  targetClass := c.name
  assertions := assertions

/-- The test with the usual arguments. -/
def normalTest (c : ClassInfo) (m : MethodInfo) (ids : IdSource) : TestCase × IdSource :=
  let (id, ids) := ids.fresh ("test_" ++ m.name)
  let assertions := (resultAssertion m.returnType).toList
  let checks :=
    if assertions.isEmpty then ""
    else "\n    // Assert\n" ++ String.join (assertions.map fun a => "    " ++ a ++ ";\n")
  let code :=
    c.testHead id ("test" ++ m.name ++ "Normal") ++ "    // Act\n" ++ m.actStatement ++ "\n" ++
      checks ++ "\x7d"
  (c.testOf m id code assertions, ids)

/-- The test of a call in which nothing may be thrown. -/
def boundaryTest (c : ClassInfo) (m : MethodInfo) (p : TypedName) (arguments : List String)
    (ids : IdSource) : TestCase × IdSource :=
  let (id, ids) := ids.fresh ("test_" ++ m.name ++ "_boundary")
  let code :=
    c.testHead id ("test" ++ m.name ++ "Boundary_" ++ p.name) ++
      "    // Act & Assert\n    assertDoesNotThrow(() -> " ++ m.call arguments ++ ");\n\x7d"
  (c.testOf m id code ["assertDoesNotThrow"], ids)

/-- The test of a call that is expected to fail. -/
def exceptionTest (c : ClassInfo) (m : MethodInfo) (ids : IdSource) : TestCase × IdSource :=
  let (id, ids) := ids.fresh ("test_" ++ m.name ++ "_exception")
  let code :=
    c.testHead id ("test" ++ m.name ++ "Exception") ++
      "    // Act & Assert\n    assertThrows(Exception.class, () -> " ++ m.call m.nullArguments ++
      ");\n\x7d"
  (c.testOf m id code ["assertThrows"], ids)

/-- The boundary tests for some cases. -/
def boundaryTests (c : ClassInfo) (m : MethodInfo) :
    List (TypedName × List String) → IdSource → List TestCase × IdSource
  | [], ids => ([], ids)
  | (p, arguments) :: rest, ids =>
    let (t, ids) := c.boundaryTest m p arguments ids
    let (ts, ids) := c.boundaryTests m rest ids
    (t :: ts, ids)

/-- The tests of a method. -/
def methodTests (c : ClassInfo) (m : MethodInfo) (ids : IdSource) : List TestCase × IdSource :=
  let (normal, ids) := c.normalTest m ids
  let (boundary, ids) := c.boundaryTests m m.boundaryCases ids
  let (exception, ids) := c.exceptionTest m ids
  (normal :: boundary ++ [exception], ids)

/-- The tests of some methods. -/
def testsOf (c : ClassInfo) : List MethodInfo → IdSource → List TestCase × IdSource
  | [], ids => ([], ids)
  | m :: rest, ids =>
    let (ts, ids) := c.methodTests m ids
    let (others, ids) := c.testsOf rest ids
    (ts ++ others, ids)

/-- The seed tests for the methods of a name of the class of a name. -/
def seedTests (c : ClassInfo) (className methodName : String) (ids : IdSource) :
    List TestCase × IdSource :=
  if className ≠ anyName ∧ className ≠ c.name then ([], ids)
  else c.testsOf (c.methods.filter fun m => methodName = anyName || m.name = methodName) ids

end ClassInfo

end Testwright
