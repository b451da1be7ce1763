import Testwright.Distinct
import Testwright.Search.Engine
import Testwright.Source.TestUnit

/-!
# Hybrid suites

Searched tests and tests that were written elsewhere, joined into one suite without repetitions
and written as one test class.
-/

namespace Testwright

open Text Source

/-! ## Signatures -/

/-- A comment up to the end of its row. -/
def rowComment : Pattern := .word "//" ++ .all isInline

/-- The annotation with the display name of a test. -/
def displayName : Pattern := .word "@DisplayName" ++ .blank ++ plainParens

/-- The declaration of a test method without parameters. -/
def testDeclaration : Pattern :=
  .word "void" ++ .gap ++ name ++ .blank ++ .char '(' ++ .blank ++ .char ')'

/-- The code of a test without its comments, its display name and its own name, and with every
white space as one blank. -/
def normalCode (cs : List Char) : List Char :=
  let cs := rowComment.replaceAll [] cs
  let cs := displayName.replaceAll [] cs
  let cs := testDeclaration.replaceAll "void test()".toList cs
  trim (Pattern.gap.replaceAll [' '] cs)

/-- What makes two tests the same: the target method and the code. -/
def TestCase.signature (t : TestCase) : String :=
  t.targetMethod ++ ":" ++ String.ofList (normalCode t.code.toList)

/-- The first test of each signature. -/
def dropRedundant (tests : List TestCase) : List TestCase := distinct TestCase.signature tests

/-! ## Suites -/

/-- The fitness of a test that was written elsewhere. -/
def externalFitness : Float := 0.8

/-- A class, the settings of a search, and tests that were written elsewhere. -/
structure HybridSuite where
  classInfo : ClassInfo
  config : Config
  external : List String

namespace HybridSuite

/-- A test that was written elsewhere. -/
def externalTest (s : HybridSuite) (code : String) (ids : IdSource) : TestCase × IdSource :=
  let (id, ids) := ids.fresh "external_test"
  let cs := code.toList
  ({ id := id, kind := .methodCall, code := code, targetMethod := targetMethod cs,
     targetClass := s.classInfo.name, fitness := clampUnit externalFitness,
     assertions := assertionCalls cs }, ids)

/-- The tests that were written elsewhere, from some number on. -/
def externalTestsFrom (s : HybridSuite) (ids : IdSource) : List String → List TestCase
  | [] => []
  | code :: rest =>
    let (t, ids) := s.externalTest code ids
    t :: s.externalTestsFrom ids rest

/-- The tests that were written elsewhere. -/
def externalTests (s : HybridSuite) : List TestCase := s.externalTestsFrom {} s.external

/-- Runs the search and adds the tests that were written elsewhere; of tests with the same
signature the first is kept. There is no result when the search does not end. -/
def tests (s : HybridSuite) : Except ConfigError (Option (List TestCase)) :=
  (Engine.ofClass s.classInfo s.config).map fun e =>
    e.evolve.map fun e => dropRedundant (e.archive.tests ++ s.externalTests)

/-! ## The test class -/

/-- A row with four blanks before it; a blank row becomes empty. -/
def indentRow (row : List Char) : List Char :=
  if isBlankText row then [] else "    ".toList ++ row

/-- Code with its rows indented. -/
def indent (code : String) : String :=
  String.ofList (joinRows ((lines code.toList).map indentRow))

/-- The imports of the test class. -/
def imports : String :=
  "import org.junit.jupiter.api.Test;\n" ++
  "import org.junit.jupiter.api.DisplayName;\n" ++
  "import org.junit.jupiter.api.BeforeEach;\n" ++
  "import static org.junit.jupiter.api.Assertions.*;\n" ++
  "import static org.mockito.Mockito.*;\n\n"

/-- The test class that holds some tests, with an object under test that is made before each. -/
def render (s : HybridSuite) (tests : List TestCase) : String :=
  let c := s.classInfo
  (if c.package.isEmpty then "" else "package " ++ c.package ++ ";\n\n") ++ imports ++
    "public class " ++ c.name ++ "Test \x7b\n\n    private " ++ c.name ++ " target;\n\n" ++
    "    @BeforeEach\n    void setUp() \x7b\n        target = new " ++ c.name ++
    "();\n    \x7d\n" ++
    String.join (tests.map fun t => "\n" ++ indent t.code ++ "\n") ++ "\x7d\n"

end HybridSuite

end Testwright
