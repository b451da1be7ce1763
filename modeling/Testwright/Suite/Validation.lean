import Testwright.Analysis
import Testwright.ClassInfo
import Testwright.Search.Fitness
import Testwright.Source.TestUnit
import Testwright.Text.UpperCase

/-!
# Validation of a test suite

A suite is held against the analysis of a method. Every side of a branch that no feasible path
takes and every feasible path that no test drives is a gap, and for each gap a test is suggested.
-/

namespace Testwright

open Text Source

/-- Something that the tests leave out. -/
inductive CoverageGap where
  /-- A side of a predicate that no feasible path takes. -/
  | uncoveredBranch (line : LineNumber) (side : BranchSide) (condition : Condition)
      (description : String)
  /-- A feasible path that no test drives. -/
  | uncoveredPath (pathId constraint : String) (inputs : Bindings) (description : String)
  deriving DecidableEq, Inhabited

/-- The kind of a suggestion. -/
inductive SuggestionKind where
  | addBranchTest
  | addPathTest
  deriving DecidableEq, Inhabited

/-- A test that would close a gap. -/
structure Suggestion where
  kind : SuggestionKind
  method : String
  description : String
  inputs : Bindings
  /-- The frame of a test method. -/
  code : String
  priority : Nat
  deriving DecidableEq, Inhabited

/-- The validation of a suite against a method. -/
structure MethodValidation where
  method : String
  analysis : Analysis
  /-- The number of test methods. -/
  testCount : Nat
  gaps : List CoverageGap
  suggestions : List Suggestion
  /-- From 0 to 100. -/
  score : Float
  deriving Inhabited

/-- The validation of a suite against a class. -/
structure ValidationReport where
  className : String
  validations : List MethodValidation
  /-- The mean score of the methods. -/
  overallScore : Float
  /-- The suggestions for all methods, the most urgent first. -/
  suggestions : List Suggestion
  deriving Inhabited

/-! ## Gaps -/

/-- Whether a test drives a path: for each variable of the path it has a literal that all
conditions on the variable admit. -/
def TestUnit.covers (t : TestUnit) (p : Path) : Bool :=
  p.byVariable.entries.all fun e =>
    (t.inputs.find? e.1).any fun values => values.any fun v => e.2.all fun c => c.admits v

namespace CoverageGap

/-- The gap in words. -/
def description : CoverageGap → String
  | uncoveredBranch _ _ _ d => d
  | uncoveredPath _ _ _ d => d

/-- The gap of an uncovered side. -/
def ofSide (u : UncoveredSide) : CoverageGap :=
  uncoveredBranch u.line u.side u.condition ("Uncovered branch at " ++ u.describe)

/-- The gap of a path that no test drives. -/
def ofPath (p : Path) : CoverageGap :=
  uncoveredPath p.id p.constraint p.inputs s!"No test drives path {p.id}: {p.constraint}"

/-- What a gap adds to the priority of its suggestion. -/
def priority : CoverageGap → Nat
  | uncoveredBranch .. => 20
  | uncoveredPath .. => 10

end CoverageGap

/-- The gaps that some tests leave: the uncovered sides, then the feasible paths that no test
drives. -/
def gapsOf (tests : List TestUnit) (a : Analysis) : List CoverageGap :=
  a.uncovered.map .ofSide ++
    (a.feasible.filter fun p => !tests.any fun t => t.covers p).map .ofPath

/-! ## Scores -/

/-- The score of a method: in parts of 4 and 6 the number of tests per feasible path, at most
one, and the coverage of the analysis. -/
def validationScore (tests feasible : Nat) (coverage : Float) : Float :=
  let ratio := tests.toFloat / (max feasible 1).toFloat
  let ratio := if 1 < ratio then 1 else ratio
  100 * (0.4 * ratio + 0.6 * coverage)

/-- What a score adds to the priority of the suggestions for its method. -/
def scoreBonus (score : Float) : Nat :=
  if score < 50 then 30 else if score < 70 then 15 else 0

/-- The priority of every suggestion. -/
def basePriority : Nat := 50

/-! ## Suggestions -/

/-- A name with its first character in upper case. -/
def capitalize (s : String) : String :=
  match s.toList with
  | [] => ""
  | c :: cs => String.ofList (upperCase c ++ cs)

/-- Whether a text is a name. -/
def isIdentifier (s : String) : Bool :=
  match s.toList with
  | [] => false
  | c :: cs => (isAlphabetic c || c == '_') && cs.all fun x => isAlphanumeric x || x == '_'

/-- A text with apostrophes in place of quotes. -/
def withApostrophes (s : String) : String :=
  String.ofList (s.toList.map fun c => if c = '"' then '\'' else c)

/-- The row that gives a variable its value; for an expression it is a comment. -/
def arrangeRow (var : String) (v : Value) : String :=
  if !isIdentifier var then "    // " ++ var ++ " = " ++ v.render ++ "\n"
  else if v.isNull then "    Object " ++ var ++ " = null;\n"
  else "    var " ++ var ++ " = " ++ v.render ++ ";\n"

/-- The frame of a test method that arranges inputs and leaves the rest to be written. -/
def testFrame (testName method goal : String) (inputs : Bindings) : String :=
  "@Test\n@DisplayName(\"" ++ method ++ ": " ++ withApostrophes goal ++ "\")\nvoid " ++ testName ++
    "() \x7b\n    // Arrange\n" ++
    String.join (inputs.entries.map fun e => arrangeRow e.1 e.2) ++
    "\n    // Act\n    // call " ++ method ++ " so that " ++ goal ++ "\n\n    // Assert\n\x7d"

/-- The first suggested value of each variable. -/
def firstInputs (a : Analysis) : Bindings := a.suggestedInputs.filterMap fun _ vs => vs.head?

/-- The suggestion for a gap. -/
def CoverageGap.suggest (a : Analysis) (priority : Nat) (gap : CoverageGap) : Suggestion :=
  match gap with
  | uncoveredBranch line side condition d =>
    let name := s!"test{capitalize a.method}_line{line.toNat}_{side.name}"
    let inputs := firstInputs a
    ⟨.addBranchTest, a.method, d, inputs, testFrame name a.method condition.render inputs, priority⟩
  | uncoveredPath pathId constraint inputs d =>
    ⟨.addPathTest, a.method, d, inputs, testFrame ("test_" ++ pathId) a.method constraint inputs,
      priority⟩

/-! ## Validation -/

/-- The validation of test methods against a method body. -/
def validateUnits (s : Solver) (tests : List TestUnit) (method body : String) :
    MethodValidation :=
  let a := analyze s method body
  let gaps := gapsOf tests a
  let score := validationScore tests.length a.feasiblePaths a.coverage
  { method := method
    analysis := a
    testCount := tests.length
    gaps := gaps
    suggestions := gaps.map fun g => g.suggest a (basePriority + g.priority + scoreBonus score)
    score := score }

/-- Each gap has a suggestion at its place. -/
theorem suggestions_validateUnits (s : Solver) (tests : List TestUnit) (method body : String) :
    (validateUnits s tests method body).suggestions =
      (validateUnits s tests method body).gaps.map fun g =>
        g.suggest (analyze s method body)
          (basePriority + g.priority + scoreBonus (validateUnits s tests method body).score) := by
  rw [validateUnits]

/-- The validation of a test source against a method body. -/
def validateMethod (s : Solver) (testSource method body : String) : MethodValidation :=
  validateUnits s (testUnits testSource) method body

/-- The body of a method: the known one, unless it is blank, or else the one in a source text. -/
def MethodInfo.bodyIn (m : MethodInfo) (source : String) : String :=
  match m.body with
  | some body => if isBlankText body.toList then methodBody source m.name else body
  | none => methodBody source m.name

/-- The validations of test methods against the methods of a class that have a body. -/
def validateMethods (s : Solver) (tests : List TestUnit) (source : String)
    (methods : List MethodInfo) : List MethodValidation :=
  methods.filterMap fun m =>
    let body := m.bodyIn source
    if body.isEmpty then none else some (validateUnits s tests m.name body)

/-- The mean of the scores; 0 when there are none. -/
def overallScore (vs : List MethodValidation) : Float :=
  if vs.isEmpty then 0 else sumFloats (vs.map MethodValidation.score) / vs.length.toFloat

/-- Suggestions by descending priority, equals in their order. -/
def byPriority (l : List Suggestion) : List Suggestion :=
  l.mergeSort fun a b => b.priority ≤ a.priority

/-- The validation of test sources against a class. -/
def validateClass (s : Solver) (testSources : List String) (source : String) (c : ClassInfo) :
    ValidationReport :=
  let vs := validateMethods s (testSources.flatMap testUnits) source c.methods
  { className := c.name
    validations := vs
    overallScore := overallScore vs
    suggestions := byPriority (vs.flatMap MethodValidation.suggestions) }

end Testwright
