import Testwright.BranchTarget
import Testwright.TestCase

/-!
# Fitness

The fitness of a test is a weighted sum of three scores: the share of the branch targets whose
method it mentions, the number of assertions per line, and how well its length suits a test.
-/

namespace Testwright

open Text

/-- What a test is judged by. -/
inductive Objective where
  | branchCoverage
  | assertionDensity
  | complexity
  deriving DecidableEq, Inhabited

namespace Objective

/-- All objectives, in the order in which their scores are added. -/
def all : List Objective := [branchCoverage, assertionDensity, complexity]

/-- The weight of an objective in the fitness. -/
def weight : Objective → Float
  | branchCoverage => 0.5
  | assertionDensity => 0.3
  | complexity => 0.2

end Objective

/-- Whether a test's code mentions the method of a target. -/
def TestCase.mentions (t : TestCase) (target : BranchTarget) : Bool :=
  contains target.methodName.toList t.code.toList

/-- The targets that a test's code mentions. -/
def TestCase.mentioned (t : TestCase) (targets : List BranchTarget) : List BranchTarget :=
  let code := t.code.toList
  targets.filter fun target => contains target.methodName.toList code

/-- The share of the targets that a test mentions; all of them when there are none. -/
def TestCase.branchCoverage (t : TestCase) (targets : List BranchTarget) : Float :=
  if targets.isEmpty then 1
  else (t.mentioned targets).length.toFloat / targets.length.toFloat

/-- The number of assertions per line, at most 1. -/
def TestCase.assertionDensity (t : TestCase) : Float :=
  let density := t.assertions.length.toFloat / (max t.nonBlankLines 1).toFloat
  if 1 < density then 1 else density

/-- How well a number of lines suits a test: half below 5 lines, fully up to 20, and less and less
up to 70. -/
def lengthScore (lines : Nat) : Float :=
  if lines < 5 then 0.5
  else if lines ≤ 20 then 1
  else
    let score := 1 - (lines - 20).toFloat / 50
    if score < 0 then 0 else score

/-- How well the length of a test suits it. -/
def TestCase.complexity (t : TestCase) : Float := lengthScore t.nonBlankLines

/-- The score of a test for an objective. -/
def TestCase.score (t : TestCase) (targets : List BranchTarget) : Objective → Float
  | .branchCoverage => t.branchCoverage targets
  | .assertionDensity => t.assertionDensity
  | .complexity => t.complexity

/-- A sum of doubles, from the left. Nothing adds up to minus zero. -/
def sumFloats (l : List Float) : Float := l.foldl (· + ·) (-0.0)

/-- The weighted sum of the scores for some objectives, kept between 0 and 1. -/
def TestCase.weightedScore (t : TestCase) (targets : List BranchTarget)
    (objectives : List Objective) : Float :=
  clampUnit (sumFloats (objectives.map fun o => o.weight * t.score targets o))

/-- The test with its coverage and its fitness. -/
def TestCase.evaluated (t : TestCase) (targets : List BranchTarget) : TestCase :=
  { t with
    coverage := t.branchCoverage targets
    fitness := t.weightedScore targets Objective.all }

/-- The targets after each test has been noted at those that it mentions. -/
def recordCoverage (targets : List BranchTarget) (tests : List TestCase) : List BranchTarget :=
  let codes := tests.map fun t => (t.id, t.code.toList)
  targets.map fun target =>
    let name := target.methodName.toList
    target.markAll (codes.filterMap fun c => if contains name c.2 then some c.1 else none)

/-! ## Order of doubles -/

/-- The place of a double in the order of all doubles: by value, minus zero before zero, and what
is no number outside. -/
def totalKey (x : Float) : UInt64 :=
  let bits := x.toBits
  if Decimal.signBit x then ~~~bits else bits ||| 0x8000000000000000

/-- The larger of two doubles. -/
def maxFloat (x y : Float) : Float := if x < y then y else x

/-- A list by descending values of a key, equals in their order. -/
def sortDescending {α : Type} (key : α → Float) (l : List α) : List α :=
  l.mergeSort fun a b => totalKey (key b) ≤ totalKey (key a)

end Testwright
