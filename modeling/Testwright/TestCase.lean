import Testwright.Ids
import Testwright.Text.Basic

/-!
# Test cases

A test case is the text of a test method with what is known about it. A chromosome is a test case
as a member of a population.
-/

namespace Testwright

open Text

/-- What a test exercises. -/
inductive TestKind where
  | methodCall
  | constructor
  | fieldAccess
  | assertion
  deriving DecidableEq, Inhabited

/-- A test method. -/
structure TestCase where
  id : String
  kind : TestKind
  code : String
  targetMethod : String
  targetClass : String
  fitness : Float := 0
  coverage : Float := 0
  mutationScore : Float := 0
  assertions : List String
  dependencies : List String := []
  deriving Inhabited

/-- A number kept between two bounds; what is no number becomes the lower one. -/
def clampUnit (x : Float) : Float :=
  if x.isNaN then 0 else if x < 0 then 0 else if 1 < x then 1 else x

namespace TestCase

/-- The number of lines that are not blank. -/
def nonBlankLines (t : TestCase) : Nat := (lines t.code.toList).countP (!isBlankText ·)

/-- The number of rows of the code. -/
def rowCount (t : TestCase) : Nat := Text.rowCount t.code.toList

/-- The test with a fitness, kept between 0 and 1. -/
def withFitness (t : TestCase) (x : Float) : TestCase := { t with fitness := clampUnit x }

/-- A test that has not been evaluated, with another name, code and assertions. -/
def childOf (parent : TestCase) (id code : String) (assertions : List String) : TestCase where
  id := id
  kind := parent.kind
  code := code
  targetMethod := parent.targetMethod
  targetClass := parent.targetClass
  assertions := assertions
  dependencies := parent.dependencies

end TestCase

/-- A member of a population. -/
structure Chromosome where
  test : TestCase
  /-- For how many generations it has been kept. -/
  age : Nat := 0
  /-- Its place in the order of fitness. -/
  rank : Nat := 0
  crowdingDistance : Float := 0
  deriving Inhabited

/-- The tag of the names of copies. -/
def copyTag : String := "copy"

/-- A copy under a derived name. -/
def Chromosome.copy (c : Chromosome) (ids : IdSource) : Chromosome × IdSource :=
  let (id, ids) := ids.derive c.test.id copyTag
  ({ c with test := { c.test with id := id } }, ids)

end Testwright
