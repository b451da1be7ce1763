import Testwright.Random.Words
import Testwright.TestCase
import Testwright.Text.Integer
import Testwright.Text.Search

/-!
# Breeding tests

Mutation and crossover of tests. Both work on the text of a test and leave the parents as they
are; each child has a derived name. What is drawn on the way, random words and numbers for names,
is a `Supply`.
-/

namespace Testwright

open Text Testwright.Random

/-- What breeding draws from: random words and numbers for names. -/
structure Supply (σ : Type) where
  words : σ
  ids : IdSource

/-- A computation that draws from a supply. -/
abbrev Breeding (σ : Type) := StateM (Supply σ)

variable {σ : Type} [WordSource σ]

/-- Draws from the random words. -/
def drawing {α : Type} (f : σ → α × σ) : Breeding σ α := fun s =>
  let (a, words) := f s.words
  (a, { s with words := words })

/-- Draws from the numbers for names. -/
def naming {α : Type} (f : IdSource → α × IdSource) : Breeding σ α := fun s =>
  let (a, ids) := f s.ids
  (a, { s with ids := ids })

/-! ## Assertions -/

/-- The names of the assertions that have an opposite, with it. -/
def oppositeAssertions : List (String × String) :=
  [("assertTrue", "assertFalse"), ("assertFalse", "assertTrue"),
    ("assertEquals", "assertNotEquals"), ("assertNotEquals", "assertEquals"),
    ("assertNotNull", "assertNull"), ("assertNull", "assertNotNull")]

/-- The name of the opposite of an assertion. -/
def oppositeAssertion (name : String) : Option String := oppositeAssertions.lookup name

/-- The name of an assertion that has an opposite, as a whole word. -/
def assertionName : Pattern := .edge ++ .anyOf (oppositeAssertions.map (·.1)) ++ .edge

/-- The first such name in a text, with its opposite. -/
def firstAssertion (cs : List Char) : Option (Found × List Char) :=
  (assertionName.find cs).bind fun f =>
    (oppositeAssertion (String.ofList f.text)).map fun o => (f, o.toList)

/-- Replaces the first entry that satisfies a condition. -/
def replaceFirstEntry {α : Type} (p : α → Bool) (f : α → α) : List α → List α
  | [] => []
  | a :: rest => if p a then f a :: rest else a :: replaceFirstEntry p f rest

/-- Whether the first assertion name in an entry is the given one. -/
def beginsWith (name : List Char) (entry : String) : Bool :=
  (assertionName.find entry.toList).any fun f => f.text == name

/-! ## Mutation -/

/-- A way to mutate a test. -/
inductive Mutation where
  /-- Shift an integer literal. -/
  | perturbLiteral
  /-- Turn an assertion into its opposite. -/
  | flipAssertion
  /-- Mark the test as a boundary test. -/
  | markBoundary
  deriving DecidableEq, Inhabited

/-- All ways to mutate a test. -/
def Mutation.all : List Mutation := [perturbLiteral, flipAssertion, markBoundary]

/-- The largest shift of an integer literal. -/
def maxShift : Nat := 10

/-- The probability with which an assertion is turned into its opposite. -/
def flipProbability : Float := 0.3

/-- Digits that stand alone. -/
def integerLiteral : Pattern := .edge ++ .whole isDigit ++ .edge

/-- An integer kept within 64 bits. -/
def saturate (n : Int) : Int :=
  if n < Int64.minValue.toInt then Int64.minValue.toInt
  else if Int64.maxValue.toInt < n then Int64.maxValue.toInt
  else n

/-- Shifts one of the integer literals of a text. A literal of digits of another script, or one
beyond 64 bits, stays as it is. -/
def perturbLiteral (cs : List Char) : Breeding σ (List Char) := do
  let found := integerLiteral.findAll cs
  if found.isEmpty then return cs
  else
    let k ← drawing (below found.length)
    let shift ← drawing (offset maxShift)
    match (found[k]?).bind fun f => readInt64 f.text with
    | none => return cs
    | some n => return replaceNth k (writeInt (saturate (n.toInt + shift))) cs found

/-- Turns the first assertion of a text into its opposite, and the first entry of the list that
begins with the same name. -/
def flipAssertion (cs : List Char) (assertions : List String) : List Char × List String :=
  match firstAssertion cs with
  | none => (cs, assertions)
  | some (f, opposite) =>
    (f.skipped ++ opposite ++ f.rest,
      replaceFirstEntry (beginsWith f.text)
        (fun entry => String.ofList (assertionName.replaceOne opposite entry.toList)) assertions)

/-- The comment before the call under test. -/
def actMarker : String := "// Act"

/-- What the comment becomes in a boundary test. -/
def boundaryMarker : String := "// Act - boundary test\n    // Act"

/-- Marks the first call under test as a boundary test, unless a bound already occurs in it. -/
def markBoundary (cs : List Char) : List Char :=
  if contains "MAX_VALUE".toList cs || contains "MIN_VALUE".toList cs then cs
  else replaceFirst actMarker.toList boundaryMarker.toList cs

/-- The code and the assertions after a mutation. -/
def mutateText (m : Mutation) (t : TestCase) : Breeding σ (List Char × List String) := do
  let cs := t.code.toList
  match m with
  | .perturbLiteral => return (← perturbLiteral cs, t.assertions)
  | .flipAssertion =>
    if ← drawing (chance flipProbability) then return flipAssertion cs t.assertions
    else return (cs, t.assertions)
  | .markBoundary => return (markBoundary cs, t.assertions)

/-- The tag of the names of mutants. -/
def mutantTag : String := "mut"

/-- A mutant of a test. -/
def mutateBy (m : Mutation) (t : TestCase) : Breeding σ TestCase := do
  let (code, assertions) ← mutateText m t
  let id ← naming (·.derive t.id mutantTag)
  return t.childOf id (String.ofList code) assertions

/-- A mutant of a test, each way being equally likely. -/
def mutate (t : TestCase) : Breeding σ TestCase := do
  let k ← drawing (below Mutation.all.length)
  mutateBy (Mutation.all.getD k .perturbLiteral) t

/-! ## Crossover -/

/-- The place in a list of `length` entries that corresponds to row `point` of `rows`. -/
def proportionalCut (length point rows : Nat) : Nat := min (length * point / rows) length

/-- The tag of the names of crossed tests. -/
def crossTag : String := "x"

/-- A test with the head of one parent and the tail of another, cut at a row. -/
def crossAt (point : Nat) (head tail : TestCase) (id : String) : TestCase :=
  let headRows := rows head.code.toList
  let tailRows := rows tail.code.toList
  let headCut := proportionalCut head.assertions.length point headRows.length
  let tailCut := proportionalCut tail.assertions.length point tailRows.length
  head.childOf id (String.ofList (joinRows (headRows.take point ++ tailRows.drop point)))
    (head.assertions.take headCut ++ tail.assertions.drop tailCut)

/-- The row at which two tests are cut. -/
def drawCut (shortest : Nat) : Breeding σ Nat :=
  if 1 < shortest then drawing (between 1 shortest) else return shortest

/-- The two tests that exchange their tails. -/
def crossover (first second : TestCase) : Breeding σ (TestCase × TestCase) := do
  let point ← drawCut (min first.rowCount second.rowCount)
  let id1 ← naming (·.derive first.id crossTag)
  let id2 ← naming (·.derive second.id crossTag)
  return (crossAt point first second id1, crossAt point second first id2)

end Testwright
