import Testwright.Analysis
import Testwright.ClassInfo
import Testwright.Distinct

/-!
# Branch targets

The branches that tests are to cover: one target for each recognised predicate of each method
whose body is known.
-/

namespace Testwright

/-- A branch of a method, and the tests that cover it. -/
structure BranchTarget where
  className : String
  methodName : String
  line : LineNumber
  /-- The kind of statement that branches. -/
  kind : String
  covered : Bool := false
  coveringTests : List String := []
  deriving DecidableEq, Inhabited

namespace BranchTarget

/-- The name of a branch: its class, its method and its line. -/
def id (t : BranchTarget) : String := s!"{t.className}.{t.methodName}:{t.line.toNat}"

/-- Notes a test that covers the branch. A test is noted once. -/
def markCovered (t : BranchTarget) (test : String) : BranchTarget :=
  { t with
    covered := true
    coveringTests :=
      if t.coveringTests.contains test then t.coveringTests else t.coveringTests ++ [test] }

/-- Notes several tests that cover the branch, each once. -/
def markAll (t : BranchTarget) (tests : List String) : BranchTarget :=
  if tests.isEmpty then t
  else
    { t with
      covered := true
      coveringTests := t.coveringTests ++ newNames (.ofList t.coveringTests) tests }

/-- Noting several tests is noting one after another. -/
theorem markAll_eq_foldl (t : BranchTarget) (tests : List String) :
    t.markAll tests = tests.foldl markCovered t := by
  have step (u : BranchTarget) (l : List String) : l.foldl markCovered u =
      { u with
        covered := u.covered || !l.isEmpty
        coveringTests := l.foldl
          (fun known s => if known.contains s then known else known ++ [s]) u.coveringTests } := by
    induction l generalizing u with
    | nil => simp
    | cons s l ih => simp [ih, markCovered]
  rw [step, markAll]
  split
  · simp_all
  · rw [append_newNames fun s => Std.HashSet.contains_ofList]
    simp_all

/-- The kind of the branches of `if` statements. -/
def ifKind : String := "if"

/-- The targets of a method body. -/
def ofBody (className methodName body : String) : List BranchTarget :=
  (Source.predicates body).map fun p => ⟨className, methodName, p.line, ifKind, false, []⟩

end BranchTarget

/-- The targets of all methods of a class whose bodies are known. -/
def ClassInfo.branchTargets (c : ClassInfo) : List BranchTarget :=
  c.methods.flatMap fun m =>
    match m.body with
    | some body => BranchTarget.ofBody c.name m.name body
    | none => []

end Testwright
