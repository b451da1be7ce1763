import Testwright.Solver.Basic

/-!
# The greedy solver

Each condition of a path proposes a value for its variable, and a later proposal replaces an
earlier one. Contradictions between conditions are not noticed.
-/

namespace Testwright

/-- The integer below, unless there is none. -/
def below? (n : Int64) : Option Int64 := if n = Int64.minValue then none else some (n - 1)

/-- The integer above, unless there is none. -/
def above? (n : Int64) : Option Int64 := if n = Int64.maxValue then none else some (n + 1)

/-- What is proposed as smaller than something that is no integer. -/
def smallDefault : Int64 := 0

/-- What is proposed as larger than something that is no integer. -/
def largeDefault : Int64 := 1

/-- The value that a condition proposes for its variable. There is none only next to the end of
the range of integers. -/
def Condition.proposal (c : Condition) : Option Value :=
  match c.relation with
  | .isNull => some (if c.negated then .nonNull else .null)
  | .isNotNull => some (if c.negated then .null else .nonNull)
  | .eq => some (if c.negated then c.value.different else c.value)
  | .ne => some (if c.negated then c.value else c.value.different)
  | .lt | .le =>
    match c.value.asInt with
    | some n => (if c.negated then above? n else below? n).map .int
    | none => some (.int smallDefault)
  | .gt | .ge =>
    match c.value.asInt with
    | some n => (if c.negated then below? n else above? n).map .int
    | none => some (.int largeDefault)
  | .instanceOf => some (if c.negated then .null else c.value.instanceOf)

/-- The proposals of conditions, the later ones in place of the earlier ones. -/
def proposals (b : Bindings) : List Condition → Option Bindings
  | [] => some b
  | c :: rest => c.proposal.bind fun v => proposals (b.insert c.var v) rest

/-- The verdict of the greedy solver. -/
def greedyVerdict (p : Path) : Verdict :=
  match proposals .empty p.conditions with
  | some b => .satisfiedBy b
  | none => .infeasible

/-- The greedy solver. -/
def Solver.greedy : Solver := ⟨"greedy", false, false, greedyVerdict⟩

end Testwright
