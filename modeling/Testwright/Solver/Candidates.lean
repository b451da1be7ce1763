import Testwright.Solver.Greedy

/-!
# Candidates

A finite set of values that stands for all values of a variable: the literals it is compared with,
their neighbours, the objects of the types it is tested for, `null`, and some other object.
-/

namespace Testwright

/-- The values that a condition adds to the candidates of its variable. -/
def Condition.candidates (c : Condition) : List Value :=
  match c.relation with
  | .isNull | .isNotNull => []
  | .instanceOf => [c.value.instanceOf]
  | .eq | .ne =>
    c.value :: c.value.different :: ((c.value.asInt.bind below?).map Value.int).toList
  | .lt | .le | .gt | .ge =>
    match c.value.asInt with
    | some n => .int n :: (((below? n).map Value.int).toList ++ ((above? n).map Value.int).toList)
    | none => [.int smallDefault, .int largeDefault]

/-- The candidates for a variable under some conditions, ascending and without repetition. -/
def candidates (cs : List Condition) : List Value :=
  (cs.flatMap Condition.candidates).foldl (fun l v => v.insertInto l) [.null, .nonNull]

end Testwright
