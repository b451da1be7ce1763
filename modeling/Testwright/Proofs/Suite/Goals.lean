import Testwright.Proofs.Analysis.Enumeration
import Testwright.Proofs.Analysis.Suggested
import Testwright.Proofs.Path.Condition
import Testwright.Proofs.Solver.Exact
import Testwright.Proofs.Solver.Greedy
import Testwright.Suite.Validation

/-!
# Goals of suggested tests

The suggestion for a side of a branch arranges inputs and asks for a call that takes this side. The
inputs are those of feasible paths, and the side is one that no feasible path takes, so each of them
comes from a path on the other side. Main statement: `branch_suggestion_contradicts_goal_iff`.
-/

namespace Testwright

open Text Source

/-! ## The two sides of a comparison -/

namespace Condition

variable {c : Condition} {v : Value}

/-- The other side of the comparison. -/
def opposite (c : Condition) : Condition := { c with negated := !c.negated }

/-- Whether a value is compared by size with an integer and is none. It meets neither side. -/
def mistyped (c : Condition) (v : Value) : Bool :=
  c.relation.isOrdering && c.value.asInt.isSome && v.asInt.isNone

theorem holds_opposite (h : c.mistyped v = false) : c.opposite.holds v = (c.holds v).map (!·) := by
  have hsame : c.opposite.mistyped v = false := h
  have hcompares : c.opposite.compares v = c.compares v := rfl
  unfold mistyped at h hsame
  rw [holds, holds, if_neg (by rw [hsame]; exact Bool.false_ne_true),
    if_neg (by rw [h]; exact Bool.false_ne_true), hcompares, Option.map_map]
  refine congrArg (Option.map · _) (funext fun b => ?_)
  show (b != !c.negated) = !(b != c.negated)
  cases b <;> cases c.negated <;> rfl

theorem holds_of_mistyped (h : c.mistyped v = true) : c.holds v = some false := if_pos h

/-- A value fails to meet one side because it meets the other one, or because it meets none. -/
theorem holds_eq_some_false_iff :
    c.holds v = some false ↔ c.opposite.holds v = some true ∨ c.mistyped v = true := by
  cases htype : c.mistyped v with
  | true => simp [holds_of_mistyped htype]
  | false => simp [holds_opposite htype, Option.map_eq_some_iff]

/-- A value that one side admits does not meet the other one. -/
theorem holds_ne_of_admits_opposite (h : c.opposite.admits v = true) : c.holds v ≠ some true := by
  intro htrue
  cases htype : c.mistyped v with
  | true =>
      rw [holds_of_mistyped htype] at htrue
      cases htrue
  | false =>
      refine admits_iff.mp h ?_
      rw [holds_opposite htype, htrue]
      rfl

end Condition

/-! ## Suggested inputs -/

/-- The suggested value of a variable is the one to which the first feasible path binds it. -/
theorem find?_firstInputs (a : Analysis) (x : String) :
    (firstInputs a).find? x = a.feasible.findSome? fun p => p.inputs.find? x := by
  rw [firstInputs, NameMap.find?_filterMap]
  show (a.suggestedInputs.find? x).bind List.head? = (a.paths.filter Path.feasible).findSome? _
  rw [← (gathered_suggestedInputs a x).head?_eq]
  cases a.suggestedInputs.find? x <;> rfl

/-! ## Feasible paths take the other side -/

variable {s : Solver} {method body : String}

/-- Each feasible path has, among its conditions, the other side of a side that none takes. -/
theorem opposite_mem_conditions {ps : List Predicate} {u : UncoveredSide} {p : Path}
    (hu : u ∈ uncoveredSides ps (solvedPaths s method ps)) (hp : p ∈ solvedPaths s method ps)
    (hfeasible : p.feasible = true) : u.condition.opposite ∈ p.conditions := by
  obtain ⟨⟨pr, j⟩, hpr, hsides⟩ := List.mem_flatMap.mp hu
  obtain ⟨side, hside, rfl⟩ := List.mem_map.mp hsides
  obtain ⟨-, huncovered⟩ := List.mem_filter.mp hside
  obtain ⟨mask, hmask, rfl⟩ := mem_solvedPaths.mp hp
  -- the path stands at its number among the paths
  have hplace : ((pathAt method ps mask).solved s, mask) ∈ (solvedPaths s method ps).zipIdx := by
    rw [List.mem_zipIdx_iff_getElem?, solvedPaths, List.getElem?_map, List.getElem?_range hmask]
    rfl
  have hother : takesFalseSide mask j = !side.negates := by
    rw [Bool.not_eq_true', isCovered, List.any_eq_false] at huncovered
    have hnot := huncovered _ hplace
    dsimp only at hnot
    rw [hfeasible, Bool.true_and, beq_iff_eq] at hnot
    exact Bool.eq_not_of_ne hnot
  exact List.mem_map.mpr ⟨(pr, j), hpr, congrArg pr.condition hother⟩

/-! ## Suggestions -/

/-- The gap of a side is that of one that no feasible path takes. -/
theorem exists_side_of_mem_gapsOf {tests : List TestUnit} {a : Analysis} {line : LineNumber}
    {side : BranchSide} {c : Condition} {d : String}
    (h : CoverageGap.uncoveredBranch line side c d ∈ gapsOf tests a) :
    ∃ u ∈ a.uncovered, u.condition = c := by
  rcases List.mem_append.mp h with hside | hpath
  · obtain ⟨u, hu, hof⟩ := List.mem_map.mp hside
    cases hof
    exact ⟨u, hu, rfl⟩
  · obtain ⟨p, -, hof⟩ := List.mem_map.mp hpath
    cases hof

section

variable {testSource : String} {k : Nat} {line : LineNumber} {side : BranchSide} {c : Condition}
  {d : String} {sug : Suggestion}

/-- The suggestion for a gap stands at the place of the gap. -/
theorem exists_suggestion {gap : CoverageGap}
    (h : (validateMethod s testSource method body).gaps[k]? = some gap) :
    ∃ priority, (validateMethod s testSource method body).suggestions[k]? =
      some (gap.suggest (analyze s method body) priority) := by
  rw [validateMethod] at h ⊢
  rw [suggestions_validateUnits, List.getElem?_map, h]
  exact ⟨_, rfl⟩

/-- The suggestion for a side of a branch gives its variable what the first feasible path gives it,
and all feasible paths take the other side. -/
theorem inputs_of_branch_suggestion
    (hgap : (validateMethod s testSource method body).gaps[k]? =
      some (.uncoveredBranch line side c d))
    (hsug : (validateMethod s testSource method body).suggestions[k]? = some sug) :
    sug.inputs.find? c.var =
        (analyze s method body).feasible.findSome? (fun p => p.inputs.find? c.var) ∧
      ∀ p ∈ (analyze s method body).feasible, c.opposite ∈ p.conditions := by
  have hinputs : sug.inputs = firstInputs (analyze s method body) := by
    obtain ⟨priority, hplace⟩ := exists_suggestion hgap
    rw [hsug] at hplace
    cases hplace
    rfl
  obtain ⟨u, hu, rfl⟩ := exists_side_of_mem_gapsOf (List.mem_of_getElem? hgap)
  refine ⟨?_, fun p hp => ?_⟩
  · rw [hinputs, find?_firstInputs]
  · obtain ⟨hpath, hfeasible⟩ := List.mem_filter.mp hp
    rw [uncovered_analyze] at hu
    rw [paths_analyze] at hpath
    exact opposite_mem_conditions hu hpath hfeasible

/-- **When a suggested test contradicts its goal.** The suggestion for a side of a branch gives its
variable what the first feasible path gives it, and all feasible paths take the other side. So the
value fails to meet the goal exactly when it meets the other side, or is no integer where one is
compared by size. If the feasible paths admit what the solver binds, then the value never meets the
goal, and it contradicts the goal unless nothing can be said about it. -/
theorem branch_suggestion_contradicts_goal_iff
    (hgap : (validateMethod s testSource method body).gaps[k]? =
      some (.uncoveredBranch line side c d))
    (hsug : (validateMethod s testSource method body).suggestions[k]? = some sug) :
    sug.inputs.find? c.var =
        (analyze s method body).feasible.findSome? (fun p => p.inputs.find? c.var) ∧
      (∀ p ∈ (analyze s method body).feasible, c.opposite ∈ p.conditions) ∧
      (∀ v, sug.inputs.find? c.var = some v →
        (c.holds v = some false ↔ c.opposite.holds v = some true ∨ c.mistyped v = true)) ∧
      ((∀ p ∈ (analyze s method body).feasible, p.admits p.inputs = true) →
        ∀ v, sug.inputs.find? c.var = some v →
          c.holds v ≠ some true ∧ (c.holds v = some false ↔ (c.holds v).isSome = true)) := by
  obtain ⟨hfind, hother⟩ := inputs_of_branch_suggestion hgap hsug
  refine ⟨hfind, hother, fun v _ => Condition.holds_eq_some_false_iff, fun hsound v hv => ?_⟩
  rw [hfind] at hv
  obtain ⟨p, hp, hbound⟩ := List.exists_of_findSome?_eq_some hv
  have hadmits : c.opposite.admits v = true := by
    have hall := List.all_eq_true.mp (hsound p hp) _ (hother p hp)
    have hvalue : p.inputs.find? c.opposite.var = some v := hbound
    rw [hvalue] at hall
    exact hall
  have hnever := Condition.holds_ne_of_admits_opposite hadmits
  refine ⟨hnever, ?_⟩
  cases hholds : c.holds v with
  | none => simp
  | some b =>
      cases b with
      | true => exact absurd hholds hnever
      | false => simp

/-- The body of a method that guards against `null` and then compares with zero. -/
def guardedBody : String :=
  "\x7b\n    if (x == null) \x7b\n        return 0;\n    \x7d\n" ++
    "    if (x > 0) \x7b\n        return 1;\n    \x7d\n" ++
    "    if (x < 0) \x7b\n        return -1;\n    \x7d\n    return 0;\n\x7d"

/-- Its predicates. -/
def guardedPredicates : List Predicate :=
  [⟨2, "x", .isNull, .null⟩, ⟨5, "x", .gt, .int 0⟩, ⟨8, "x", .lt, .int 0⟩]

theorem analyze_guarded :
    analyze .exact "sign" guardedBody = analyzePredicates .exact "sign" guardedPredicates 3 := by
  have hparts : (predicates guardedBody, countSites guardedBody) = (guardedPredicates, 3) := by
    decide +kernel
  obtain ⟨hpredicates, hsites⟩ := Prod.mk.inj hparts
  rw [analyze, hpredicates, hsites]

/-- The side of its first branch that no feasible path takes, as `null` has no order. -/
def nullGoal : Condition := ⟨"x", .isNull, .null, false⟩

/-- Its gap. -/
def nullGap : CoverageGap :=
  .uncoveredBranch 2 .whenTrue nullGoal "Uncovered branch at line 2 true_branch: x == null"

theorem gap_guarded : (validateMethod .exact "" "sign" guardedBody).gaps[0]? = some nullGap := by
  show (gapsOf (testUnits "") (analyze .exact "sign" guardedBody))[0]? = _
  rw [analyze_guarded]
  decide +kernel

theorem exists_suggestion_guarded :
    ∃ sug, (validateMethod .exact "" "sign" guardedBody).suggestions[0]? = some sug ∧
      sug.kind = .addBranchTest ∧ sug.inputs.find? "x" = some (.int (-1)) := by
  have hinput : (firstInputs (analyze .exact "sign" guardedBody)).find? "x" = some (.int (-1)) := by
    rw [analyze_guarded]
    decide +kernel
  have hsuggest : ∀ a priority, (nullGap.suggest a priority).kind = .addBranchTest ∧
      (nullGap.suggest a priority).inputs = firstInputs a := fun _ _ => ⟨rfl, rfl⟩
  obtain ⟨priority, hsug⟩ := exists_suggestion gap_guarded
  obtain ⟨hkind, hinputs⟩ := hsuggest (analyze .exact "sign" guardedBody) priority
  rw [← hinputs] at hinput
  exact ⟨_, hsug, hkind, hinput⟩

/-- A test that is suggested for `null` gives the value -1 to the variable. -/
theorem guarded_suggestion_contradicts_goal :
    ∃ sug, (validateMethod .exact "" "sign" guardedBody).gaps[0]? = some nullGap ∧
      (validateMethod .exact "" "sign" guardedBody).suggestions[0]? = some sug ∧
      sug.kind = .addBranchTest ∧ nullGoal.holds .null = some true ∧
      sug.inputs.find? nullGoal.var = some (.int (-1)) ∧
      nullGoal.holds (.int (-1)) = some false := by
  obtain ⟨sug, hsug, hkind, hinput⟩ := exists_suggestion_guarded
  exact ⟨sug, gap_guarded, hsug, hkind, by decide, hinput, by decide⟩

/-- The value -1 comes from a feasible path that takes the other side. -/
theorem guarded_suggestion_takes_other_side :
    ∃ sug, (validateMethod .exact "" "sign" guardedBody).suggestions[0]? = some sug ∧
      sug.inputs.find? nullGoal.var = some (.int (-1)) ∧
      (nullGoal.holds (.int (-1)) = some false ↔ nullGoal.opposite.holds (.int (-1)) = some true ∨
        nullGoal.mistyped (.int (-1)) = true) ∧
      (∀ p ∈ (analyze .exact "sign" guardedBody).feasible, p.admits p.inputs = true) ∧
      nullGoal.holds (.int (-1)) ≠ some true := by
  obtain ⟨sug, hsug, -, hinput⟩ := exists_suggestion_guarded
  obtain ⟨-, -, hiff, hsound⟩ := branch_suggestion_contradicts_goal_iff gap_guarded hsug
  have hadmits : ∀ p ∈ (analyze .exact "sign" guardedBody).feasible, p.admits p.inputs = true := by
    rw [analyze_guarded]
    decide +kernel
  exact ⟨sug, hsug, hinput, hiff _ hinput, hadmits, (hsound hadmits _ hinput).1⟩

end

/-- With the greedy solver a suggestion misses its goal as well, unless a later predicate is about
the same variable. -/
theorem greedy_suggestion_misses_goal {testSource : String} {k : Nat} {line : LineNumber}
    {side : BranchSide} {c : Condition} {d : String} {sug : Suggestion}
    (hgap : (validateMethod .greedy testSource method body).gaps[k]? =
      some (.uncoveredBranch line side c d))
    (hsug : (validateMethod .greedy testSource method body).suggestions[k]? = some sug)
    (hlast : ∀ p ∈ (analyze .greedy method body).feasible,
      (conditionsOn p.conditions c.var).getLast? = some c.opposite)
    {v : Value} (hv : sug.inputs.find? c.var = some v) : c.holds v ≠ some true := by
  obtain ⟨hfind, -⟩ := inputs_of_branch_suggestion hgap hsug
  rw [hfind] at hv
  obtain ⟨p, hp, hbound⟩ := List.exists_of_findSome?_eq_some hv
  have hlast' := hlast p hp
  obtain ⟨hpath, hfeasible⟩ := List.mem_filter.mp hp
  rw [paths_analyze] at hpath
  obtain ⟨mask, -, rfl⟩ := mem_solvedPaths.mp hpath
  let q := pathAt method (predicates body) mask
  have hproposals : ∃ b, proposals .empty q.conditions = some b ∧ (greedyVerdict q).bindings = b := by
    have hverdict : (greedyVerdict q).feasible = true := hfeasible
    rw [greedyVerdict] at hverdict ⊢
    cases hb : proposals .empty q.conditions with
    | none =>
        rw [hb] at hverdict
        cases hverdict
    | some b => exact ⟨b, rfl, rfl⟩
  obtain ⟨b, hb, hbindings⟩ := hproposals
  have hvalue : b.find? c.var = some v := hbindings ▸ hbound
  have hlastq : (conditionsOn q.conditions c.var).getLast? = some c.opposite := hlast'
  rw [find?_proposals hb, hlastq] at hvalue
  exact Condition.holds_ne_of_admits_opposite (Condition.admits_of_proposal hvalue)

end Testwright
