import Testwright.Proofs.Sorting
import Testwright.Proofs.Suite.MoreTests

/-!
# The suggestions of a report

The gaps of a method are all that the tests leave out, each path once, and every gap has one
suggestion at its place. A report has the suggestions for all methods, the most urgent first, and
keeps equally urgent ones in the order of the methods and of their gaps. Main statement:
`suggestions_complete_and_ranked`.
-/

namespace Testwright

open Text Source

/-! ## Gaps -/

/-- The feasible paths of an analysis that no test drives, in their order. -/
structure Analysis.Undriven (a : Analysis) (tests : List TestUnit) (paths : List Path) : Prop where
  sublist : paths.Sublist a.paths
  mem_iff : ∀ p, p ∈ paths ↔
    p ∈ a.paths ∧ p.feasible = true ∧ ∀ t ∈ tests, t.covers p = false
  /-- No identifier occurs twice. -/
  nodup_id : (paths.map Path.id).Nodup

section

variable (s : Solver) (method body : String)

theorem nodup_id_analyze : ((analyze s method body).paths.map Path.id).Nodup := by
  have hpaths : (analyze s method body).paths.Nodup := by
    rw [paths_analyze]
    exact nodup_polarities.of_map
  exact hpaths.map_on fun p hp q hq hid => eq_of_id_eq hp hq hid

/-- The gaps are the uncovered sides, then the feasible paths that no test drives. -/
theorem gapsOf_analyze (tests : List TestUnit) :
    ∃ paths, (analyze s method body).Undriven tests paths ∧
      gapsOf tests (analyze s method body) =
        (analyze s method body).uncovered.map .ofSide ++ paths.map .ofPath := by
  have hsub : (((analyze s method body).feasible.filter fun p =>
      !tests.any fun t => t.covers p)).Sublist (analyze s method body).paths :=
    List.filter_sublist.trans List.filter_sublist
  refine ⟨_, ⟨hsub, fun p => ?_, (nodup_id_analyze s method body).sublist (hsub.map _)⟩, rfl⟩
  rw [List.mem_filter, Analysis.feasible, List.mem_filter, and_assoc, Bool.not_eq_true',
    List.any_eq_false]
  simp only [Bool.not_eq_true]

end

/-! ## Suggestions -/

namespace MethodValidation

/-- A suggestion for a gap of a method. How urgent it is depends on the kind of the gap and on the
score of the method. -/
structure Suggests (v : MethodValidation) (gap : CoverageGap) (u : Suggestion) : Prop where
  method_eq : u.method = v.method
  description_eq : u.description = gap.description
  kind_eq : u.kind = if gap.isBranch then .addBranchTest else .addPathTest
  priority_eq : u.priority = 50 + (if gap.isBranch then 20 else 10) + scoreBonus v.score

/-- A validation of a method by tests that leaves no gap out and has one suggestion for each. -/
structure Completes (s : Solver) (tests : List TestUnit) (source : String) (m : MethodInfo)
    (v : MethodValidation) : Prop where
  method_eq : v.method = m.name
  analysis_eq : v.analysis = analyze s m.name (m.bodyIn source)
  score_eq : v.score =
    validationScore tests.length v.analysis.feasiblePaths v.analysis.coverage
  /-- The uncovered sides are those that no feasible path takes. -/
  uncovered_eq : (v.analysis.uncovered.map fun u => (u.index, u.side)) =
    (allSides v.analysis.branches).filter fun e =>
      !v.analysis.paths.any fun path => path.feasible && path.takes e.1 e.2
  gaps_eq : ∃ paths, v.analysis.Undriven tests paths ∧
    v.gaps = v.analysis.uncovered.map .ofSide ++ paths.map .ofPath
  /-- The suggestions correspond to the gaps one by one. -/
  suggestions : List.Forall₂ v.Suggests v.gaps v.suggestions

end MethodValidation

theorem validateUnits_suggests (s : Solver) (tests : List TestUnit) (method body : String)
    (gap : CoverageGap) :
    (validateUnits s tests method body).Suggests gap
      (gap.suggest (analyze s method body)
        (basePriority + gap.priority + scoreBonus (validateUnits s tests method body).score)) := by
  cases gap <;> exact ⟨rfl, rfl, rfl, rfl⟩

theorem validateUnits_completes (s : Solver) (tests : List TestUnit) (source : String)
    (m : MethodInfo) :
    (validateUnits s tests m.name (m.bodyIn source)).Completes s tests source m where
  method_eq := rfl
  analysis_eq := rfl
  score_eq := rfl
  uncovered_eq := uncovered_eq_filter s m.name (m.bodyIn source)
  gaps_eq := gapsOf_analyze s m.name (m.bodyIn source) tests
  suggestions := by
    rw [suggestions_validateUnits, List.forall₂_map_right_iff, List.forall₂_same]
    exact fun gap _ => validateUnits_suggests s tests m.name (m.bodyIn source) gap

/-- **The suggestions of a report are complete and ranked.** The methods that have a body are
validated in their order. The gaps of each are the uncovered sides and then the feasible paths that
no test drives, in the order of the paths and each identifier once, and each gap has its suggestion
at the same place. The report has these suggestions by descending priority, and those of the same
priority in the order of the methods and of their gaps. -/
theorem suggestions_complete_and_ranked (s : Solver) (sources : List String) (source : String)
    (c : ClassInfo) :
    let r := validateClass s sources source c
    List.Forall₂ (MethodValidation.Completes s (sources.flatMap testUnits) source)
        (c.methods.filter fun m => !(m.bodyIn source).isEmpty) r.validations ∧
      Ranked Suggestion.priority (r.validations.flatMap MethodValidation.suggestions)
        r.suggestions := by
  refine ⟨?_, ranked_mergeSort Suggestion.priority _⟩
  show List.Forall₂ _ _ (validateMethods s (sources.flatMap testUnits) source c.methods)
  rw [validateMethods_eq_map, List.forall₂_map_right_iff, List.forall₂_same]
  exact fun m _ => validateUnits_completes s (sources.flatMap testUnits) source m

/-- Without tests both paths of `meter` are gaps. Their suggestions are equally urgent and stay in the
order of the paths. -/
theorem meter_suggestions_ranked :
    ∃ v high low, (validateClass .exact [] "" meter).validations = [v] ∧
      v.gaps = [highGap, lowGap] ∧ v.Suggests highGap high ∧ v.Suggests lowGap low ∧
      (validateClass .exact [] "" meter).suggestions = [high, low] := by
  obtain ⟨hvalidations, hranked⟩ := suggestions_complete_and_ranked .exact [] "" meter
  let v := validateUnits .exact [] "level" meterBody
  have hv : (validateClass .exact [] "" meter).validations = [v] := validations_meter []
  rw [hv] at hvalidations hranked
  obtain ⟨m, hcompletes⟩ : ∃ m, v.Completes .exact [] "" m := by
    cases hvalidations with
    | cons h _ => exact ⟨_, h⟩
  obtain ⟨high, low, hsuggestions, -⟩ := suggestions_meter
  have hsuggests := hcompletes.suggestions
  rw [gaps_meter, hsuggestions] at hsuggests
  obtain ⟨hhigh, hrest⟩ := List.forall₂_cons.mp hsuggests
  have hlow := (List.forall₂_cons.mp hrest).1
  refine ⟨v, high, low, hv, gaps_meter, hhigh, hlow, ?_⟩
  -- both have the priority of a path gap of the method, and those of one priority keep their order
  have hsame : low.priority = high.priority := hlow.priority_eq.trans hhigh.priority_eq.symm
  have hall : [v].flatMap MethodValidation.suggestions = [high, low] := by
    rw [List.flatMap_singleton, hsuggestions]
  rw [hall] at hranked
  have hstable := hranked.stable high.priority
  rw [List.filter_eq_self.mpr, List.filter_eq_self.mpr] at hstable
  · exact hstable
  · simp [hsame]
  · intro u hu
    have hmem := hranked.perm.subset hu
    simp only [List.mem_cons, List.not_mem_nil, or_false] at hmem
    rcases hmem with rfl | rfl
    · simp
    · simp [hsame]

end Testwright
