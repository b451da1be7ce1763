import Mathlib.Data.List.Forall2
import Testwright.Proofs.Decimal.Arithmetic
import Testwright.Proofs.Suite.Suggestions

/-!
# More tests never make a validation worse

Test sources are put anywhere among others. For each method the analysis stays as it is, gaps can
only disappear, the score is not lowered, and a suggestion that remains is not more urgent than it
was (`more_tests_no_worse`).
-/

namespace Testwright

open Text Source

/-! ## Scores -/

/-- A score is not lower than another one: what it is below, the other one is below, too. -/
def NotLower (score' score : Float) : Prop := ∀ bound, score' < bound → score < bound

section

variable {score score' ratio ratio' coverage : Float} {m n : Nat}

theorem NotLower.of_le (h : score ≤ score') : NotLower score' score :=
  fun _ hlt => Decimal.lt_of_le_of_lt h hlt

theorem NotLower.of_isNaN (h : score'.isNaN = true) : NotLower score' score := by
  intro bound hlt
  have hnumber := (Decimal.isNaN_of_lt hlt).1
  rw [h] at hnumber
  cases hnumber

theorem NotLower.not_lt (h : NotLower score' score) : ¬ score' < score :=
  fun hlt => Decimal.lt_irrefl (h score hlt)

/-- A score that is not lower adds no more to the priorities. -/
theorem NotLower.scoreBonus_le (h : NotLower score' score) :
    scoreBonus score' ≤ scoreBonus score := by
  have h50 := h 50
  have h70 := h 70
  unfold scoreBonus
  split
  · rename_i hlow
    rw [if_pos (h50 hlow)]
  · split
    · rename_i hmiddle
      rw [if_pos (h70 hmiddle)]
      split <;> omega
    · exact Nat.zero_le _

theorem atMostOne_le (hratio : 0 ≤ ratio) (h : ratio ≤ ratio') :
    0 ≤ (if 1 < ratio then 1 else ratio) ∧
      (if 1 < ratio then 1 else ratio) ≤ if 1 < ratio' then 1 else ratio' := by
  have hone : (1 : Float).isNaN = false := by decide +kernel
  by_cases hlarge : 1 < ratio
  · rw [if_pos hlarge, if_pos (Decimal.lt_of_lt_of_le hlarge h)]
    exact ⟨by decide +kernel, Decimal.le_refl hone⟩
  · rw [if_neg hlarge]
    refine ⟨hratio, ?_⟩
    split
    · exact Decimal.le_of_not_lt hone (Decimal.isNaN_of_le h).1 hlarge
    · exact h

/-- The number of feasible paths is a divisor between 1 and 16. -/
theorem isPositive_toFloat (hpos : 1 ≤ n) (hle : n ≤ 16) : Decimal.IsPositive n.toFloat := by
  have hleast : 0 < Decimal.place (1 : Nat).toFloat := by decide +kernel
  have hmost : Decimal.place (16 : Nat).toFloat < Decimal.topPlace := by decide +kernel
  obtain ⟨-, hlower⟩ := Decimal.toFloat_le hpos
  obtain ⟨-, hupper⟩ := Decimal.toFloat_le hle
  obtain ⟨hnumber₁, hnumber⟩ := Decimal.isNaN_of_le hlower
  obtain ⟨-, hnumber₁₆⟩ := Decimal.isNaN_of_le hupper
  exact ⟨hnumber, hleast.trans_le ((Decimal.le_iff_place_le hnumber₁ hnumber).mp hlower),
    ((Decimal.le_iff_place_le hnumber hnumber₁₆).mp hupper).trans_lt hmost⟩

theorem validationScore_le {feasible : Nat} (hmn : m ≤ n) (hfeasible : feasible ≤ 16)
    (hcoverage : 0 ≤ coverage) :
    validationScore m feasible coverage ≤ validationScore n feasible coverage := by
  have hdivisor : Decimal.IsPositive (max feasible 1).toFloat :=
    isPositive_toFloat (le_max_right _ _) (by omega)
  have htests : Decimal.IsPositive 0.4 :=
    ⟨by decide +kernel, by decide +kernel, by decide +kernel⟩
  have hpaths : Decimal.IsPositive 0.6 :=
    ⟨by decide +kernel, by decide +kernel, by decide +kernel⟩
  have hscale : Decimal.IsPositive 100 :=
    ⟨by decide +kernel, by decide +kernel, by decide +kernel⟩
  obtain ⟨hm, hmn'⟩ := Decimal.toFloat_le hmn
  obtain ⟨hratio, hle⟩ := Decimal.div_le_div_right hdivisor hm hmn'
  obtain ⟨hcapped, hle⟩ := atMostOne_le hratio hle
  obtain ⟨hpart, hle⟩ := Decimal.mul_le_mul_left htests hcapped hle
  have hrest := (Decimal.mul_le_mul_left hpaths hcoverage
    (Decimal.le_refl (Decimal.isNaN_of_le hcoverage).2)).1
  obtain ⟨hsum, hle⟩ := Decimal.add_le_add_right hrest hpart hle
  exact (Decimal.mul_le_mul_left hscale hsum hle).2

theorem isNaN_validationScore {feasible : Nat} (h : coverage.isNaN = true) :
    (validationScore n feasible coverage).isNaN = true :=
  Decimal.isNaN_mul (Decimal.isNaN_add (Decimal.isNaN_mul h))

end

namespace Analysis

/-- The share of the sides that some feasible path takes, as a double, is a number that is not
negative, unless there are more sides than doubles reach. -/
theorem isNaN_coverage_or_nonneg (a : Analysis) : a.coverage.isNaN = true ∨ 0 ≤ a.coverage := by
  rw [coverage]
  split
  · exact .inr (by decide +kernel)
  · have hone : (1 : Float) ≤ (1 : Nat).toFloat := by decide +kernel
    have hsides : (1 : Float) ≤ (2 * a.branches).toFloat :=
      Decimal.le_trans hone (Decimal.toFloat_le (by omega)).2
    exact Decimal.isNaN_div_or_nonneg (Decimal.toFloat_le (Nat.le_refl _)).1 hsides

theorem feasiblePaths_le (s : Solver) (method body : String) :
    (analyze s method body).feasiblePaths ≤ 16 := by
  have hpaths : (analyze s method body).paths.length = pathCount (Source.predicates body).length := by
    rw [paths_analyze, solvedPaths, List.length_map, List.length_range]
  have hle : pathCount (Source.predicates body).length ≤ 16 := Nat.min_le_right _ _
  exact (List.length_filter_le _ _).trans (hpaths ▸ hle)

/-- The share of the sides that some feasible path takes. -/
def exactCoverage (a : Analysis) : ℚ :=
  if a.branches = 0 then 1
  else (2 * a.branches - a.uncovered.length : Nat) / (2 * a.branches : Nat)

end Analysis

/-- The score of a method, without rounding. -/
def exactScore (tests feasible : Nat) (coverage : ℚ) : ℚ :=
  100 * (2 / 5 * min (tests / (max feasible 1 : Nat)) 1 + 3 / 5 * coverage)

theorem exactScore_le {m n : Nat} (h : m ≤ n) (feasible : Nat) (coverage : ℚ) :
    exactScore m feasible coverage ≤ exactScore n feasible coverage := by
  unfold exactScore
  gcongr

/-! ## Gaps -/

/-- Whether a gap is a side of a predicate. -/
def CoverageGap.isBranch : CoverageGap → Bool
  | uncoveredBranch .. => true
  | uncoveredPath .. => false

namespace MethodValidation

/-- The sides that no feasible path takes. -/
def branchGaps (v : MethodValidation) : List CoverageGap := v.gaps.filter CoverageGap.isBranch

/-- The feasible paths that no test drives. -/
def pathGaps (v : MethodValidation) : List CoverageGap := v.gaps.filter fun g => !g.isBranch

/-- The score without rounding. -/
def exactScore (v : MethodValidation) : ℚ :=
  Testwright.exactScore v.testCount v.analysis.feasiblePaths v.analysis.exactCoverage

end MethodValidation

/-- A suggestion is another one with a priority that is not higher. -/
def Suggestion.Eases (u' u : Suggestion) : Prop :=
  u' = { u with priority := u'.priority } ∧ u'.priority ≤ u.priority

/-- A validation of the same method that is nowhere worse than another one. -/
structure MethodValidation.NoWorse (v v' : MethodValidation) : Prop where
  method_eq : v'.method = v.method
  analysis_eq : v'.analysis = v.analysis
  branchGaps_eq : v'.branchGaps = v.branchGaps
  pathGaps : v'.pathGaps.Sublist v.pathGaps
  exactScore_le : v.exactScore ≤ v'.exactScore
  /-- With rounding the score is not lower either. -/
  score : NotLower v'.score v.score
  /-- The suggestions that remain are in their order. -/
  suggestions : List.SublistForall₂ Suggestion.Eases v'.suggestions v.suggestions
  /-- No suggestion remains with a higher priority. -/
  priority_le : ∀ u ∈ v.suggestions, ∀ u' ∈ v'.suggestions,
    u' = { u with priority := u'.priority } → u'.priority ≤ u.priority

section

variable {tests : List TestUnit} {a : Analysis}

theorem branchGaps_gapsOf : (gapsOf tests a).filter CoverageGap.isBranch =
    a.uncovered.map .ofSide := by
  have hsides : (a.uncovered.map CoverageGap.ofSide).filter CoverageGap.isBranch =
      a.uncovered.map .ofSide := by
    refine List.filter_eq_self.mpr fun gap hgap => ?_
    obtain ⟨u, -, rfl⟩ := List.mem_map.mp hgap
    rfl
  have hpaths : ∀ ps : List Path,
      (ps.map CoverageGap.ofPath).filter CoverageGap.isBranch = [] := by
    intro ps
    refine List.filter_eq_nil_iff.mpr fun gap hgap => ?_
    obtain ⟨p, -, rfl⟩ := List.mem_map.mp hgap
    exact Bool.false_ne_true
  rw [gapsOf, List.filter_append, hsides, hpaths, List.append_nil]

theorem suggest_eases {gap : CoverageGap} {high low : Nat} (h : low ≤ high) :
    (gap.suggest a low).Eases (gap.suggest a high) := by
  cases gap <;> exact ⟨rfl, h⟩

/-- The gap priority can be read off the kind of a suggestion. -/
theorem priority_eq_of_kind {gap gap' : CoverageGap} {p p' : Nat}
    (h : (gap'.suggest a p').kind = (gap.suggest a p).kind) : gap'.priority = gap.priority := by
  cases gap <;> cases gap' <;> first | rfl | cases h

theorem priority_suggest (gap : CoverageGap) (p : Nat) : (gap.suggest a p).priority = p := by
  cases gap <;> rfl

theorem sublistForall₂_map {α β : Type} {R : β → β → Prop} {f g : α → β} {l l' : List α}
    (hsub : l'.Sublist l) (h : ∀ x, R (g x) (f x)) :
    List.SublistForall₂ R (l'.map g) (l.map f) :=
  List.sublistForall₂_iff.mpr ⟨l'.map f, List.forall₂_map_left_iff.mpr
    (List.forall₂_map_right_iff.mpr (List.forall₂_same.mpr fun x _ => h x)), hsub.map f⟩

end

/-- More test methods do not make the validation of a method worse. -/
theorem validateUnits_noWorse (s : Solver) {tests more : List TestUnit}
    (h : tests.Sublist more) (method body : String) :
    (validateUnits s tests method body).NoWorse (validateUnits s more method body) := by
  let a := analyze s method body
  let score := validationScore tests.length a.feasiblePaths a.coverage
  let score' := validationScore more.length a.feasiblePaths a.coverage
  have hgaps : (gapsOf more a).Sublist (gapsOf tests a) := gapsOf_sublist h.subset a
  have hscore : NotLower score' score := by
    rcases a.isNaN_coverage_or_nonneg with hnone | hcoverage
    · exact .of_isNaN (isNaN_validationScore hnone)
    · exact .of_le (validationScore_le h.length_le (Analysis.feasiblePaths_le s method body)
        hcoverage)
  have hbonus := hscore.scoreBonus_le
  refine ⟨rfl, rfl, ?_, hgaps.filter _, exactScore_le h.length_le _ _, hscore, ?_, ?_⟩
  · exact branchGaps_gapsOf.trans branchGaps_gapsOf.symm
  · rw [suggestions_validateUnits, suggestions_validateUnits]
    exact sublistForall₂_map hgaps fun gap => suggest_eases (Nat.add_le_add_left hbonus _)
  · intro u hu u' hu' hsame
    rw [suggestions_validateUnits] at hu hu'
    obtain ⟨gap, -, rfl⟩ := List.mem_map.mp hu
    obtain ⟨gap', -, rfl⟩ := List.mem_map.mp hu'
    have hpriority : gap'.priority = gap.priority := priority_eq_of_kind (by rw [hsame])
    rw [priority_suggest, priority_suggest, hpriority]
    exact Nat.add_le_add_left hbonus _

/-- **More tests never make a validation worse.** Whatever test sources are added among others, and
at whatever places, the methods of the class are validated as before, one by one: with the same
analysis and the same gaps of branches, with a part of the gaps of paths, with a score that is not
lower, and with a part of the suggestions, none of which becomes more urgent. -/
theorem more_tests_no_worse (s : Solver) {sources more : List String} (h : sources.Sublist more)
    (source : String) (c : ClassInfo) :
    List.Forall₂ MethodValidation.NoWorse (validateClass s sources source c).validations
      (validateClass s more source c).validations := by
  have hunits : (sources.flatMap testUnits).Sublist (more.flatMap testUnits) := h.flatMap _
  show List.Forall₂ _ (validateMethods s _ source c.methods) (validateMethods s _ source c.methods)
  rw [validateMethods_eq_map, validateMethods_eq_map, List.forall₂_map_left_iff,
    List.forall₂_map_right_iff, List.forall₂_same]
  exact fun m _ => validateUnits_noWorse s hunits m.name (m.bodyIn source)

/-- A test source that drives the path on the true side. -/
def highTest : String := "@Test void high() \x7b var x = 7; assertEquals(1, meter.level(x)); \x7d"

/-- With this test the first of the two gaps is closed. -/
theorem meter_no_worse :
    ([] : List String).Sublist [highTest] ∧ ∃ v v',
      (validateClass .exact [] "" meter).validations = [v] ∧
      (validateClass .exact [highTest] "" meter).validations = [v'] ∧
      v.NoWorse v' ∧ v.gaps = [highGap, lowGap] ∧ v'.gaps = [lowGap] := by
  have hsub : ([] : List String).Sublist [highTest] := List.nil_sublist _
  have hgaps : (validateUnits .exact ([highTest].flatMap testUnits) "level" meterBody).gaps =
      [lowGap] := by
    show gapsOf ([highTest].flatMap testUnits) (analyze .exact "level" meterBody) = _
    decide +kernel
  have hall := more_tests_no_worse .exact hsub "" meter
  rw [validations_meter, validations_meter] at hall
  exact ⟨hsub, _, _, validations_meter [], validations_meter [highTest],
    (List.forall₂_cons.mp hall).1, gaps_meter, hgaps⟩

end Testwright
