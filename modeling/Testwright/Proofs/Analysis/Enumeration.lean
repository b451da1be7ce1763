import Mathlib.Data.Nat.Bitwise
import Mathlib.Data.List.Nodup
import Testwright.Analysis

/-!
# The paths of a method and what they cover

The number of a path is read as a word of bits, one for each predicate: a set bit takes the
predicate on its false side. Main statement: which sides the examined paths combine, and that the
uncovered sides are those that no feasible one of them takes, whatever solver judges the paths
(`analyze_enumerates`).
-/

namespace Testwright

/-! ## The numbers of paths -/

theorem combinations_of_lt {branches : Nat} (h : branches < 64) :
    combinations branches = 2 ^ branches := by
  rw [combinations, if_pos h, Nat.one_shiftLeft]

theorem maxPaths_lt_combinations {branches : Nat} (h : 4 < branches) :
    maxPaths < combinations branches := by
  by_cases hword : branches < 64
  · rw [combinations_of_lt hword]
    exact Nat.pow_lt_pow_right (a := 2) (by decide) h
  · rw [combinations, if_neg hword]
    decide

/-- The first four predicates are taken on both sides, in all combinations. -/
theorem pathCount_eq_two_pow (branches : Nat) : pathCount branches = 2 ^ min branches 4 := by
  by_cases h : branches ≤ 4
  · have hle : 2 ^ branches ≤ maxPaths := Nat.pow_le_pow_right (by decide) h
    rw [pathCount, combinations_of_lt (by omega), Nat.min_eq_left hle, Nat.min_eq_left h]
  · rw [pathCount, Nat.min_eq_right (maxPaths_lt_combinations (by omega)).le,
      Nat.min_eq_right (by omega)]
    rfl

/-- All combinations are examined as long as they are no more than sixteen. -/
theorem pathCount_eq_min (branches : Nat) : pathCount branches = min (2 ^ branches) 16 := by
  rw [pathCount_eq_two_pow]
  rcases le_total branches 4 with h | h
  · have hle : 2 ^ branches ≤ 16 := Nat.pow_le_pow_right (n := 2) (by decide) h
    rw [Nat.min_eq_left h, Nat.min_eq_left hle]
  · have hge : 16 ≤ 2 ^ branches := Nat.pow_le_pow_right (n := 2) (by decide) h
    rw [Nat.min_eq_right h, Nat.min_eq_right hge]
    rfl

theorem pathCount_lt_combinations_iff {branches : Nat} :
    pathCount branches < combinations branches ↔ 4 < branches := by
  constructor
  · intro hlt
    by_contra hle
    rw [pathCount_eq_two_pow, Nat.min_eq_left (by omega),
      combinations_of_lt (by omega)] at hlt
    exact lt_irrefl _ hlt
  · intro h
    exact lt_of_le_of_lt (Nat.min_le_right _ _) (maxPaths_lt_combinations h)

/-- The side of a predicate is a bit of the number of the path. -/
theorem takesFalseSide_eq_testBit {mask : Nat} (hmask : mask < 2 ^ 64) (j : Nat) :
    takesFalseSide mask j = mask.testBit j := by
  by_cases hj : j < 64
  · simp [takesFalseSide, hj, Nat.testBit, Nat.and_comm]
  · have hbit : mask.testBit j = false :=
      Nat.testBit_lt_two_pow (hmask.trans_le (Nat.pow_le_pow_right (by decide) (by omega)))
    simp [takesFalseSide, hj, hbit]

theorem lt_word_of_lt_pathCount {mask branches : Nat} (h : mask < pathCount branches) :
    mask < 2 ^ 64 := by
  have : pathCount branches ≤ 16 := Nat.min_le_right _ _
  omega

/-- A predicate after the fourth is taken on its true side only. -/
theorem takesFalseSide_of_four_le {mask branches j : Nat} (h : mask < pathCount branches)
    (hj : 4 ≤ j) : takesFalseSide mask j = false := by
  rw [takesFalseSide_eq_testBit (lt_word_of_lt_pathCount h)]
  refine Nat.testBit_lt_two_pow (h.trans_le ?_)
  rw [pathCount_eq_two_pow]
  exact Nat.pow_le_pow_right (by decide) (by omega)

/-- Paths that take all predicates on the same sides have the same number. -/
theorem eq_of_takesFalseSide_eq {branches m n : Nat} (hm : m < pathCount branches)
    (hn : n < pathCount branches)
    (h : ∀ j < branches, takesFalseSide m j = takesFalseSide n j) : m = n := by
  refine Nat.eq_of_testBit_eq fun j => ?_
  by_cases hj : j < branches
  · rw [← takesFalseSide_eq_testBit (lt_word_of_lt_pathCount hm),
      ← takesFalseSide_eq_testBit (lt_word_of_lt_pathCount hn), h j hj]
  · -- no bit is set from the number of predicates on
    have hbound : pathCount branches ≤ 2 ^ j := by
      rw [pathCount_eq_two_pow]
      exact Nat.pow_le_pow_right (by decide) (by omega)
    rw [Nat.testBit_lt_two_pow (hm.trans_le hbound), Nat.testBit_lt_two_pow (hn.trans_le hbound)]

/-- Any choice of sides that leaves the predicates after the fourth on their true sides has a
number. -/
theorem exists_mask (branches : Nat) (side : Nat → Bool)
    (hside : ∀ j < branches, 4 ≤ j → side j = false) :
    ∃ mask < pathCount branches, ∀ j < branches, takesFalseSide mask j = side j := by
  have hlt : Nat.ofBits (fun j : Fin (min branches 4) => side j) < pathCount branches := by
    rw [pathCount_eq_two_pow]
    exact Nat.ofBits_lt_two_pow _
  refine ⟨_, hlt, fun j hj => ?_⟩
  by_cases h4 : 4 ≤ j
  · rw [takesFalseSide_of_four_le hlt h4, hside j hj h4]
  · rw [takesFalseSide_eq_testBit (lt_word_of_lt_pathCount hlt),
      Nat.testBit_ofBits_lt _ j (by omega)]

/-! ## The sides of a path -/

namespace Path

/-- For each condition whether the path takes it on its false side. -/
def polarities (p : Path) : List Bool := p.conditions.map Condition.negated

/-- Whether a path takes a side of the predicate at place `j`. -/
def takes (p : Path) (j : Nat) (side : BranchSide) : Bool := p.polarities[j]? == some side.negates

end Path

variable {s : Solver} {method : String} {ps : List Predicate}

@[simp] theorem Path.conditions_solved (s : Solver) (p : Path) :
    (p.solved s).conditions = p.conditions := rfl

@[simp] theorem Path.polarities_solved (s : Solver) (p : Path) :
    (p.solved s).polarities = p.polarities := rfl

theorem polarities_pathAt (method : String) (ps : List Predicate) (mask : Nat) :
    (pathAt method ps mask).polarities = (List.range ps.length).map (takesFalseSide mask) := by
  have hnegated : (pathAt method ps mask).polarities =
      (ps.zipIdx.map Prod.snd).map (takesFalseSide mask) := by
    rw [Path.polarities, pathAt, List.map_map, List.map_map]
    rfl
  rw [hnegated, List.zipIdx_map_snd, List.range_eq_range']

/-- The conditions of a path are the predicates in their order, on the sides that it takes. -/
theorem conditions_pathAt (method : String) (ps : List Predicate) (mask : Nat) :
    (pathAt method ps mask).conditions =
      List.zipWith Predicate.condition ps (pathAt method ps mask).polarities := by
  rw [polarities_pathAt, List.range_eq_range', List.zipWith_map_right]
  simp [pathAt, List.zipIdx_eq_zip_range', List.zip, List.map_zipWith]

theorem paths_analyze (s : Solver) (method body : String) :
    (analyze s method body).paths = solvedPaths s method (Source.predicates body) := by
  rw [analyze, analyzePredicates]

theorem uncovered_analyze (s : Solver) (method body : String) :
    (analyze s method body).uncovered =
      uncoveredSides (Source.predicates body) (solvedPaths s method (Source.predicates body)) := by
  rw [analyze, analyzePredicates]

theorem branches_analyze (s : Solver) (method body : String) :
    (analyze s method body).branches = (Source.predicates body).length := by
  rw [analyze, analyzePredicates]

theorem mem_solvedPaths {path : Path} :
    path ∈ solvedPaths s method ps ↔
      ∃ mask < pathCount ps.length, (pathAt method ps mask).solved s = path := by
  simp [solvedPaths]

/-- No two paths take all predicates on the same sides. -/
theorem nodup_polarities : ((solvedPaths s method ps).map Path.polarities).Nodup := by
  rw [solvedPaths, List.map_map]
  refine List.Nodup.map_on (fun m hm n hn heq => ?_) List.nodup_range
  simp only [Function.comp_apply, Path.polarities_solved, polarities_pathAt, List.map_inj_left,
    List.mem_range] at heq
  exact eq_of_takesFalseSide_eq (List.mem_range.mp hm) (List.mem_range.mp hn) heq

/-- The combinations of sides that occur are those with the predicates after the fourth on their
true sides. -/
theorem mem_polarities_iff {v : List Bool} (hv : v.length = ps.length) :
    v ∈ (solvedPaths s method ps).map Path.polarities ↔ ∀ j, 4 ≤ j → v[j]? ≠ some true := by
  simp only [List.mem_map, mem_solvedPaths]
  constructor
  · rintro ⟨-, ⟨mask, hmask, rfl⟩, rfl⟩ j hj htrue
    rw [Path.polarities_solved, polarities_pathAt, List.getElem?_map,
      Option.map_eq_some_iff] at htrue
    obtain ⟨k, hk, hfalse⟩ := htrue
    obtain ⟨_, hkj⟩ := List.getElem?_eq_some_iff.mp hk
    rw [← hkj, List.getElem_range, takesFalseSide_of_four_le hmask hj] at hfalse
    cases hfalse
  · intro htail
    obtain ⟨mask, hmask, hbits⟩ := exists_mask ps.length (fun j => v.getD j false)
      (fun j hj h4 => by
        have := htail j h4
        rw [List.getElem?_eq_getElem (by omega)] at this
        simpa [List.getD_eq_getElem?_getD, hv, hj] using this)
    refine ⟨_, ⟨mask, hmask, rfl⟩, ?_⟩
    rw [Path.polarities_solved, polarities_pathAt]
    refine List.ext_getElem (by simp [hv]) fun j hj hjv => ?_
    have hj' : j < ps.length := by omega
    simp [hbits j hj', List.getD_eq_getElem?_getD, hjv]

/-! ## Covered sides -/

/-- The sides of some predicates, in the order of the predicates, true side first. -/
def allSides (branches : Nat) : List (Nat × BranchSide) :=
  (List.range branches).flatMap fun j => [(j, .whenTrue), (j, .whenFalse)]

theorem length_allSides (branches : Nat) : (allSides branches).length = 2 * branches := by
  simp [allSides, List.length_flatMap, Nat.mul_comm]

theorem nodup_allSides (branches : Nat) : (allSides branches).Nodup := by
  refine List.nodup_flatMap.mpr ⟨fun j _ => by simp, ?_⟩
  refine List.nodup_range.imp fun {i j} hij => ?_
  simp [Function.onFun, List.Disjoint, hij]

theorem mem_allSides {branches j : Nat} {side : BranchSide} :
    (j, side) ∈ allSides branches ↔ j < branches := by
  cases side <;> simp [allSides]

/-- The table of the covered sides is kept by the numbers of the paths. It says of each side whether
a feasible path has its condition on it. -/
theorem isCovered_eq_any {j : Nat} (hj : j < ps.length) (side : BranchSide) :
    isCovered (solvedPaths s method ps) j side =
      (solvedPaths s method ps).any fun path => path.feasible && path.takes j side := by
  have htakes : ∀ mask, ((pathAt method ps mask).solved s).takes j side =
      (takesFalseSide mask j == side.negates) := by
    intro mask
    simp [Path.takes, polarities_pathAt, hj]
  rw [Bool.eq_iff_iff, isCovered, List.any_eq_true, List.any_eq_true]
  constructor
  · rintro ⟨⟨path, mask⟩, hmem, hcov⟩
    have hget := List.mem_zipIdx_iff_getElem?.mp hmem
    obtain ⟨hmask, hpath⟩ := List.getElem?_eq_some_iff.mp hget
    simp only [solvedPaths, List.getElem_map, List.getElem_range] at hpath
    subst hpath
    exact ⟨_, List.mem_of_getElem? hget, by simpa only [htakes] using hcov⟩
  · rintro ⟨path, hmem, hcov⟩
    obtain ⟨mask, hmask, rfl⟩ := mem_solvedPaths.mp hmem
    refine ⟨((pathAt method ps mask).solved s, mask), ?_, by simpa only [htakes] using hcov⟩
    rw [List.mem_zipIdx_iff_getElem?]
    simp [solvedPaths, hmask]

theorem uncoveredSides_eq_filter (ps : List Predicate) (paths : List Path) :
    (uncoveredSides ps paths).map (fun u => (u.index, u.side)) =
      (allSides ps.length).filter fun e => !isCovered paths e.1 e.2 := by
  have hindex : (uncoveredSides ps paths).map (fun u => (u.index, u.side)) =
      (ps.zipIdx.map Prod.snd).flatMap fun j =>
        [(j, BranchSide.whenTrue), (j, .whenFalse)].filter fun e => !isCovered paths e.1 e.2 := by
    simp only [uncoveredSides, List.map_flatMap, List.flatMap_map, List.map_map]
    refine List.flatMap_congr fun e _ => ?_
    simp only [List.filter_cons, List.filter_nil]
    split <;> split <;> rfl
  rw [hindex, List.zipIdx_map_snd, allSides, List.filter_flatMap, List.range_eq_range']

/-- The uncovered sides are those that no feasible path takes. -/
theorem uncovered_solvedPaths :
    (uncoveredSides ps (solvedPaths s method ps)).map (fun u => (u.index, u.side)) =
      (allSides ps.length).filter fun e =>
        !(solvedPaths s method ps).any fun path => path.feasible && path.takes e.1 e.2 := by
  rw [uncoveredSides_eq_filter]
  refine List.filter_congr fun e he => ?_
  rw [isCovered_eq_any (mem_allSides.mp he)]

theorem length_uncoveredSides_le (ps : List Predicate) (paths : List Path) :
    (uncoveredSides ps paths).length ≤ 2 * ps.length := by
  have h := congrArg List.length (uncoveredSides_eq_filter ps paths)
  rw [List.length_map] at h
  rw [h, ← length_allSides]
  exact List.length_filter_le _ _

/-! ## The analysis -/

theorem uncovered_eq_filter (s : Solver) (method body : String) :
    let a := analyze s method body
    a.uncovered.map (fun u => (u.index, u.side)) = (allSides a.branches).filter fun e =>
      !a.paths.any fun path => path.feasible && path.takes e.1 e.2 := by
  intro a
  rw [paths_analyze, uncovered_analyze, branches_analyze, uncovered_solvedPaths]

theorem Analysis.feasiblePaths_add_infeasiblePaths (a : Analysis) :
    a.feasiblePaths + a.infeasiblePaths = a.totalPaths :=
  Nat.add_sub_of_le (List.length_filter_le _ _)

/-- **What the analysis examines and what it counts**, for any solver. Each path has the predicates
in their order as its conditions; no combination of sides is examined twice, and the examined ones
are all those with the predicates after the fourth on their true sides. The uncovered sides are
listed in the order of the predicates, true side first and without repetition: those that no
feasible path takes. So they are no more than all sides, and the coverage is the share of the
others. -/
theorem analyze_enumerates (s : Solver) (method body : String) :
    let ps := Source.predicates body
    let a := analyze s method body
    a.totalPaths = min (2 ^ ps.length) 16 ∧
      (∀ path ∈ a.paths, path.conditions.length = ps.length ∧
        path.conditions = List.zipWith Predicate.condition ps path.polarities) ∧
      (a.paths.map Path.polarities).Nodup ∧
      (∀ v : List Bool, v.length = ps.length →
        (v ∈ a.paths.map Path.polarities ↔ ∀ j, 4 ≤ j → v[j]? ≠ some true)) ∧
      (a.truncated = true ↔ 4 < ps.length) ∧
      a.feasiblePaths + a.infeasiblePaths = a.totalPaths ∧
      a.uncovered.map (fun u => (u.index, u.side)) =
        (allSides ps.length).filter (fun e =>
          !a.paths.any fun path => path.feasible && path.takes e.1 e.2) ∧
      (a.uncovered.map fun u => (u.index, u.side)).Nodup ∧
      ∃ covered, covered + a.uncovered.length = 2 * ps.length ∧
        a.coverage =
          if ps.length = 0 then 1 else covered.toFloat / (2 * ps.length).toFloat := by
  intro ps a
  have hpaths : a.paths = solvedPaths s method ps := paths_analyze s method body
  have huncovered : a.uncovered = uncoveredSides ps (solvedPaths s method ps) := rfl
  have hbranches : a.branches = ps.length := rfl
  rw [hpaths, huncovered, uncovered_solvedPaths]
  refine ⟨?_, ?_, nodup_polarities, ?_, ?_, a.feasiblePaths_add_infeasiblePaths, rfl,
    (nodup_allSides _).filter _, 2 * ps.length - (uncoveredSides ps _).length,
    Nat.sub_add_cancel (length_uncoveredSides_le ps _), ?_⟩
  · rw [Analysis.totalPaths, hpaths, solvedPaths, List.length_map, List.length_range,
      pathCount_eq_min]
  · intro path hpath
    obtain ⟨mask, -, rfl⟩ := mem_solvedPaths.mp hpath
    exact ⟨by simp [pathAt], conditions_pathAt method ps mask⟩
  · intro v hv
    exact mem_polarities_iff hv
  · rw [Analysis.truncated, hbranches, decide_eq_true_iff]
    exact pathCount_lt_combinations_iff
  · rw [Analysis.coverage, hbranches, huncovered]

end Testwright
