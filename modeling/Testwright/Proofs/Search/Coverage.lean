import Mathlib.Data.List.Infix
import Testwright.Proofs.Search.Archive

/-!
# What the targets note

A search notes at each target the archived tests that mention its method, one list of tests after
another. Noting two lists is noting them one after the other (`recordCoverage_append`), noting what
was noted before changes nothing (`recordCoverage_of_subset`), and at any time the targets have
noted the archive (`Engine.Enters.targets_eq`). In the first search over a class, whose targets
begin without notes, each target is therefore a function of the archive
(`Engine.targets_note_archive`).
-/

namespace Testwright

open Testwright.Random

-- what is drawn is never evaluated here
attribute [local irreducible] patience

/-! ## One target -/

namespace BranchTarget

variable {target : BranchTarget} {test : String} {tests more : List String}

/-- A target that has noted a test. -/
structure Noted (target : BranchTarget) (test : String) : Prop where
  covered : target.covered = true
  mem : test ∈ target.coveringTests

theorem noted_markCovered (target : BranchTarget) (test : String) :
    (target.markCovered test).Noted test := by
  refine ⟨rfl, ?_⟩
  simp only [markCovered]
  split
  · rename_i hknown
    exact List.contains_iff_mem.mp hknown
  · exact List.mem_append_right _ (List.mem_singleton.mpr rfl)

theorem Noted.markCovered (h : target.Noted test) (other : String) :
    (target.markCovered other).Noted test := by
  refine ⟨rfl, ?_⟩
  simp only [BranchTarget.markCovered]
  split
  · exact h.mem
  · exact List.mem_append_left _ h.mem

theorem Noted.markCovered_eq (h : target.Noted test) : target.markCovered test = target := by
  rw [BranchTarget.markCovered, if_pos (List.contains_iff_mem.mpr h.mem), ← h.covered]

theorem markAll_append (target : BranchTarget) (tests more : List String) :
    target.markAll (tests ++ more) = (target.markAll tests).markAll more := by
  simp only [markAll_eq_foldl, List.foldl_append]

theorem Noted.markAll (h : target.Noted test) (tests : List String) :
    (target.markAll tests).Noted test := by
  rw [markAll_eq_foldl]
  induction tests generalizing target with
  | nil => exact h
  | cons other rest ih => exact ih (h.markCovered other)

theorem noted_markAll (h : test ∈ tests) : (target.markAll tests).Noted test := by
  obtain ⟨before, after, rfl⟩ := List.append_of_mem h
  have hnoted := (noted_markCovered (target.markAll before) test).markAll after
  rw [markAll_eq_foldl] at hnoted ⊢
  rwa [List.foldl_append, List.foldl_cons, ← markAll_eq_foldl target before]

theorem markAll_of_noted (h : ∀ test ∈ tests, target.Noted test) :
    target.markAll tests = target := by
  rw [markAll_eq_foldl]
  induction tests with
  | nil => rfl
  | cons test rest ih =>
      obtain ⟨hfirst, hrest⟩ := List.forall_mem_cons.mp h
      rw [List.foldl_cons, hfirst.markCovered_eq, ih hrest]

/-- A target without notes notes all tests of a list in which no name repeats. -/
theorem markAll_eq_of_nodup (hcovered : target.covered = false)
    (hnone : target.coveringTests = []) (hnodup : tests.Nodup) :
    target.markAll tests =
      { target with covered := !tests.isEmpty, coveringTests := tests } := by
  have hnew : newNames (.ofList target.coveringTests) tests = tests := by
    rw [newNames, distinctFrom_eq_filter (by rwa [List.map_id]), hnone]
    exact List.filter_eq_self.mpr fun test _ => by simp
  cases tests with
  | nil =>
      rw [markAll, List.isEmpty_nil, if_pos rfl, Bool.not_true, ← hcovered, ← hnone]
  | cons test rest => rw [markAll, List.isEmpty_cons, if_neg Bool.false_ne_true, hnew, hnone]; rfl

@[simp] theorem methodName_markAll (target : BranchTarget) (tests : List String) :
    (target.markAll tests).methodName = target.methodName := by
  rw [BranchTarget.markAll]
  split <;> rfl

end BranchTarget

/-! ## All targets -/

section

variable {targets : List BranchTarget} {tests more : List TestCase}

/-- The names of the tests that mention the method of a target. -/
def namesMentioning (target : BranchTarget) (tests : List TestCase) : List String :=
  (tests.filter fun t => t.mentions target).map TestCase.id

theorem TestCase.mentions_iff {t : TestCase} {target : BranchTarget} :
    t.mentions target = true ↔ target.methodName.toList <:+: t.code.toList :=
  Text.contains_iff_isInfix

theorem recordCoverage_eq (targets : List BranchTarget) (tests : List TestCase) :
    recordCoverage targets tests =
      targets.map fun target => target.markAll (namesMentioning target tests) := by
  have hnames : ∀ target : BranchTarget,
      (tests.map fun t => (t.id, t.code.toList)).filterMap (fun c =>
        if Text.contains target.methodName.toList c.2 then some c.1 else none) =
      namesMentioning target tests := by
    intro target
    rw [namesMentioning, List.filterMap_map, ← List.filterMap_eq_filter, List.map_filterMap]
    refine List.filterMap_congr fun t _ => ?_
    show (if t.mentions target then _ else _) = (Option.guard _ t).map _
    rw [Option.guard]
    split <;> rfl
  simp only [recordCoverage, hnames]

/-- What a target has noted does not change which tests mention its method. -/
theorem namesMentioning_markAll (target : BranchTarget) (names : List String)
    (tests : List TestCase) :
    namesMentioning (target.markAll names) tests = namesMentioning target tests := by
  simp only [namesMentioning, TestCase.mentions, BranchTarget.methodName_markAll]

/-- The names of the archived tests in whose code the name of a method occurs. -/
def Archive.namesWith (a : Archive) (method : String) : List String :=
  (a.tests.filter fun t => method.toList <:+: t.code.toList).map TestCase.id

theorem Archive.namesMentioning_tests (a : Archive) (target : BranchTarget) :
    namesMentioning target a.tests = a.namesWith target.methodName := by
  rw [namesMentioning, namesWith]
  refine congrArg (List.map _) (List.filter_congr fun t _ => ?_)
  rw [Bool.eq_iff_iff, TestCase.mentions_iff, decide_eq_true_eq]

theorem recordCoverage_nil (targets : List BranchTarget) : recordCoverage targets [] = targets := by
  rw [recordCoverage_eq]
  exact List.map_id targets

theorem recordCoverage_append (targets : List BranchTarget) (tests more : List TestCase) :
    recordCoverage targets (tests ++ more) =
      recordCoverage (recordCoverage targets tests) more := by
  simp only [recordCoverage_eq, List.map_map]
  refine List.map_congr_left fun target _ => ?_
  rw [Function.comp_apply, namesMentioning_markAll, ← BranchTarget.markAll_append,
    namesMentioning, namesMentioning, namesMentioning, List.filter_append, List.map_append]

/-- Noting tests again changes nothing. -/
theorem recordCoverage_of_subset (h : more ⊆ tests) :
    recordCoverage (recordCoverage targets tests) more = recordCoverage targets tests := by
  simp only [recordCoverage_eq, List.map_map]
  refine List.map_congr_left fun target _ => ?_
  rw [Function.comp_apply, namesMentioning_markAll]
  refine BranchTarget.markAll_of_noted fun name hname => BranchTarget.noted_markAll ?_
  exact List.map_subset _ (List.filter_subset _ h) hname

end

theorem BranchTarget.unnoted_of_mem {c : ClassInfo} {target : BranchTarget}
    (h : target ∈ c.branchTargets) : target.covered = false ∧ target.coveringTests = [] := by
  obtain ⟨m, -, hm⟩ := List.mem_flatMap.mp h
  cases hbody : m.body with
  | none =>
      rw [hbody] at hm
      cases hm
  | some body =>
      rw [hbody] at hm
      obtain ⟨p, -, rfl⟩ := List.mem_map.mp hm
      exact ⟨rfl, rfl⟩

/-! ## A search -/

namespace Engine

variable {σ : Type} [WordSource σ] {words : UInt64 → σ} {c : ClassInfo} {config : Config}
  {e s s' : Engine}

theorem targets_start (e : Engine) : (e.start words).targets = e.targets := by
  rw [start_eq]
  split <;> rfl

/-- The targets have noted the archive. -/
theorem Enters.targets_eq (h : e.Enters words s) :
    s.targets = recordCoverage e.targets s.archive.tests := by
  induction h using Enters.induction with
  | first => rw [targets_start, archive_start, recordCoverage_nil]
  | next s s' _ hnext ih =>
      rw [targets_breed hnext.bred, archive_breed hnext.bred, targets_completeGeneration,
        archive_completeGeneration, ih]
      exact (recordCoverage_append _ _ _).symm

theorem Enters.targets_completeGeneration_eq (h : e.Enters words s) :
    s.completeGeneration.targets =
      recordCoverage e.targets s.completeGeneration.archive.tests := by
  rw [targets_completeGeneration, archive_completeGeneration, h.targets_eq]
  exact (recordCoverage_append _ _ _).symm

theorem ofClass_eq_ok (h : ofClass c config = .ok e) :
    config.validate = .ok () ∧
      e = { config := config, seed := config.seed.getD 0, generator := c.generator,
            targets := c.branchTargets } := by
  rw [ofClass, create] at h
  cases hvalid : config.validate with
  | error fault =>
      rw [hvalid] at h
      cases h
  | ok =>
      rw [hvalid] at h
      cases h
      exact ⟨rfl, rfl⟩

/-- **What the targets have noted is read off the archive.** After each generation of the first
search over a class, its targets are still those of the class, in their order; each has noted the
archived tests in whose code the name of its method occurs, in the order of the archive and each
once; and it counts as covered exactly when there is such a test. -/
theorem targets_note_archive (hcreate : ofClass c config = .ok e) (hs : e.Enters words s) :
    s.completeGeneration.targets =
        c.branchTargets.map (fun target =>
          let names := s.completeGeneration.archive.namesWith target.methodName
          { target with covered := !names.isEmpty, coveringTests := names }) ∧
      ∀ target ∈ s.completeGeneration.targets,
        target.coveringTests = s.completeGeneration.archive.namesWith target.methodName ∧
          target.coveringTests.Nodup ∧
          (target.covered = true ↔ target.coveringTests ≠ []) := by
  obtain ⟨-, rfl⟩ := ofClass_eq_ok hcreate
  have hnodup : ∀ method, (s.completeGeneration.archive.namesWith method).Nodup := fun method =>
    (hs.coherent.append_newFrom _).nodup.sublist (List.filter_sublist.map _)
  have htargets : s.completeGeneration.targets =
      c.branchTargets.map (fun target =>
        let names := s.completeGeneration.archive.namesWith target.methodName
        { target with covered := !names.isEmpty, coveringTests := names }) := by
    rw [hs.targets_completeGeneration_eq, recordCoverage_eq]
    refine List.map_congr_left fun target htarget => ?_
    obtain ⟨hcovered, hnone⟩ := BranchTarget.unnoted_of_mem htarget
    rw [← Archive.namesMentioning_tests]
    exact BranchTarget.markAll_eq_of_nodup hcovered hnone
      (Archive.namesMentioning_tests _ target ▸ hnodup target.methodName)
  refine ⟨htargets, fun target htarget => ?_⟩
  rw [htargets] at htarget
  obtain ⟨original, -, rfl⟩ := List.mem_map.mp htarget
  refine ⟨rfl, hnodup _, ?_⟩
  simp

/-- The class `counterClass` with a body that branches. -/
def branchingClass : ClassInfo where
  name := "Counter"
  package := ""
  methods := [⟨"tick", [], "void", some "if (full == true) return;"⟩]
  fields := []

/-- A search over it, which has the seed tests and the targets of `counterSearch`. -/
def branchingSearch : Engine := { counterSearch with generator := branchingClass.generator }

/-- The state in which its first generation begins. -/
def branchingStart : Engine := branchingSearch.start counterWords

theorem ofClass_branchingSearch :
    ofClass branchingClass counterSearch.config = .ok branchingSearch := by
  have hfault : counterSearch.config.fault? = none := by decide +kernel
  have htargets : branchingClass.branchTargets = counterSearch.targets := by decide +kernel
  rw [ofClass, create, Config.validate, hfault, htargets]
  rfl

theorem population_branchingStart : branchingStart.population = counterStart.population := rfl

theorem enters_branchingStart : branchingSearch.Enters counterWords branchingStart := by
  refine .first fun hnone => ?_
  have hnames := names_counterStart
  rw [← population_branchingStart, branchingStart, hnone] at hnames
  cases hnames

theorem exists_archived_branchingStart :
    ∃ id, id ∈ branchingStart.completeGeneration.archive.namesWith "tick" := by
  have hany : (branchingStart.evaluate.population.any fun m =>
      archiveThreshold < m.test.fitness &&
        Text.contains "tick".toList m.test.code.toList) = true := by decide +kernel
  obtain ⟨m, hm, hfacts⟩ := List.any_eq_true.mp hany
  obtain ⟨hfit, hmentions⟩ := Bool.and_eq_true_iff.mp hfacts
  have hmem : m.test ∈ branchingStart.completeGeneration.archive.tests := by
    refine mem_archive_of_fit ?_ hm (of_decide_eq_true hfit) Std.HashSet.not_mem_empty
    rw [population_branchingStart, names_counterStart]
    decide
  refine ⟨m.test.id, List.mem_map_of_mem (List.mem_filter.mpr ⟨hmem, ?_⟩)⟩
  exact decide_eq_true (Text.contains_iff_isInfix.mp hmentions)

/-- The search over `branchingClass` covers its branch, and notes some tests there. -/
theorem branchingStart_targets_note :
    ofClass branchingClass counterSearch.config = .ok branchingSearch ∧
      branchingSearch.Enters counterWords branchingStart ∧
      ∃ names, names ≠ [] ∧ names.Nodup ∧
        branchingStart.completeGeneration.targets =
          [⟨"Counter", "tick", 1, "if", true, names⟩] := by
  obtain ⟨htargets, hnoted⟩ := targets_note_archive ofClass_branchingSearch enters_branchingStart
  obtain ⟨id, hid⟩ := exists_archived_branchingStart
  let names := branchingStart.completeGeneration.archive.namesWith "tick"
  have hsome : names ≠ [] := List.ne_nil_of_mem hid
  have heq : branchingStart.completeGeneration.targets =
      [⟨"Counter", "tick", 1, "if", true, names⟩] := by
    have hbranches : branchingClass.branchTargets = counterSearch.targets := by decide +kernel
    rw [htargets, hbranches]
    show [(⟨"Counter", "tick", 1, "if", !names.isEmpty, names⟩ : BranchTarget)] = _
    rw [List.isEmpty_eq_false_iff.mpr hsome]
    rfl
  refine ⟨ofClass_branchingSearch, enters_branchingStart, names, hsome, ?_, heq⟩
  rw [heq] at hnoted
  exact (hnoted _ (List.mem_singleton.mpr rfl)).2.1

end Engine

end Testwright
