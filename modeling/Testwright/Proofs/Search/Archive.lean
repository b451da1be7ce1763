import Testwright.Proofs.Distinct
import Testwright.Proofs.Search.Course
import Testwright.Random.Stream

/-!
# The archive of a search

A generation archives the tests that are fit enough and whose names are new. Main statement:
`archive_grows`. The archive only grows, at its end; its names are in step with its tests; and what
it notes about a test stays true, since a score depends on the names of the methods in the targets
and not on what the targets have noted.
-/

namespace Testwright

open Testwright.Random

-- what is drawn is never evaluated here
attribute [local irreducible] patience

/-! ## Archives -/

namespace Archive

variable {a : Archive} {population : List Chromosome} {t : TestCase}

/-- The names of an archive are those of its tests, and each of them is there once. -/
structure Coherent (a : Archive) : Prop where
  nodup : (a.tests.map TestCase.id).Nodup
  mem_ids : ∀ id, id ∈ a.ids ↔ id ∈ a.tests.map TestCase.id

theorem coherent_empty : Coherent {} := ⟨.nil, fun id => by simp⟩

theorem of_mem_newFrom (h : t ∈ a.newFrom population) :
    archiveThreshold < t.fitness ∧ t.id ∉ a.ids ∧ ∃ m ∈ population, m.test = t := by
  have hfit := (distinctFrom_sublist _ _ _).subset h
  rw [List.mem_filter, decide_eq_true_eq, List.mem_map] at hfit
  exact ⟨hfit.2, key_notMem_of_mem_distinctFrom h, hfit.1⟩

/-- Where no name repeats, all members that are fit enough are new unless their names are archived. -/
theorem mem_newFrom_of_nodup (hnames : (namesOf population).Nodup) {m : Chromosome}
    (hm : m ∈ population) (hfit : archiveThreshold < m.test.fitness) (hnew : m.test.id ∉ a.ids) :
    m.test ∈ a.newFrom population := by
  have hnodup : ((population.map Chromosome.test).map TestCase.id).Nodup := by
    rw [List.map_map]
    exact hnames
  rw [newFrom, distinctFrom_eq_filter (hnodup.sublist (List.filter_sublist.map _))]
  refine List.mem_filter.mpr ⟨List.mem_filter.mpr ⟨List.mem_map_of_mem hm, ?_⟩, ?_⟩
  · exact decide_eq_true hfit
  · simpa using hnew

theorem length_newFrom_le (a : Archive) (population : List Chromosome) :
    (a.newFrom population).length ≤ population.length := by
  have hnew := (distinctFrom_sublist TestCase.id a.ids
    ((population.map Chromosome.test).filter fun t => archiveThreshold < t.fitness)).length_le
  have hfit := List.length_filter_le (fun t : TestCase => decide (archiveThreshold < t.fitness))
    (population.map Chromosome.test)
  rw [List.length_map] at hfit
  exact hnew.trans hfit

/-- A small archive does not end a search. -/
theorem converged_eq_false (h : a.tests.length < convergenceSize) : a.converged = false := by
  rw [converged, decide_eq_false (by omega), Bool.false_and]

theorem mem_ids_append (a : Archive) (new : List TestCase) (id : String) :
    id ∈ (a.append new).ids ↔ id ∈ a.ids ∨ id ∈ new.map TestCase.id := by
  have hfold : ∀ (l : List TestCase) (ids : Std.HashSet String),
      id ∈ l.foldl (fun ids t => ids.insert t.id) ids ↔ id ∈ ids ∨ id ∈ l.map TestCase.id := by
    intro l
    induction l with
    | nil => simp
    | cons t rest ih =>
        intro ids
        rw [List.foldl_cons, ih, Std.HashSet.mem_insert, List.map_cons, List.mem_cons, beq_iff_eq,
          eq_comm, or_assoc, or_left_comm]
  exact hfold new a.ids

theorem Coherent.append_newFrom (h : a.Coherent) (population : List Chromosome) :
    (a.append (a.newFrom population)).Coherent where
  nodup := by
    show ((a.tests ++ a.newFrom population).map TestCase.id).Nodup
    rw [List.map_append]
    refine h.nodup.append (nodup_keys_distinctFrom _ _ _) ?_
    intro id hold hnew
    obtain ⟨t, ht, rfl⟩ := List.mem_map.mp hnew
    exact (of_mem_newFrom ht).2.1 ((h.mem_ids t.id).mpr hold)
  mem_ids := by
    intro id
    show _ ↔ id ∈ (a.tests ++ a.newFrom population).map TestCase.id
    rw [mem_ids_append, h.mem_ids, List.map_append, List.mem_append]

end Archive

/-! ## Scores -/

/-- The names of the methods of some targets. -/
def methodNames (targets : List BranchTarget) : List String := targets.map BranchTarget.methodName

/-- What the targets note about tests does not change the names of their methods. -/
theorem methodNames_recordCoverage (targets : List BranchTarget) (tests : List TestCase) :
    methodNames (recordCoverage targets tests) = methodNames targets := by
  rw [recordCoverage, methodNames, methodNames, List.map_map]
  refine List.map_congr_left fun target _ => ?_
  show (target.markAll _).methodName = target.methodName
  rw [BranchTarget.markAll]
  split <;> rfl

namespace TestCase

variable {t u : TestCase} {targets later : List BranchTarget}

/-- The coverage of a test depends on its code and on the names of the methods. -/
theorem branchCoverage_congr (hcode : u.code = t.code)
    (hnames : methodNames later = methodNames targets) :
    u.branchCoverage later = t.branchCoverage targets := by
  have hmentioned : ∀ (v : TestCase) (ts : List BranchTarget),
      (v.mentioned ts).length =
        (methodNames ts).countP fun name => Text.contains name.toList v.code.toList := by
    intro v ts
    rw [methodNames, List.countP_map, List.countP_eq_length_filter]
    rfl
  have hlength : later.length = targets.length := by
    simpa [methodNames] using congrArg List.length hnames
  have hempty : later.isEmpty = targets.isEmpty := by
    rw [Bool.eq_iff_iff, List.isEmpty_iff_length_eq_zero, List.isEmpty_iff_length_eq_zero, hlength]
  rw [branchCoverage, branchCoverage, hmentioned, hmentioned, hcode, hnames, hlength, hempty]

/-- So does its fitness, which also depends on its assertions. -/
theorem weightedScore_congr (hcode : u.code = t.code) (hassertions : u.assertions = t.assertions)
    (hnames : methodNames later = methodNames targets) (objectives : List Objective) :
    u.weightedScore later objectives = t.weightedScore targets objectives := by
  have hlines : u.nonBlankLines = t.nonBlankLines := by rw [nonBlankLines, nonBlankLines, hcode]
  have hscore : ∀ o, u.score later o = t.score targets o := by
    intro o
    cases o with
    | branchCoverage => exact branchCoverage_congr hcode hnames
    | assertionDensity =>
        show u.assertionDensity = t.assertionDensity
        rw [assertionDensity, assertionDensity, hassertions, hlines]
    | complexity =>
        show u.complexity = t.complexity
        rw [complexity, complexity, hlines]
  simp only [weightedScore, hscore]

theorem evaluated_congr (h : methodNames later = methodNames targets) :
    t.evaluated later = t.evaluated targets := by
  rw [evaluated, evaluated, branchCoverage_congr rfl h, weightedScore_congr rfl rfl h]

end TestCase

namespace Engine

variable {σ : Type} [WordSource σ] {words : UInt64 → σ} {e s s' : Engine} {t : TestCase}

/-! ## What one generation does -/

theorem archive_completeGeneration (s : Engine) :
    s.completeGeneration.archive =
      s.archive.append (s.archive.newFrom s.completeGeneration.population) := rfl

theorem targets_completeGeneration (s : Engine) :
    s.completeGeneration.targets =
      recordCoverage s.targets (s.archive.newFrom s.completeGeneration.population) := rfl

/-- Ranking the evaluated population puts its tests in order. -/
theorem tests_completeGeneration_perm (s : Engine) :
    (s.completeGeneration.population.map Chromosome.test).Perm
      (s.evaluate.population.map Chromosome.test) := by
  have hrank : s.completeGeneration.population.map Chromosome.test =
      (byFitness s.evaluate.population).map Chromosome.test := by
    show List.map _ (List.mapIdx _ _) = _
    refine List.ext_getElem (by simp) ?_
    intro i h h'
    simp
  rw [hrank]
  exact (perm_byFitness _).map _

/-- The generation that begins at `s` archives a test. -/
structure Archives (s : Engine) (t : TestCase) : Prop where
  budget : s.generation < s.config.maxGenerations
  new : t ∈ s.archive.newFrom s.completeGeneration.population

theorem Archives.exists_evaluated (h : s.Archives t) : ∃ m ∈ s.evaluate.population, m.test = t := by
  obtain ⟨-, -, m, hm, rfl⟩ := Archive.of_mem_newFrom h.new
  exact List.mem_map.mp ((tests_completeGeneration_perm s).subset (List.mem_map_of_mem hm))

/-- The scores of a test that is archived are those of any test with its code and its assertions,
for any targets that have the same methods. -/
theorem Archives.scores (h : s.Archives t) {targets : List BranchTarget}
    (hnames : methodNames targets = methodNames s.targets) {u : TestCase}
    (hcode : u.code = t.code) (hassertions : u.assertions = t.assertions) :
    u.branchCoverage targets = t.coverage ∧
      u.weightedScore targets Objective.all = t.fitness := by
  obtain ⟨m, hm, rfl⟩ := h.exists_evaluated
  obtain ⟨m, -, rfl⟩ := List.mem_map.mp hm
  exact ⟨TestCase.branchCoverage_congr (t := m.test) hcode hnames,
    TestCase.weightedScore_congr (t := m.test) hcode hassertions hnames _⟩

theorem perm_names_completeGeneration (s : Engine) :
    (namesOf s.completeGeneration.population).Perm (namesOf s.population) := by
  have hperm := (tests_completeGeneration_perm s).map TestCase.id
  rw [evaluate, List.map_map, List.map_map, List.map_map] at hperm
  exact hperm

/-- Where no name repeats, the tests that are fit enough are archived unless their names are. -/
theorem mem_archive_of_fit (hnames : (namesOf s.population).Nodup) {m : Chromosome}
    (hm : m ∈ s.evaluate.population) (hfit : archiveThreshold < m.test.fitness)
    (hnew : m.test.id ∉ s.archive.ids) : m.test ∈ s.completeGeneration.archive.tests := by
  have hnodup := (perm_names_completeGeneration s).nodup_iff.mpr hnames
  have hmem := (tests_completeGeneration_perm s).mem_iff.mpr (List.mem_map_of_mem hm)
  obtain ⟨ranked, hranked, heq⟩ := List.mem_map.mp hmem
  rw [← heq] at hfit hnew ⊢
  exact List.mem_append_right _ (Archive.mem_newFrom_of_nodup hnodup hranked hfit hnew)

/-- Tests of different names are all archived by the first generation when they are fit enough. -/
theorem tests_archive_of_fit (hnew : s.archive = {}) (hnames : (namesOf s.population).Nodup)
    (hfit : ∀ m ∈ s.evaluate.population, archiveThreshold < m.test.fitness) :
    s.completeGeneration.archive.tests.Perm (s.evaluate.population.map Chromosome.test) := by
  have hperm := tests_completeGeneration_perm s
  have hnodup : ((s.completeGeneration.population.map Chromosome.test).map TestCase.id).Nodup := by
    rw [List.map_map]
    exact (perm_names_completeGeneration s).nodup_iff.mpr hnames
  have hall : ((s.completeGeneration.population.map Chromosome.test).filter fun t =>
      archiveThreshold < t.fitness) = s.completeGeneration.population.map Chromosome.test := by
    apply List.filter_eq_self.mpr
    intro t ht
    obtain ⟨m, hm, rfl⟩ := List.mem_map.mp (hperm.subset ht)
    exact decide_eq_true (hfit m hm)
  rw [archive_completeGeneration, hnew]
  show (Archive.newFrom {} _).Perm _
  rw [Archive.newFrom, hall, distinctFrom_eq_filter hnodup, List.filter_eq_self.mpr]
  · exact hperm
  · intro t _
    simp

theorem archive_breed {words : σ} (h : s.breed words = some s') : s'.archive = s.archive := by
  obtain ⟨r, -, rfl⟩ := exists_of_breed h
  rfl

theorem targets_breed {words : σ} (h : s.breed words = some s') : s'.targets = s.targets := by
  obtain ⟨r, -, rfl⟩ := exists_of_breed h
  rfl

theorem archive_start (e : Engine) : (e.start words).archive = {} := by
  rw [start_eq]
  split <;> rfl

/-! ## What a whole search does -/

/-- The targets keep the names of their methods. -/
theorem Leads.methodNames_eq (h : Leads words s s') :
    methodNames s'.targets = methodNames s.targets := by
  induction h with
  | refl => rfl
  | tail _ hnext ih =>
      rw [targets_breed hnext.bred, targets_completeGeneration, methodNames_recordCoverage, ih]

theorem Enters.coherent (h : e.Enters words s) : s.archive.Coherent := by
  induction h using Enters.induction with
  | first =>
      rw [archive_start]
      exact Archive.coherent_empty
  | next s s' _ hnext ih =>
      rw [archive_breed hnext.bred, archive_completeGeneration]
      exact ih.append_newFrom _

/-- What is archived was archived by a generation of the search. -/
theorem Enters.exists_archives (h : e.Enters words s) (ht : t ∈ s.archive.tests) :
    ∃ origin, e.Enters words origin ∧ Leads words origin s ∧ origin.Archives t := by
  induction h using Enters.induction with
  | first =>
      rw [archive_start] at ht
      cases ht
  | next s s' hs hnext ih =>
      rw [archive_breed hnext.bred, archive_completeGeneration] at ht
      rcases List.mem_append.mp ht with hold | hnew
      · obtain ⟨origin, horigin, hleads, harchives⟩ := ih hold
        exact ⟨origin, horigin, hleads.trans hnext.leads, harchives⟩
      · exact ⟨s, hs, hnext.leads, hnext.budget, hnew⟩

theorem Enters.exists_archives_of_complete (h : e.Enters words s)
    (hbudget : s.generation < s.config.maxGenerations)
    (ht : t ∈ s.completeGeneration.archive.tests) :
    ∃ origin, e.Enters words origin ∧ Leads words origin s ∧ origin.Archives t := by
  rw [archive_completeGeneration] at ht
  rcases List.mem_append.mp ht with hold | hnew
  · exact h.exists_archives hold
  · exact ⟨s, h, .refl s, hbudget, hnew⟩

/-- **The archive only grows, and what it says stays true.** After each generation of a search, no
name is archived twice and the set of names is that of the tests; the next generation appends to the
archive; and each archived test was an evaluated member of a population, exceeded the threshold, and
has the scores that its code and its assertions still have at any later time, whatever the targets
have noted since. -/
theorem archive_only_grows (hs : e.Enters words s)
    (hbudget : s.generation < s.config.maxGenerations) :
    s.completeGeneration.archive.Coherent ∧
      (∀ s', s.Next words s' →
        s.completeGeneration.archive.tests <+: s'.completeGeneration.archive.tests) ∧
      ∀ t ∈ s.completeGeneration.archive.tests,
        archiveThreshold < t.fitness ∧
        (∃ origin, e.Enters words origin ∧ Leads words origin s ∧
          origin.generation < origin.config.maxGenerations ∧
          ∃ m ∈ origin.evaluate.population, m.test = t) ∧
        ∀ later, Leads words s later →
          ∀ targets ∈ [later.targets, later.completeGeneration.targets],
            ∀ u : TestCase, u.code = t.code → u.assertions = t.assertions →
              u.branchCoverage targets = t.coverage ∧
                u.weightedScore targets Objective.all = t.fitness := by
  refine ⟨?_, ?_, ?_⟩
  · rw [archive_completeGeneration]
    exact hs.coherent.append_newFrom _
  · intro s' hnext
    rw [archive_completeGeneration s', archive_breed hnext.bred]
    exact List.prefix_append _ _
  · intro t ht
    obtain ⟨origin, horigin, hleads, harchives⟩ := hs.exists_archives_of_complete hbudget ht
    refine ⟨(Archive.of_mem_newFrom harchives.new).1,
      ⟨origin, horigin, hleads, harchives.budget, harchives.exists_evaluated⟩, ?_⟩
    intro later hlater targets htargets u hcode hassertions
    have hnames : methodNames targets = methodNames origin.targets := by
      rw [← (hleads.trans hlater).methodNames_eq]
      rcases List.mem_pair.mp htargets with rfl | rfl
      · rfl
      · rw [targets_completeGeneration, methodNames_recordCoverage]
    exact harchives.scores hnames hcode hassertions

/-- A class with one method. -/
def counterClass : ClassInfo where
  name := "Counter"
  package := ""
  methods := [⟨"tick", [], "void", none⟩]
  fields := []

/-- A search for two tests of `counterClass`, both of which are kept in each generation. -/
def counterSearch : Engine where
  config := { populationSize := 2, eliteSize := 2 }
  seed := 0
  generator := counterClass.generator
  targets := [⟨"Counter", "tick", 1, "if", false, []⟩]

/-- Its random words. -/
def counterWords : UInt64 → Stream := Stream.ofStage counterSearch.seed

theorem create_counterSearch :
    create counterClass.generator counterSearch.config counterSearch.targets =
      .ok counterSearch := by
  have hfault : counterSearch.config.fault? = none := by decide +kernel
  rw [create, Config.validate, hfault]
  rfl

/-- The state in which its first generation begins. -/
def counterStart : Engine := counterSearch.start counterWords

theorem names_counterStart :
    namesOf counterStart.population = ["test_tick_1", "test_tick_exception_2"] := by
  decide +kernel

theorem enters_counterStart : counterSearch.Enters counterWords counterStart := by
  refine .first fun hnone => ?_
  have hnames := names_counterStart
  rw [counterStart, hnone] at hnames
  cases hnames

theorem budget_counterStart : counterStart.generation < counterStart.config.maxGenerations := by
  decide +kernel

theorem exists_fit_counterStart :
    ∃ m ∈ counterStart.evaluate.population, archiveThreshold < m.test.fitness := by
  have hany : (counterStart.evaluate.population.any fun m => archiveThreshold < m.test.fitness) =
      true := by decide +kernel
  obtain ⟨m, hm, hfit⟩ := List.any_eq_true.mp hany
  exact ⟨m, hm, of_decide_eq_true hfit⟩

theorem exists_next_counterStart : ∃ s', counterStart.Next counterWords s' := by
  have hlength : counterStart.completeGeneration.population.length = 2 := by
    have hperm := (perm_names_completeGeneration counterStart).length_eq
    rw [names_counterStart, namesOf, List.length_map] at hperm
    exact hperm
  obtain ⟨s', hbred⟩ := exists_breed_of_le_eliteSize (e := counterStart.completeGeneration)
    (by decide +kernel) hlength.ge (counterWords counterStart.generation.toUInt64)
  refine ⟨s', budget_counterStart, Archive.converged_eq_false ?_, hbred⟩
  have hnew := counterStart.archive.length_newFrom_le counterStart.completeGeneration.population
  rw [hlength] at hnew
  rw [archive_completeGeneration]
  show ([] ++ counterStart.archive.newFrom _).length < 10
  exact hnew.trans_lt (by decide)

/-- The search for tests of `counterClass` archives tests and keeps them. -/
theorem counterStart_archive_grows :
    counterSearch.Enters counterWords counterStart ∧
      counterStart.generation < counterStart.config.maxGenerations ∧
      counterStart.completeGeneration.archive.Coherent ∧
      ∃ s', counterStart.Next counterWords s' ∧
        counterStart.completeGeneration.archive.tests <+: s'.completeGeneration.archive.tests ∧
        ∃ t ∈ counterStart.completeGeneration.archive.tests,
          t.weightedScore s'.completeGeneration.targets Objective.all = t.fitness := by
  obtain ⟨s', hnext⟩ := exists_next_counterStart
  obtain ⟨hcoherent, hgrows, hscores⟩ := archive_only_grows enters_counterStart budget_counterStart
  obtain ⟨m, hm, hfit⟩ := exists_fit_counterStart
  have ht : m.test ∈ counterStart.completeGeneration.archive.tests := by
    refine mem_archive_of_fit ?_ hm hfit Std.HashSet.not_mem_empty
    rw [names_counterStart]
    decide
  refine ⟨enters_counterStart, budget_counterStart, hcoherent, s', hnext, hgrows s' hnext,
    m.test, ht, ?_⟩
  exact ((hscores m.test ht).2.2 s' hnext.leads _ (by simp) m.test rfl rfl).2

end Engine

end Testwright
