import Testwright.Proofs.Search.Archive
import Testwright.Proofs.Search.Offspring

/-!
# Names identify tests

In a search over a class, a test keeps its name for as long as it is in the population or the
archive, and no other test is ever given that name. Main statement: `name_identifies_test`. It rests
on an invariant of the states of a search (`Engine.Named`), and on where the tests of a later state
come from (`Engine.Inherits`).
-/

namespace Testwright

open Testwright.Random IdSource

-- what is drawn is never evaluated here
attribute [local irreducible] patience

/-- A test without its scores. -/
def TestCase.unscored (t : TestCase) : TestCase :=
  { t with fitness := 0, coverage := 0, mutationScore := 0 }

theorem TestCase.id_eq_of_unscored_eq {t u : TestCase} (h : t.unscored = u.unscored) :
    t.id = u.id := by
  have hid := congrArg TestCase.id h
  exact hid

namespace Engine

variable {σ : Type} [WordSource σ] {words : UInt64 → σ} {c : ClassInfo}
  {e s s' s'' r r' : Engine} {t t' : TestCase}

/-- The tests in the population and in the archive. -/
def tests (s : Engine) : List TestCase := s.population.map Chromosome.test ++ s.archive.tests

theorem mem_tests_iff :
    t ∈ s.tests ↔ (∃ m ∈ s.population, m.test = t) ∨ t ∈ s.archive.tests := by
  rw [tests, List.mem_append, List.mem_map]

/-! ## Names in one state -/

/-- The names of the tests were all made before, no two members of the population have the same
one, and tests with the same name are the same but for their scores. -/
structure Named (s : Engine) : Prop where
  serial_lt : ∀ t ∈ s.tests, serial t.id < s.ids.next
  nodup : (namesOf s.population).Nodup
  unique : ∀ t ∈ s.tests, ∀ t' ∈ s.tests, t.id = t'.id → t.unscored = t'.unscored

/-- All tests of the second state are tests of the first one, but for their scores. -/
def AddsNone (s s' : Engine) : Prop := ∀ t' ∈ s'.tests, ∃ t ∈ s.tests, t.unscored = t'.unscored

/-- A state keeps the invariant when it only loses tests and scores others anew. -/
theorem Named.of_addsNone (h : s.Named) (hnone : s.AddsNone s') (hids : s'.ids = s.ids)
    (hnames : (namesOf s'.population).Perm (namesOf s.population)) : s'.Named where
  serial_lt := by
    intro t' ht'
    obtain ⟨t, ht, heq⟩ := hnone t' ht'
    rw [← TestCase.id_eq_of_unscored_eq heq, hids]
    exact h.serial_lt t ht
  nodup := hnames.nodup_iff.mpr h.nodup
  unique := by
    intro t₁ ht₁ t₂ ht₂ hid
    obtain ⟨u₁, hu₁, heq₁⟩ := hnone t₁ ht₁
    obtain ⟨u₂, hu₂, heq₂⟩ := hnone t₂ ht₂
    rw [← heq₁, ← heq₂]
    apply h.unique u₁ hu₁ u₂ hu₂
    rw [TestCase.id_eq_of_unscored_eq heq₁, TestCase.id_eq_of_unscored_eq heq₂, hid]

/-! ## Evaluation and archiving -/

theorem addsNone_evaluate (s : Engine) : s.AddsNone s.evaluate := by
  intro t' ht'
  rcases mem_tests_iff.mp ht' with ⟨m, hm, rfl⟩ | harchived
  · obtain ⟨m₀, hm₀, rfl⟩ := List.mem_map.mp hm
    exact ⟨m₀.test, mem_tests_iff.mpr (.inl ⟨m₀, hm₀, rfl⟩), rfl⟩
  · exact ⟨t', mem_tests_iff.mpr (.inr harchived), rfl⟩

theorem named_evaluate (h : s.Named) : s.evaluate.Named := by
  refine h.of_addsNone (addsNone_evaluate s) rfl ?_
  rw [evaluate, namesOf, List.map_map]
  exact .refl _

theorem addsNone_completeGeneration (s : Engine) : s.AddsNone s.completeGeneration := by
  intro t' ht'
  apply addsNone_evaluate s
  have hranked : ∀ m ∈ s.completeGeneration.population, m.test ∈ s.evaluate.tests := by
    intro m hm
    exact List.mem_append_left _
      ((tests_completeGeneration_perm s).mem_iff.mp (List.mem_map_of_mem hm))
  rcases mem_tests_iff.mp ht' with ⟨m, hm, rfl⟩ | harchived
  · exact hranked m hm
  · rw [archive_completeGeneration] at harchived
    rcases List.mem_append.mp harchived with hold | hnew
    · exact List.mem_append_right _ hold
    · obtain ⟨-, -, m, hm, rfl⟩ := Archive.of_mem_newFrom hnew
      exact hranked m hm

theorem named_completeGeneration (h : s.Named) : s.completeGeneration.Named :=
  h.of_addsNone (addsNone_completeGeneration s) rfl (perm_names_completeGeneration s)

/-! ## Breeding -/

theorem nodup_names_elite (c : Config) {population : List Chromosome}
    (h : (namesOf population).Nodup) : (namesOf (elite c (byFitness population))).Nodup := by
  have hsorted : (namesOf (byFitness population)).Nodup :=
    (perm_namesOf (perm_byFitness population)).nodup_iff.mpr h
  have hnames : namesOf (elite c (byFitness population)) =
      namesOf ((byFitness population).take c.eliteSize) := List.map_map
  rw [hnames]
  exact hsorted.sublist ((List.take_sublist _ _).map _)

theorem test_mem_of_mem_elite {c : Config} {m : Chromosome}
    (h : m ∈ elite c (byFitness s.population)) : m.test ∈ s.tests := by
  obtain ⟨m₀, hm₀, rfl⟩ := List.mem_map.mp h
  have hsorted := (perm_byFitness _).mem_iff.mp (List.mem_of_mem_take hm₀)
  exact mem_tests_iff.mpr (.inl ⟨m₀, hsorted, rfl⟩)

/-- After breeding there are tests that were there before and tests of newcomers that were named in
between. -/
structure Bred (s s' : Engine) (filled : List Chromosome) : Prop where
  newcomers : ∀ m ∈ filled, m.IsNewcomer
  issued : Issued s.ids s'.ids (namesOf filled)
  names : (namesOf s'.population).Sublist
    (namesOf (elite s.config (byFitness s.population)) ++ namesOf filled)
  origin : ∀ t' ∈ s'.tests, t' ∈ s.tests ∨ ∃ m ∈ filled, m.test = t'

theorem exists_bred {words : σ} (h : s.breed words = some s') : ∃ filled, Bred s s' filled := by
  obtain ⟨r, hr, rfl⟩ := exists_of_breed h
  obtain ⟨filled, hfill, hpopulation⟩ := exists_of_nextPopulation hr
  have hsub : r.1.Sublist (elite s.config (byFitness s.population) ++ filled) := by
    rw [hpopulation]
    exact List.take_sublist _ _
  have hnewcomers := newcomers_fillPlaces (fun m hm => absurd hm List.not_mem_nil) hfill
  refine ⟨filled, hnewcomers, issued_fillPlaces (.none (Nat.le_refl _)) hfill, ?_, ?_⟩
  · rw [← namesOf_append]
    exact hsub.map _
  · intro t' ht'
    rcases mem_tests_iff.mp ht' with ⟨m, hm, rfl⟩ | harchived
    · rcases List.mem_append.mp (hsub.subset hm) with hkept | hfilled
      · exact .inl (test_mem_of_mem_elite hkept)
      · exact .inr ⟨m, hfilled, rfl⟩
    · exact .inl (mem_tests_iff.mpr (.inr harchived))

namespace Bred

variable {filled : List Chromosome} {m : Chromosome}

theorem bounds (h : Bred s s' filled) (hm : m ∈ filled) :
    s.ids.next ≤ serial m.test.id ∧ serial m.test.id < s'.ids.next :=
  h.issued.bounds _ (List.mem_map_of_mem hm)

/-- A test that was there before does not have the name of a new one. -/
theorem id_ne (h : Bred s s' filled) (hs : s.Named) (ht : t ∈ s.tests) (hm : m ∈ filled) :
    t.id ≠ m.test.id := by
  intro hid
  have hold := hs.serial_lt t ht
  have hnew := (h.bounds hm).1
  rw [hid] at hold
  omega

theorem named (h : Bred s s' filled) (hs : s.Named) : s'.Named where
  serial_lt := by
    intro t ht
    rcases h.origin t ht with hold | ⟨m, hm, rfl⟩
    · exact (hs.serial_lt t hold).trans_le h.issued.le
    · exact (h.bounds hm).2
  nodup := by
    refine List.Nodup.sublist h.names ?_
    refine (nodup_names_elite _ hs.nodup).append h.issued.nodup ?_
    intro id hkept hnew
    obtain ⟨m₀, hm₀, rfl⟩ := List.mem_map.mp hkept
    obtain ⟨m, hm, hid⟩ := List.mem_map.mp hnew
    exact h.id_ne hs (test_mem_of_mem_elite hm₀) hm hid.symm
  unique := by
    intro t ht t' ht' hid
    -- two old tests are identified by the invariant, two new ones by the numbers in their names
    rcases h.origin t ht with hold | ⟨m, hm, rfl⟩ <;>
      rcases h.origin t' ht' with hold' | ⟨m', hm', rfl⟩
    · exact hs.unique t hold t' hold' hid
    · exact absurd hid (h.id_ne hs hold hm')
    · exact absurd hid.symm (h.id_ne hs hold' hm)
    · rw [List.inj_on_of_nodup_map h.issued.nodup hm hm' hid]

end Bred

/-! ## A whole search -/

/-- Each test of the second state is a test of the first one, but for its scores, or was named
after it. -/
structure Inherits (s s' : Engine) : Prop where
  le : s.ids.next ≤ s'.ids.next
  origin : ∀ t' ∈ s'.tests,
    (∃ t ∈ s.tests, t.unscored = t'.unscored) ∨ s.ids.next ≤ serial t'.id

theorem Inherits.refl (s : Engine) : Inherits s s :=
  ⟨Nat.le_refl _, fun t ht => .inl ⟨t, ht, rfl⟩⟩

theorem Inherits.trans (h : Inherits s s') (h' : Inherits s' s'') : Inherits s s'' where
  le := h.le.trans h'.le
  origin := by
    intro t'' ht''
    rcases h'.origin t'' ht'' with ⟨t', ht', heq'⟩ | hnew
    · rcases h.origin t' ht' with ⟨t, ht, heq⟩ | hnew
      · exact .inl ⟨t, ht, heq.trans heq'⟩
      · exact .inr (TestCase.id_eq_of_unscored_eq heq' ▸ hnew)
    · exact .inr (h.le.trans hnew)

theorem Next.inherits (h : s.Next words s') : Inherits s s' := by
  obtain ⟨filled, hbred⟩ := exists_bred h.bred
  refine ⟨hbred.issued.le, fun t' ht' => ?_⟩
  rcases hbred.origin t' ht' with hold | ⟨m, hm, rfl⟩
  · exact .inl (addsNone_completeGeneration s t' hold)
  · exact .inr (hbred.bounds hm).1

theorem Leads.inherits (h : Leads words s s') : Inherits s s' := by
  induction h with
  | refl => exact .refl s
  | tail _ hnext ih => exact ih.trans (Next.inherits hnext)

/-- Where names identify tests, they identify the tests of later states too. -/
theorem Named.unique_of_inherits (hs : s.Named) (h : Inherits s s') (ht : t ∈ s.tests)
    (ht' : t' ∈ s'.tests) (hid : t.id = t'.id) : t.unscored = t'.unscored := by
  rcases h.origin t' ht' with ⟨u, hu, heq⟩ | hnew
  · rw [← heq]
    apply hs.unique t ht u hu
    rw [TestCase.id_eq_of_unscored_eq heq, hid]
  · have hold := hs.serial_lt t ht
    rw [hid] at hold
    omega

/-- Where nothing is archived, names that were made one after another identify the tests. -/
theorem Named.of_issued {ids : IdSource} (h : Issued ids s.ids (namesOf s.population))
    (harchive : s.archive.tests = []) : s.Named := by
  have hmem : ∀ t ∈ s.tests, ∃ m ∈ s.population, m.test = t := by
    intro t ht
    rcases mem_tests_iff.mp ht with hm | harchived
    · exact hm
    · rw [harchive] at harchived
      cases harchived
  refine ⟨?_, h.nodup, ?_⟩
  · intro t ht
    obtain ⟨m, hm, rfl⟩ := hmem t ht
    exact (h.bounds _ (List.mem_map_of_mem hm)).2
  · intro t ht t' ht' hid
    obtain ⟨m, hm, rfl⟩ := hmem t ht
    obtain ⟨m', hm', rfl⟩ := hmem t' ht'
    rw [List.inj_on_of_nodup_map h.nodup hm hm' hid]

/-- The seed tests of a class, and the mutants that join them, are named one after another. -/
theorem named_start (h : e.generator = c.generator) : (e.start words).Named := by
  have hseeds : Issued {} (e.generator.seeds e.generator.classInfo.name anyName {}).2
      ((e.generator.seeds e.generator.classInfo.name anyName {}).1.map TestCase.id) := by
    rw [h]
    exact c.issued_seedTests c.name anyName {}
  rw [start_eq]
  dsimp only
  split
  · exact .of_issued (.none hseeds.le) rfl
  · have hnames : Issued {} (e.generator.seeds e.generator.classInfo.name anyName {}).2
        (namesOf ((e.generator.seeds e.generator.classInfo.name anyName {}).1.map
          fun t => { test := t })) := by
      rw [namesOf, List.map_map]
      exact hseeds
    exact .of_issued (issued_padPopulation _ _ _ _ hnames) rfl

theorem Enters.named (h : e.generator = c.generator) (hs : e.Enters words s) : s.Named := by
  induction hs using Enters.induction with
  | first => exact named_start h
  | next s s' _ hnext ih =>
      obtain ⟨filled, hbred⟩ := exists_bred hnext.bred
      exact hbred.named (named_completeGeneration ih)

theorem Reaches.named (h : e.generator = c.generator) (hr : e.Reaches words r) : r.Named := by
  cases hr with
  | entering hs => exact hs.named h
  | evaluated hs _ => exact named_evaluate (hs.named h)
  | completed hs _ => exact named_completeGeneration (hs.named h)

theorem Reaches.exists_addsNone (h : e.Reaches words r) : ∃ s, e.Enters words s ∧ s.AddsNone r := by
  cases h with
  | entering hs => exact ⟨r, hs, fun t ht => ⟨t, ht, rfl⟩⟩
  | evaluated hs _ => exact ⟨_, hs, addsNone_evaluate _⟩
  | completed hs _ => exact ⟨_, hs, addsNone_completeGeneration _⟩

theorem Reaches.unscored_eq (h : e.generator = c.generator) (hr : e.Reaches words r)
    (hr' : e.Reaches words r') (ht : t ∈ r.tests) (ht' : t' ∈ r'.tests) (hid : t.id = t'.id) :
    t.unscored = t'.unscored := by
  obtain ⟨s, hs, hnone⟩ := hr.exists_addsNone
  obtain ⟨s', hs', hnone'⟩ := hr'.exists_addsNone
  obtain ⟨u, hu, heq⟩ := hnone t ht
  obtain ⟨u', hu', heq'⟩ := hnone' t' ht'
  have hid' : u.id = u'.id := by
    rw [TestCase.id_eq_of_unscored_eq heq, TestCase.id_eq_of_unscored_eq heq', hid]
  rw [← heq, ← heq']
  -- whichever of the two states came first identifies the tests of the other one
  rcases hs.total hs' with hleads | hleads
  · exact (hs.named h).unique_of_inherits hleads.inherits hu hu' hid'
  · exact ((hs'.named h).unique_of_inherits hleads.inherits hu' hu hid'.symm).symm

/-- **Names identify tests.** In a search over a class, whatever its configuration, its targets and
its random words: no two members of a population have the same name; two tests with the same name,
wherever they are and whenever, are the same but for their scores; and so a test that is fit enough
is archived, unless that very test is in the archive already. -/
theorem name_identifies_test (h : e.generator = c.generator) (hr : e.Reaches words r)
    (hr' : e.Reaches words r') :
    (namesOf r.population).Nodup ∧
      (∀ t ∈ r.tests, ∀ t' ∈ r'.tests, t.id = t'.id → t.unscored = t'.unscored) ∧
      ∀ s, e.Enters words s → s.generation < s.config.maxGenerations →
        ∀ m ∈ s.evaluate.population, archiveThreshold < m.test.fitness →
          (m.test.id ∈ s.archive.ids → ∃ t ∈ s.archive.tests, t.unscored = m.test.unscored) ∧
          (m.test.id ∉ s.archive.ids → m.test ∈ s.completeGeneration.archive.tests) := by
  refine ⟨(hr.named h).nodup, fun t ht t' ht' => hr.unscored_eq h hr' ht ht', ?_⟩
  intro s hs hbudget m hm hfit
  refine ⟨fun hskipped => ?_, fun hnew => mem_archive_of_fit (hs.named h).nodup hm hfit hnew⟩
  rw [hs.coherent.mem_ids] at hskipped
  obtain ⟨t, ht, hid⟩ := List.mem_map.mp hskipped
  have hevaluated := Reaches.evaluated hs hbudget
  exact ⟨t, ht, hevaluated.unscored_eq h hevaluated (List.mem_append_right _ ht)
    (List.mem_append_left _ (List.mem_map_of_mem hm)) hid⟩

/-- A seed test of `counterSearch` is found in the archive under its name. -/
theorem counterStart_name_identifies_test :
    create counterClass.generator counterSearch.config counterSearch.targets = .ok counterSearch ∧
      counterSearch.generator = counterClass.generator ∧
      counterSearch.Reaches counterWords counterStart ∧
      counterSearch.Reaches counterWords counterStart.completeGeneration ∧
      (namesOf counterStart.population).Nodup ∧
      ∃ t ∈ counterStart.tests, ∃ t' ∈ counterStart.completeGeneration.archive.tests,
        t.id = t'.id ∧ t.unscored = t'.unscored := by
  have hstart : counterSearch.Reaches counterWords counterStart := .entering enters_counterStart
  have hcomplete : counterSearch.Reaches counterWords counterStart.completeGeneration :=
    .completed enters_counterStart budget_counterStart
  obtain ⟨hnames, hsame, harchived⟩ := name_identifies_test (c := counterClass) rfl hstart hcomplete
  obtain ⟨m, hm, hfit⟩ := exists_fit_counterStart
  have ht' : m.test ∈ counterStart.completeGeneration.archive.tests :=
    (harchived _ enters_counterStart budget_counterStart m hm hfit).2 Std.HashSet.not_mem_empty
  obtain ⟨t, ht, heq⟩ := addsNone_evaluate counterStart m.test
    (List.mem_append_left _ (List.mem_map_of_mem hm))
  have hid := TestCase.id_eq_of_unscored_eq heq
  exact ⟨create_counterSearch, rfl, hstart, hcomplete, hnames, t, ht, m.test, ht', hid,
    hsame t ht m.test (List.mem_append_right _ ht') hid⟩

end Engine

end Testwright
