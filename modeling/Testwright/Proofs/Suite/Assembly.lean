import Testwright.Proofs.Search.Coverage
import Testwright.Proofs.Search.Heredity
import Testwright.Proofs.Search.Rerun
import Testwright.Proofs.Search.Seeds
import Testwright.Suite.Hybrid

/-!
# What a hybrid suite keeps

Searched tests and tests that were written elsewhere get their names from two sources that do not
know of each other. The names tell the two kinds apart: that of a searched test is the name of a
seed test or derived from another one, and that of a test written elsewhere is neither. Main
statement: `tests_keep_first_of_each`, about what is left out of a suite.
-/

namespace Testwright

open Testwright.Random

-- what is drawn is never evaluated here
attribute [local irreducible] patience

/-! ## The names of searched tests -/

/-- A name as a search gives it: that of a seed test, or one derived from another name. -/
def IsSearchName (id : String) : Prop := "test_".toList <+: id.toList ∨ IsDerived id

theorem isSearchName_fresh {stem : String} (h : "test_".toList <+: stem.toList) (ids : IdSource) :
    IsSearchName (ids.fresh stem).1 := by
  refine .inl (h.trans ?_)
  rw [IdSource.toList_fresh]
  exact List.prefix_append _ _

namespace ClassInfo

variable (c : ClassInfo)

theorem searchName_seedTests (className methodName : String) (ids : IdSource) :
    ∀ t ∈ (c.seedTests className methodName ids).1, IsSearchName t.id := by
  have hstem : ∀ rest : String, "test_".toList <+: ("test_" ++ rest).toList := by
    intro rest
    rw [String.toList_append]
    exact List.prefix_append _ _
  refine forall_mem_seedTests (fun m _ ids => ?_) (fun m _ e _ ids => ?_) (fun m _ ids => ?_) ids
  · exact isSearchName_fresh (hstem m.name) ids
  · refine isSearchName_fresh ?_ ids
    rw [String.append_assoc]
    exact hstem _
  · refine isSearchName_fresh ?_ ids
    rw [String.append_assoc]
    exact hstem _

end ClassInfo

namespace Engine

variable {σ : Type} [WordSource σ] {words : UInt64 → σ} {c : ClassInfo} {e r s : Engine}

/-- Whatever is bred has a derived name. -/
theorem hereditary_searchName (config : Config) :
    Hereditary σ config fun t => IsSearchName t.id where
  mutant _ _ _ := (newcomer_breedMutant _ _).mono fun _ h => .inr h.derived
  crossed _ _ _ _ _ _ := (newcomers_breedCrossed _ _ _ _).mono fun _ h m hm => .inr (h m hm).derived
  unscored _ _ heq h := TestCase.id_eq_of_unscored_eq heq ▸ h

/-- All tests with which a search over a class returns have names that a search gives. -/
theorem searchName_of_run (h : e.generator = c.generator) (hrun : e.run words = some r) :
    ∀ t ∈ r.tests, IsSearchName t.id := by
  refine forall_tests_of_run (hereditary_searchName _) ?_ hrun
  rw [seedTests, h]
  exact c.searchName_seedTests _ _ _

/-- The archive with which a search ends is empty, or that of a state that it came to. -/
theorem exists_reaches_of_run (h : e.run words = some r) :
    r.archive = {} ∨ ∃ s, e.Reaches words s ∧ s.archive.Coherent ∧ s.archive = r.archive := by
  rcases run_eq_some h with ⟨-, rfl⟩ | ⟨s, hs, hstop⟩
  · exact .inl (archive_start e)
  · rcases hstop with ⟨-, rfl⟩ | ⟨hbudget, -, rfl⟩
    · exact .inr ⟨s, .entering hs, hs.coherent, rfl⟩
    · exact .inr ⟨_, .completed hs hbudget, hs.coherent.append_newFrom _, rfl⟩

/-- The archive of a search over a class has no name twice, and only names that a search gives. -/
theorem archive_names_of_run (h : e.generator = c.generator) (hrun : e.run words = some r) :
    (r.archive.tests.map TestCase.id).Nodup ∧ ∀ t ∈ r.archive.tests, IsSearchName t.id := by
  refine ⟨?_, fun t ht => searchName_of_run h hrun t (List.mem_append_right _ ht)⟩
  rcases exists_reaches_of_run hrun with hempty | ⟨s, -, hcoherent, harchive⟩
  · rw [hempty]
    exact .nil
  · rw [← harchive]
    exact hcoherent.nodup

end Engine

/-! ## The names of tests that were written elsewhere -/

namespace HybridSuite

open Engine Source

variable {s : HybridSuite}

theorem issued_externalTestsFrom (s : HybridSuite) (ids : IdSource) (codes : List String) :
    ∃ ids', IdSource.Issued ids ids' ((s.externalTestsFrom ids codes).map TestCase.id) := by
  induction codes generalizing ids with
  | nil => exact ⟨ids, .none (Nat.le_refl _)⟩
  | cons code rest ih =>
      obtain ⟨ids', hrest⟩ := ih (ids.fresh "external_test").2
      exact ⟨ids', (IdSource.issued_fresh ids "external_test").append hrest⟩

theorem not_isSearchName_fresh (ids : IdSource) :
    ¬ IsSearchName (ids.fresh "external_test").1 := by
  rintro (hseed | hderived)
  · obtain ⟨rest, hrest⟩ := hseed
    rw [IdSource.toList_fresh] at hrest
    have hfirst := congrArg List.head? hrest
    cases hfirst
  · exact ids.separator_notMem_fresh (by decide) hderived

theorem not_searchName_externalTestsFrom (s : HybridSuite) (ids : IdSource) (codes : List String) :
    ∀ t ∈ s.externalTestsFrom ids codes, ¬ IsSearchName t.id := by
  induction codes generalizing ids with
  | nil => exact fun t ht => absurd ht List.not_mem_nil
  | cons code rest ih =>
      intro t ht
      rcases List.mem_cons.mp ht with rfl | ht
      · exact not_isSearchName_fresh ids
      · exact ih _ t ht

/-! ## What is kept -/

theorem exists_run_of_tests {l : List TestCase} (h : s.tests = .ok (some l)) :
    ∃ e r, Engine.ofClass s.classInfo s.config = .ok e ∧ e.evolve = some r ∧
      l = dropRedundant (r.archive.tests ++ s.externalTests) := by
  rw [tests] at h
  cases hclass : Engine.ofClass s.classInfo s.config with
  | error fault =>
      rw [hclass] at h
      cases h
  | ok e =>
      rw [hclass] at h
      obtain ⟨r, hr, hl⟩ := Option.map_eq_some_iff.mp (Except.ok.inj h)
      exact ⟨e, r, rfl, hr, hl.symm⟩

/-- **A hybrid suite keeps the first test of each signature.** No two tests that the search archived
or that were written elsewhere have the same name. Those that are returned keep their order and have
different signatures; a test that is left out has the signature of a returned one before it. So what
is kept of the searched tests does not depend on those written elsewhere, and nothing is left out
when it is tried again. -/
theorem tests_keep_first_of_each {l : List TestCase} (h : s.tests = .ok (some l)) :
    ∃ e r, Engine.ofClass s.classInfo s.config = .ok e ∧ e.evolve = some r ∧
      ((r.archive.tests ++ s.externalTests).map TestCase.id).Nodup ∧
      l.Sublist (r.archive.tests ++ s.externalTests) ∧
      (l.map TestCase.id).Nodup ∧ (l.map TestCase.signature).Nodup ∧
      (∀ before t after, r.archive.tests ++ s.externalTests = before ++ t :: after → t ∉ l →
        ∃ u ∈ before, u ∈ l ∧ u.signature = t.signature) ∧
      dropRedundant r.archive.tests <+: l ∧ dropRedundant l = l := by
  obtain ⟨e, r, hclass, hrun, rfl⟩ := exists_run_of_tests h
  have hgenerator : e.generator = s.classInfo.generator := by
    obtain ⟨-, rfl⟩ := Engine.ofClass_eq_ok hclass
    rfl
  obtain ⟨harchive, hsearched⟩ := Engine.archive_names_of_run hgenerator hrun
  obtain ⟨ids, hexternal⟩ := s.issued_externalTestsFrom {} s.external
  have hnames : ((r.archive.tests ++ s.externalTests).map TestCase.id).Nodup := by
    rw [List.map_append]
    refine harchive.append hexternal.nodup fun id hid hid' => ?_
    obtain ⟨t, ht, rfl⟩ := List.mem_map.mp hid
    obtain ⟨u, hu, heq⟩ := List.mem_map.mp hid'
    have hnot := s.not_searchName_externalTestsFrom {} s.external u hu
    rw [heq] at hnot
    exact hnot (hsearched t ht)
  have hsub : (dropRedundant (r.archive.tests ++ s.externalTests)).Sublist
      (r.archive.tests ++ s.externalTests) := distinctFrom_sublist _ _ _
  have hsignatures := nodup_keys_distinctFrom TestCase.signature {}
    (r.archive.tests ++ s.externalTests)
  refine ⟨e, r, hclass, hrun, hnames, hsub, hnames.sublist (hsub.map _), hsignatures, ?_,
    distinct_prefix _ _ _, distinct_eq_self hsignatures⟩
  intro before t after hsplit hout
  rw [hsplit] at hout ⊢
  exact exists_earlier_of_notMem hout

/-- The same test under two names. -/
def onceCode : String := "@Test void once() \x7b target.tick(); \x7d"

def againCode : String := "@Test void again() \x7b target.tick(); \x7d"

/-- A search over `branchingClass`, joined by both of them. -/
def twinSuite : HybridSuite where
  classInfo := branchingClass
  config := counterSearch.config
  external := [onceCode, againCode]

theorem exists_tests_twinSuite : ∃ l, twinSuite.tests = .ok (some l) := by
  have hclass : Engine.ofClass twinSuite.classInfo twinSuite.config = .ok branchingSearch :=
    ofClass_branchingSearch
  have hlength : branchingStart.config.populationSize = branchingStart.population.length := by
    rw [population_branchingStart, ← List.length_map (f := fun m : Chromosome => m.test.id)]
    exact (congrArg List.length names_counterStart).symm
  have hreturns : (branchingSearch.run counterWords).isSome = true := by
    rw [enters_branchingStart.run_eq]
    exact isSome_runGenerations rfl hlength _
  obtain ⟨r, hr⟩ := Option.isSome_iff_exists.mp hreturns
  refine ⟨dropRedundant (r.archive.tests ++ twinSuite.externalTests), ?_⟩
  have hevolve : branchingSearch.evolve = some r := hr
  rw [tests, hclass]
  show Except.ok (Option.map _ branchingSearch.evolve) = _
  rw [hevolve]
  rfl

/-- One of the two is left out. -/
theorem twinSuite_keeps_first :
    ∃ l, twinSuite.tests = .ok (some l) ∧ (l.map TestCase.id).Nodup ∧
      (l.map TestCase.signature).Nodup ∧ dropRedundant l = l ∧
      ∃ t ∈ twinSuite.externalTests, t ∉ l := by
  obtain ⟨l, hl⟩ := exists_tests_twinSuite
  obtain ⟨e, r, -, -, -, -, hids, hsignatures, -, -, hagain⟩ := tests_keep_first_of_each hl
  obtain ⟨t, u, hpair, hne, htarget, hcode⟩ : ∃ t u, twinSuite.externalTests = [t, u] ∧
      t.id ≠ u.id ∧ t.targetMethod = u.targetMethod ∧
      normalCode t.code.toList = normalCode u.code.toList := by
    have hcalls : firstCaptures methodCall onceCode.toList =
        firstCaptures methodCall againCode.toList := by decide +kernel
    have htarget : targetMethod onceCode.toList = targetMethod againCode.toList := by
      rw [targetMethod, targetMethod, methodCalls, methodCalls, hcalls]
    exact ⟨_, _, rfl, by decide +kernel, htarget, by decide +kernel⟩
  have hsame : t.signature = u.signature := by
    rw [TestCase.signature, TestCase.signature, htarget, hcode]
  refine ⟨l, hl, hids, hsignatures, hagain, ?_⟩
  by_contra hall
  rw [not_exists] at hall
  have hkept : ∀ x ∈ twinSuite.externalTests, x ∈ l := fun x hx =>
    by_contra fun hout => hall x ⟨hx, hout⟩
  rw [hpair] at hkept
  have heq := List.inj_on_of_nodup_map hsignatures (hkept t (by simp)) (hkept u (by simp)) hsame
  exact hne (congrArg TestCase.id heq)

end HybridSuite

end Testwright
