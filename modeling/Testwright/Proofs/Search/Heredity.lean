import Testwright.Proofs.Search.Generations
import Testwright.Proofs.Search.Identity

/-!
# Heredity

What all tests of a search have in common because its seed tests have it. A kind of tests is
hereditary when whatever is bred from members of this kind is of this kind, and scores make no
difference (`Hereditary`). If the seed tests are of a hereditary kind, so are all tests that the
search ever has (`Engine.Reaches.forall_tests`), and those with which it returns
(`Engine.forall_tests_of_run`).
-/

namespace Testwright

open Testwright.Random Breeding

-- what is drawn is never evaluated here
attribute [local irreducible] patience

variable {σ : Type} [WordSource σ] {c : Config} {kind : TestCase → Prop}
  {population : List Chromosome}

/-- Whatever is drawn, what is bred from members of a kind is of this kind, and the scores of a test
have no influence on its kind. -/
structure Hereditary (σ : Type) [WordSource σ] (c : Config) (kind : TestCase → Prop) : Prop where
  mutant : ∀ population : List Chromosome, population ≠ [] → (∀ m ∈ population, kind m.test) →
    Yields (breedMutant c.maxTestLength population : Breeding σ Chromosome) fun m => kind m.test
  crossed : ∀ (population : List Chromosome) (pool : Nat), c.crossesWith pool = true →
    pool ≤ population.length → (∀ m ∈ population, kind m.test) → ∀ places,
      Yields (breedCrossed c.maxTestLength population pool places : Breeding σ (List Chromosome))
        fun new => ∀ m ∈ new, kind m.test
  unscored : ∀ t u : TestCase, t.unscored = u.unscored → kind t → kind u

namespace Hereditary

theorem breedPass (h : Hereditary σ c kind) (hsome : population ≠ [])
    (hkind : ∀ m ∈ population, kind m.test) (places : Nat) :
    Yields (breedPass c population places : Breeding σ (List Chromosome))
      fun new => ∀ m ∈ new, kind m.test :=
  forall_mem_breedPass (fun m => kind m.test)
    (fun pool hcross hpool => h.crossed population pool hcross hpool hkind)
    (h.mutant population hsome hkind) places

theorem nextPopulation (h : Hereditary σ c kind) (hsize : c.populationSize ≤ population.length)
    (hkind : ∀ m ∈ population, kind m.test) {s : Supply σ} {r : List Chromosome × Supply σ}
    (hnext : nextPopulation c population s = some r) : ∀ m ∈ r.1, kind m.test := by
  obtain ⟨filled, hfill, hpopulation⟩ := exists_of_nextPopulation hnext
  have hsorted : ∀ m ∈ byFitness population, kind m.test := fun m hm =>
    hkind m ((perm_byFitness population).mem_iff.mp hm)
  by_cases hsome : byFitness population = []
  · -- nothing can be bred from nobody, and nothing is asked for
    have hlength := length_nextPopulation hnext
    rw [← length_byFitness, hsome, List.length_nil] at hsize
    rw [List.eq_nil_of_length_eq_zero (hlength.trans (Nat.eq_zero_of_le_zero hsize))]
    exact fun m hm => absurd hm List.not_mem_nil
  · intro m hm
    rw [hpopulation] at hm
    rcases List.mem_append.mp (List.mem_of_mem_take hm) with hkept | hfilled
    · obtain ⟨m', hm', rfl⟩ := List.mem_map.mp hkept
      exact hsorted m' (List.mem_of_mem_take hm')
    · exact forall_mem_fillPlaces (fun m => kind m.test) (h.breedPass hsome hsorted)
        (fun m hm => absurd hm List.not_mem_nil) hfill m hfilled

end Hereditary

namespace Engine

variable {words : UInt64 → σ} {e r s s' : Engine}

/-- The tests that a search begins with. -/
def seedTests (e : Engine) : List TestCase :=
  (e.generator.seeds e.generator.classInfo.name anyName {}).1

/-- A generation has as many members as are asked for, or more. -/
theorem Enters.populationSize_le (h : e.Enters words s) :
    s.config.populationSize ≤ s.population.length := by
  induction h using Enters.induction with
  | first h =>
      rw [config_start, length_start h.seedCount_pos]
      exact le_sizeAt e 0
  | next s s' _ hnext _ =>
      obtain ⟨r, hr, rfl⟩ := exists_of_breed hnext.bred
      exact (length_nextPopulation hr).ge

/-- One generation keeps a hereditary kind. -/
theorem forall_tests_next (hkind : Hereditary σ s.config kind)
    (hsize : s.config.populationSize ≤ s.population.length) (hnext : s.Next words s')
    (h : ∀ t ∈ s.tests, kind t) : ∀ t ∈ s'.tests, kind t := by
  have hcomplete : ∀ t ∈ s.completeGeneration.tests, kind t := by
    intro t ht
    obtain ⟨u, hu, heq⟩ := addsNone_completeGeneration s t ht
    exact hkind.unscored u t heq (h u hu)
  obtain ⟨r, hr, rfl⟩ := exists_of_breed hnext.bred
  have hbred : ∀ m ∈ r.1, kind m.test := by
    refine hkind.nextPopulation ?_ (fun m hm => ?_) hr
    · rw [length_completeGeneration]
      exact hsize
    · exact hcomplete _ (mem_tests_iff.mpr (.inl ⟨m, hm, rfl⟩))
  intro t ht
  rcases mem_tests_iff.mp ht with ⟨m, hm, rfl⟩ | harchived
  · exact hbred m hm
  · exact hcomplete t (mem_tests_iff.mpr (.inr harchived))

theorem Enters.forall_tests (hkind : Hereditary σ e.config kind)
    (hseeds : ∀ t ∈ e.seedTests, kind t) (h : e.Enters words s) : ∀ t ∈ s.tests, kind t := by
  induction h using Enters.induction with
  | first =>
      intro t ht
      rcases mem_tests_iff.mp ht with ⟨m, hm, rfl⟩ | harchived
      · exact forall_mem_start (fun m => kind m.test) hseeds hkind.mutant m hm
      · rw [archive_start] at harchived
        cases harchived
  | next s s' hs hnext ih =>
      rw [← hs.config_eq] at hkind
      exact forall_tests_next hkind hs.populationSize_le hnext ih

/-- All tests that a search comes to are of a hereditary kind if its seed tests are. -/
theorem Reaches.forall_tests (hkind : Hereditary σ e.config kind)
    (hseeds : ∀ t ∈ e.seedTests, kind t) (h : e.Reaches words r) : ∀ t ∈ r.tests, kind t := by
  obtain ⟨s, hs, hnone⟩ := h.exists_addsNone
  intro t ht
  obtain ⟨u, hu, heq⟩ := hnone t ht
  exact hkind.unscored u t heq (hs.forall_tests hkind hseeds u hu)

/-- So are the tests with which it returns. -/
theorem forall_tests_of_run (hkind : Hereditary σ e.config kind)
    (hseeds : ∀ t ∈ e.seedTests, kind t) (h : e.run words = some r) : ∀ t ∈ r.tests, kind t := by
  rcases run_eq_some h with ⟨hnil, rfl⟩ | ⟨s, hs, ⟨-, rfl⟩ | ⟨hbudget, -, rfl⟩⟩
  · intro t ht
    have htests : ((e.start words).stop .empty).tests = [] := by
      show (e.start words).population.map _ ++ (e.start words).archive.tests = []
      rw [hnil, archive_start]
      rfl
    rw [htests] at ht
    cases ht
  · exact fun t ht => hs.forall_tests hkind hseeds t ht
  · exact fun t ht => (Reaches.completed hs hbudget).forall_tests hkind hseeds t ht

end Engine

end Testwright
