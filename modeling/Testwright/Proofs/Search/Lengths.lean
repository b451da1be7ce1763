import Mathlib.Data.List.MinMax
import Mathlib.Order.Nat
import Testwright.Proofs.Search.Crossing
import Testwright.Proofs.Search.Heredity

/-!
# The length of tests

A child with too many rows gives way to a copy of a parent, which may have too many rows itself. So
what limits the tests of a search is the configured length or the longest seed test. While the seed
tests keep to the configured length, crossed children do too, since each of them has as many rows as
one of its parents. Main statement: `tests_within_limit`.
-/

namespace Testwright

open Testwright.Random Breeding

-- what is drawn is never evaluated here
attribute [local irreducible] patience

variable {σ : Type} [WordSource σ] {c : Config} {limit maxRows : Nat} {population : List Chromosome}

theorem TestCase.rowCount_pos (t : TestCase) : 1 ≤ t.rowCount := Nat.succ_pos _

/-! ## Children within a limit -/

/-- The test of a member has no more rows than the limit. -/
def Chromosome.Within (limit : Nat) (m : Chromosome) : Prop := m.test.rowCount ≤ limit

/-- Members within a limit; beyond the end of a list stands a test of one row. -/
theorem within_getD (hlimit : 1 ≤ limit) (h : ∀ m ∈ population, m.Within limit) (k : Nat) :
    (population.getD k default).Within limit := by
  rw [List.getD_eq_getElem?_getD]
  cases hk : population[k]? with
  | none => exact hlimit
  | some m => exact h m (List.mem_of_getElem? hk)

omit [WordSource σ] in
/-- A child with too many rows gives way to a copy that is within the limit. -/
theorem within_bounded {parent : Chromosome} (hparent : parent.Within limit)
    (hmax : maxRows ≤ limit) (child : TestCase) :
    Yields (naming (bounded maxRows child parent) : Breeding σ Chromosome)
      (Chromosome.Within limit) := by
  refine .naming fun ids => ?_
  unfold bounded
  split
  · exact hparent
  · rename_i hfits
    exact (Nat.not_lt.mp hfits).trans hmax

theorem within_breedMutant (hlimit : 1 ≤ limit) (hmax : maxRows ≤ limit)
    (h : ∀ m ∈ population, m.Within limit) :
    Yields (breedMutant maxRows population : Breeding σ Chromosome) (Chromosome.Within limit) :=
  .then fun k => .then fun child => within_bounded (within_getD hlimit h k) hmax child

theorem within_breedCrossed (hlimit : 1 ≤ limit) (hmax : maxRows ≤ limit)
    (h : ∀ m ∈ population, m.Within limit) (pool places : Nat) :
    Yields (breedCrossed maxRows population pool places : Breeding σ (List Chromosome))
      fun new => ∀ m ∈ new, m.Within limit := by
  refine .then fun picks => .then fun children => ?_
  refine .bind (within_bounded (within_getD hlimit h _) hmax _) fun c1 h1 => ?_
  split
  · refine .bind (within_bounded (within_getD hlimit h _) hmax _) fun c2 h2 => .pure ?_
    simpa using ⟨h1, h2⟩
  · exact .pure (by simpa using h1)

/-- A limit that is not below the configured length is kept. -/
theorem hereditary_within (hlimit : 1 ≤ limit) (hmax : c.maxTestLength ≤ limit) :
    Hereditary σ c fun t => t.rowCount ≤ limit where
  mutant _ _ h := within_breedMutant hlimit hmax h
  crossed _ pool _ _ h places := within_breedCrossed hlimit hmax h pool places
  unscored _ _ heq h := by
    have hrows := congrArg TestCase.rowCount heq
    exact hrows.symm.trans_le h

theorem within_byFitness (h : ∀ m ∈ population, m.Within limit) :
    ∀ m ∈ byFitness population, m.Within limit := fun m hm =>
  h m ((perm_byFitness population).mem_iff.mp hm)

/-! ## Crossing without a limit -/

/-- Crossed children, whatever their length. -/
def crossedFreely (population : List Chromosome) (pool places : Nat) :
    Breeding σ (List Chromosome) := do
  let (i, j) ← drawing (pair pool)
  let (child1, child2) ←
    crossover (population.getD i default).test (population.getD j default).test
  if 1 < places then return [{ test := child1 }, { test := child2 }]
  else return [{ test := child1 }]

/-- A pass in which only mutants give way to copies of their parents. -/
def passCrossingFreely (c : Config) (population : List Chromosome) (places : Nat) :
    Breeding σ (List Chromosome) := do
  let pool := min population.length parentPool
  let crossed ← drawCrosses c pool >>= fun crosses =>
    if crosses then crossedFreely population pool places else pure []
  let mutant ← drawMutates c pool >>= mutantIf c population
  return crossed ++ mutant

/-- Each child of a crossover has as many rows as the parent that it has its tail from. -/
theorem rowCount_crossover (first second : TestCase) :
    Yields (crossover first second : Breeding σ (TestCase × TestCase))
      fun children => children.1.rowCount = second.rowCount ∧
        children.2.rowCount = first.rowCount := by
  intro s
  have hrow : 1 ≤ min first.rowCount second.rowCount :=
    Nat.le_min.mpr ⟨first.rowCount_pos, second.rowCount_pos⟩
  exact (exchanges_crossAt (drawCut_mem hrow s) _ _).rowCount

omit [WordSource σ] in
theorem naming_bounded_of_le {child : TestCase} (h : child.rowCount ≤ maxRows)
    (parent : Chromosome) :
    (naming (bounded maxRows child parent) : Breeding σ Chromosome) = pure { test := child } := by
  funext s
  simp only [naming, bounded, if_neg (Nat.not_lt.mpr h)]
  rfl

/-- Where the parents are within the limit, no crossed child is beyond it. -/
theorem breedCrossed_eq_crossedFreely (hmax : 1 ≤ maxRows)
    (h : ∀ m ∈ population, m.Within maxRows) (pool places : Nat) :
    (breedCrossed maxRows population pool places : Breeding σ (List Chromosome)) =
      crossedFreely population pool places := by
  refine bind_congr fun picks => ?_
  refine (rowCount_crossover _ _).bind_congr fun children hrows => ?_
  have h1 : children.1.rowCount ≤ maxRows := hrows.1.trans_le (within_getD hmax h _)
  have h2 : children.2.rowCount ≤ maxRows := hrows.2.trans_le (within_getD hmax h _)
  simp only [naming_bounded_of_le h1, naming_bounded_of_le h2, pure_bind]

theorem breedPass_eq_passCrossingFreely (hmax : 1 ≤ c.maxTestLength)
    (h : ∀ m ∈ population, m.Within c.maxTestLength) (places : Nat) :
    (breedPass c population places : Breeding σ (List Chromosome)) =
      passCrossingFreely c population places := by
  have hcrossed : ∀ pool, (crossedIf c population pool places : Bool → Breeding σ _) =
      fun crosses => if crosses then crossedFreely population pool places else pure [] := by
    intro pool
    funext crosses
    rw [crossedIf, breedCrossed_eq_crossedFreely hmax h]
  rw [breedPass_eq, passCrossingFreely]
  simp only [hcrossed]

/-! ## The tests of a search -/

namespace Engine

variable {words : UInt64 → σ} {e r s : Engine}

/-- The number of rows of the longest seed test. -/
def longestSeed (e : Engine) : Nat := (e.seedTests.map TestCase.rowCount).foldr max 0

/-- The number of rows that no test of a search exceeds. -/
def rowLimit (e : Engine) : Nat := max e.config.maxTestLength e.longestSeed

theorem le_longestSeed {t : TestCase} (h : t ∈ e.seedTests) : t.rowCount ≤ e.longestSeed :=
  List.le_max_of_le (List.mem_map_of_mem h) (Nat.le_refl _)

theorem longestSeed_le (h : ∀ t ∈ e.seedTests, t.rowCount ≤ limit) : e.longestSeed ≤ limit :=
  List.max_le_of_forall_le _ _ (List.forall_mem_map.mpr h)

/-- A search that begins has a seed test, which has a row. -/
theorem Enters.one_le_rowLimit (h : e.Enters words s) : 1 ≤ e.rowLimit := by
  obtain ⟨t, ht⟩ := List.exists_mem_of_length_pos h.seedCount_pos
  exact t.rowCount_pos.trans ((le_longestSeed ht).trans (Nat.le_max_right _ _))

theorem Enters.hereditary_within (h : e.Enters words s) :
    Hereditary σ e.config fun t => t.rowCount ≤ e.rowLimit :=
  Testwright.hereditary_within h.one_le_rowLimit (Nat.le_max_left _ _)

theorem rowCount_le_rowLimit {t : TestCase} (h : t ∈ e.seedTests) : t.rowCount ≤ e.rowLimit :=
  (le_longestSeed h).trans (Nat.le_max_right _ _)

theorem Enters.within (h : e.Enters words s) : ∀ t ∈ s.tests, t.rowCount ≤ e.rowLimit :=
  h.forall_tests h.hereditary_within fun _ ht => rowCount_le_rowLimit ht

theorem Reaches.within (h : e.Reaches words r) : ∀ t ∈ r.tests, t.rowCount ≤ e.rowLimit := by
  obtain ⟨s, hs, -⟩ := h.exists_addsNone
  exact h.forall_tests hs.hereditary_within fun _ ht => rowCount_le_rowLimit ht

/-- **Tests stay within the limit.** Whatever the class, the configuration, the targets and the
random words of a search are, no test in the population or in the archive has more rows than the
configured length or the longest seed test, in any state that the search comes to and when it
returns. While no seed test exceeds the configured length, no crossed child ever gives way to a copy
of a parent: a pass over the population of a generation does what it would do if only mutants were
limited. -/
theorem tests_within_limit (e : Engine) (words : UInt64 → σ) :
    (∀ s, e.Reaches words s → ∀ t ∈ s.tests, t.rowCount ≤ e.rowLimit) ∧
      (∀ r, e.run words = some r → ∀ t ∈ r.tests, t.rowCount ≤ e.rowLimit) ∧
      ((∀ t ∈ e.seedTests, t.rowCount ≤ e.config.maxTestLength) →
        ∀ s, e.Enters words s → ∀ places,
          (breedPass s.config (byFitness s.completeGeneration.population) places :
              Breeding σ (List Chromosome)) =
            passCrossingFreely s.config (byFitness s.completeGeneration.population) places) := by
  refine ⟨fun s hs => hs.within, fun r hrun => ?_, fun hseeds s hs places => ?_⟩
  · rcases run_eq_some hrun with ⟨hnil, rfl⟩ | ⟨s, hs, ⟨-, rfl⟩ | ⟨hbudget, -, rfl⟩⟩
    · intro t ht
      have htests : ((e.start words).stop .empty).tests = [] := by
        show (e.start words).population.map _ ++ (e.start words).archive.tests = []
        rw [hnil, archive_start]
        rfl
      rw [htests] at ht
      cases ht
    · exact hs.within
    · exact (Reaches.completed hs hbudget).within
  · have hlimit : e.rowLimit = s.config.maxTestLength := by
      rw [hs.config_eq]
      exact Nat.max_eq_left (longestSeed_le hseeds)
    refine breedPass_eq_passCrossingFreely (hlimit ▸ hs.one_le_rowLimit)
      (within_byFitness fun m hm => ?_) places
    obtain ⟨m', hm', -, htest⟩ := exists_of_mem_completeGeneration hm
    rw [Chromosome.Within, htest, ← hlimit]
    exact hs.within m'.test (mem_tests_iff.mpr (.inl ⟨m', hm', rfl⟩))

/-- A test of two rows, with the comment that a boundary mutant marks. -/
def briefTest : TestCase where
  id := "test_tick_1"
  kind := .methodCall
  code := "// Act\ntarget.tick();"
  targetMethod := "tick"
  targetClass := "Counter"
  assertions := []

/-- A search for three tests that begins with `briefTest` and has no row to spare. -/
def narrowSearch : Engine where
  config := { populationSize := 3, eliteSize := 1, maxTestLength := 2 }
  seed := 0
  generator := ⟨counterClass, fun _ _ ids => ([briefTest], ids)⟩
  targets := []

/-- The tests of the narrow search have two rows at most and its crossed children are always taken,
while a boundary mutant of its seed test has a row too many. -/
theorem narrowSearch_within_limit :
    narrowSearch.Enters zeroWords (narrowSearch.start zeroWords) ∧
      (∀ t ∈ (narrowSearch.start zeroWords).tests, t.rowCount ≤ 2) ∧
      (∀ places, (breedPass (narrowSearch.start zeroWords).config
          (byFitness (narrowSearch.start zeroWords).completeGeneration.population) places :
            Breeding Zeros (List Chromosome)) =
        passCrossingFreely (narrowSearch.start zeroWords).config
          (byFitness (narrowSearch.start zeroWords).completeGeneration.population) places) ∧
      ∀ s : Supply Zeros, ((mutateBy .markBoundary briefTest).run s).1.rowCount = 3 := by
  have hseeds : ∀ t ∈ narrowSearch.seedTests, t.rowCount ≤ narrowSearch.config.maxTestLength := by
    decide +kernel
  have hlimit : narrowSearch.rowLimit = 2 := by decide +kernel
  have henters : narrowSearch.Enters zeroWords (narrowSearch.start zeroWords) :=
    enters_of_seedCount_pos (by decide)
  have hmarked : Text.rowCount (String.ofList (markBoundary briefTest.code.toList)).toList = 3 := by
    decide +kernel
  obtain ⟨hreached, -, hfree⟩ := tests_within_limit narrowSearch zeroWords
  refine ⟨henters, ?_, hfree hseeds _ henters, fun s => hmarked⟩
  rw [← hlimit]
  exact hreached _ (.entering henters)

end Engine

end Testwright
