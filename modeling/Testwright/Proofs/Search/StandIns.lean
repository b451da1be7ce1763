import Testwright.Proofs.Decimal.Order
import Testwright.Proofs.Search.Lengths

/-!
# What stands in for a crossed child

A crossed child has as many rows as the parent that it has its tail from. When these are too many,
a copy of the parent that it has its head from is taken in its place, whether or not this is the
fitter one of the two. Main statement: `stand_in_copies_fitter_iff`, which says when it is.
-/

namespace Testwright

open Testwright.Random Breeding

-- what is drawn is never evaluated here
attribute [local irreducible] patience

/-! ## The fitter parent -/

/-- Two tests have the same code and the same assertions. -/
def TestCase.SameText (t u : TestCase) : Prop := t.code = u.code ∧ t.assertions = u.assertions

instance (t u : TestCase) : Decidable (t.SameText u) := inferInstanceAs (Decidable (_ ∧ _))

namespace Chromosome

variable {m head tail first second : Chromosome}

/-- A member has the code and the assertions of the fitter one of two parents, or of any of them
when none is fitter. -/
def CopiesFitter (m first second : Chromosome) : Prop :=
  (¬ first.test.fitness < second.test.fitness ∧ m.test.SameText first.test) ∨
    ¬ second.test.fitness < first.test.fitness ∧ m.test.SameText second.test

instance : Decidable (m.CopiesFitter first second) := inferInstanceAs (Decidable (_ ∨ _))

theorem copiesFitter_comm : m.CopiesFitter first second ↔ m.CopiesFitter second first := Or.comm

/-- A copy of one parent is one of the fitter parent unless the other one is fitter and differs. -/
theorem copiesFitter_iff_of_sameText (h : m.test.SameText head.test) :
    m.CopiesFitter head tail ↔
      ¬ head.test.fitness < tail.test.fitness ∨ head.test.SameText tail.test := by
  constructor
  · rintro (⟨hfit, -⟩ | ⟨-, hcode, hassertions⟩)
    · exact .inl hfit
    · exact .inr ⟨h.1.symm.trans hcode, h.2.symm.trans hassertions⟩
  · intro hkept
    by_cases hless : head.test.fitness < tail.test.fitness
    · have hsame := hkept.resolve_left (not_not_intro hless)
      exact .inr ⟨Decimal.lt_asymm hless, h.1.trans hsame.1, h.2.trans hsame.2⟩
    · exact .inl ⟨hless, h⟩

end Chromosome

/-! ## Stand-ins -/

/-- What is stored for a crossed child with its head from one parent and its tail from another: the
child, or the text of the parent that it has its head from when the other one has too many rows. -/
structure StandsFor (maxRows : Nat) (child : TestCase) (head tail m : Chromosome) : Prop where
  long : maxRows < child.rowCount ↔ maxRows < tail.test.rowCount
  taken : ¬ maxRows < child.rowCount → m.test = child
  copied : maxRows < child.rowCount → m.test.SameText head.test

theorem TestCase.sameText_renamed (t : TestCase) (id : String) :
    ({ t with id := id } : TestCase).SameText t := ⟨rfl, rfl⟩

theorem standsFor_bounded {maxRows : Nat} {child : TestCase} {head tail : Chromosome}
    (h : child.rowCount = tail.test.rowCount) (ids : IdSource) :
    StandsFor maxRows child head tail (bounded maxRows child head ids).1 where
  long := by rw [h]
  taken hfits := by rw [bounded, if_neg hfits]
  copied hlong := by
    rw [bounded, if_pos hlong]
    exact head.test.sameText_renamed _

/-! ## What a crossing stores -/

variable {σ : Type} [WordSource σ]

/-- The two parents that a crossing draws, in the order in which they are drawn. -/
def drawnParents (population : List Chromosome) (pool : Nat) (words : σ) :
    Chromosome × Chromosome :=
  let picks := (pair pool words).1
  (population.getD picks.1 default, population.getD picks.2 default)

/-- The crossing of the two parents that are drawn, with what is left to draw from. -/
def crossDrawn (population : List Chromosome) (pool : Nat) (s : Supply σ) :
    (TestCase × TestCase) × Supply σ :=
  let parents := drawnParents population pool s.words
  (crossover parents.1.test parents.2.test).run ⟨(pair pool s.words).2, s.ids⟩

theorem rowCount_crossDrawn (population : List Chromosome) (pool : Nat) (s : Supply σ) :
    let parents := drawnParents population pool s.words
    let children := (crossDrawn population pool s).1
    children.1.rowCount = parents.2.test.rowCount ∧
      children.2.rowCount = parents.1.test.rowCount :=
  rowCount_crossover _ _ _

-- what is crossed and stored is not looked into any more
attribute [local irreducible] crossover crossDrawn bounded

theorem run_breedCrossed (maxRows : Nat) (population : List Chromosome) (pool places : Nat)
    (s : Supply σ) :
    let parents := drawnParents population pool s.words
    let crossed := crossDrawn population pool s
    let c1 := bounded maxRows crossed.1.1 parents.1 crossed.2.ids
    let c2 := bounded maxRows crossed.1.2 parents.2 c1.2
    ((breedCrossed maxRows population pool places).run s).1 =
      if 1 < places then [c1.1, c2.1] else [c1.1] := by
  intro parents crossed c1 c2
  have hcrossed : crossed =
      (crossover parents.1.test parents.2.test).run ⟨(pair pool s.words).2, s.ids⟩ := by
    unfold crossed crossDrawn
    rfl
  unfold breedCrossed
  by_cases hplaces : 1 < places
  · rw [if_pos hplaces]
    simp only [if_pos hplaces, run_bind]
    unfold c2 c1
    rw [hcrossed]
    rfl
  · rw [if_neg hplaces]
    simp only [if_neg hplaces, run_bind]
    unfold c1
    rw [hcrossed]
    rfl

/-- A crossing stores both children, or the first one, or what stands for them. -/
theorem exists_standsFor (maxRows : Nat) (population : List Chromosome) (pool places : Nat)
    (s : Supply σ) :
    let parents := drawnParents population pool s.words
    let children := (crossDrawn population pool s).1
    ∃ c1 c2, ((breedCrossed maxRows population pool places).run s).1 =
        (if 1 < places then [c1, c2] else [c1]) ∧
      StandsFor maxRows children.1 parents.1 parents.2 c1 ∧
        StandsFor maxRows children.2 parents.2 parents.1 c2 := by
  obtain ⟨hrows1, hrows2⟩ := rowCount_crossDrawn population pool s
  exact ⟨_, _, run_breedCrossed maxRows population pool places s, standsFor_bounded hrows1 _,
    standsFor_bounded hrows2 _⟩

/-- **Who stands in for a long child.** Whatever is drawn, a crossed child is too long if and only
if the parent that it has its tail from is, and then the parent that it has its head from stands in
for it. So the fitter parent stands in for it, unless that one is the parent with too many rows, and
the two differ in code or assertions. -/
theorem stand_in_copies_fitter_iff (maxRows : Nat) (population : List Chromosome)
    (pool places : Nat) (s : Supply σ) :
    let (first, second) := drawnParents population pool s.words
    let (child1, child2) := (crossDrawn population pool s).1
    ∃ c1 c2, ((breedCrossed maxRows population pool places).run s).1 =
        (if 1 < places then [c1, c2] else [c1]) ∧
      StandsFor maxRows child1 first second c1 ∧ StandsFor maxRows child2 second first c2 ∧
      (maxRows < child1.rowCount → (c1.CopiesFitter first second ↔
        ¬ first.test.fitness < second.test.fitness ∨ first.test.SameText second.test)) ∧
      (maxRows < child2.rowCount → (c2.CopiesFitter first second ↔
        ¬ second.test.fitness < first.test.fitness ∨ second.test.SameText first.test)) := by
  obtain ⟨c1, c2, hstored, h1, h2⟩ := exists_standsFor maxRows population pool places s
  refine ⟨c1, c2, hstored, h1, h2, fun hlong => ?_, fun hlong => ?_⟩
  · exact Chromosome.copiesFitter_iff_of_sameText (h1.copied hlong)
  · rw [Chromosome.copiesFitter_comm]
    exact Chromosome.copiesFitter_iff_of_sameText (h2.copied hlong)

/-- A test with a number of rows. -/
def tickingTest (id : String) (rows : Nat) (assertions : List String) : TestCase where
  id := id
  kind := .methodCall
  code := String.ofList (Text.joinRows (List.replicate rows "tick();".toList))
  targetMethod := "tick"
  targetClass := "Counter"
  assertions := assertions

/-- A member of a population without targets that has been evaluated. -/
def evaluatedMember (t : TestCase) : Chromosome := { test := t.evaluated [] }

/-- A short test with an assertion. -/
def assertingMember : Chromosome := evaluatedMember (tickingTest "short" 1 ["assertTrue(a)"])

/-- A long test without assertions, which is less fit. -/
def longMember : Chromosome := evaluatedMember (tickingTest "long" 5 [])

/-- On words that are all zero, the long test gives its tail to the second child, and the short one,
which is fitter, stands in for it. -/
theorem asserting_parent_stands_in :
    longMember.test.fitness < assertingMember.test.fitness ∧
      ∃ c1 c2, ((breedCrossed 4 [assertingMember, longMember] 2 2).run ⟨Zeros.zeros, {}⟩).1 =
          [c1, c2] ∧
        c2.CopiesFitter longMember assertingMember ∧ c2.test.SameText assertingMember.test := by
  have hparents : drawnParents [assertingMember, longMember] 2 Zeros.zeros =
      (longMember, assertingMember) := by
    have hpicks : (pair 2 Zeros.zeros).1 = (1, 0) := by decide +kernel
    rw [drawnParents, hpicks]
    rfl
  have hlong : 4 < longMember.test.rowCount := by decide +kernel
  have hfit : longMember.test.fitness < assertingMember.test.fitness := by decide +kernel
  have hcrossing :=
    stand_in_copies_fitter_iff 4 [assertingMember, longMember] 2 2 ⟨Zeros.zeros, {}⟩
  rw [hparents] at hcrossing
  obtain ⟨c1, c2, hstored, -, h2, -, hfitter⟩ := hcrossing
  have htooLong := h2.long.mpr hlong
  exact ⟨hfit, c1, c2, hstored, (hfitter htooLong).mpr (.inl (Decimal.lt_asymm hfit)),
    h2.copied htooLong⟩

/-- A long test that is fitter than a short one without assertions. -/
def longTest : TestCase := tickingTest "long" 5 ["assertTrue(a)"]

/-- A short test without assertions. -/
def shortTest : TestCase := tickingTest "short" 1 []

/-- A search that begins with both and crosses them, where four rows are allowed. -/
def crossingSearch : Engine where
  config :=
    { populationSize := 2, eliteSize := 1, maxGenerations := 1, crossoverRate := 1,
      mutationRate := 0, maxTestLength := 4 }
  seed := 1
  generator := ⟨Engine.counterClass, fun _ _ ids => ([longTest, shortTest], ids)⟩
  targets := []

/-- The random words of its first generation. -/
def crossingWords : UInt64 → Stream := Stream.ofStage crossingSearch.seed

def crossingStart : Engine := crossingSearch.start crossingWords

theorem population_crossingStart :
    byFitness crossingStart.completeGeneration.population =
      [evaluatedMember longTest, { evaluatedMember shortTest with rank := 1 }] := by
  have hevaluated : crossingStart.evaluate.population =
      [evaluatedMember longTest, evaluatedMember shortTest] := rfl
  have hkey : totalKey (evaluatedMember shortTest).test.fitness ≤
      totalKey (evaluatedMember longTest).test.fitness := by decide +kernel
  have hsorted : byFitness [evaluatedMember longTest, evaluatedMember shortTest] =
      [evaluatedMember longTest, evaluatedMember shortTest] :=
    sortDescending_of_pairwise (List.pairwise_pair.mpr hkey)
  rw [Engine.byFitness_completeGeneration, Engine.population_completeGeneration, hevaluated,
    hsorted]
  rfl

/-- In that search the long test gives its tail to the first child, and the short one stands in for
it, although it is less fit and differs. -/
theorem less_fit_parent_stands_in :
    crossingSearch.config.fault? = none ∧ crossingSearch.Enters crossingWords crossingStart ∧
      let population := byFitness crossingStart.completeGeneration.population
      let s : Supply Stream := ⟨crossingWords 0, crossingStart.ids⟩
      let (first, second) := drawnParents population 2 s.words
      4 < (crossDrawn population 2 s).1.1.rowCount ∧
        (∃ c1, ((breedCrossed 4 population 2 1).run s).1 = [c1] ∧
          ¬ c1.CopiesFitter first second) ∧
          ((breedPass crossingSearch.config population 1).run s).1.map (·.test.id) =
            ["short~copy3"] := by
  refine ⟨by decide +kernel, Engine.enters_of_seedCount_pos (by decide), ?_⟩
  rw [population_crossingStart]
  intro population s
  have hparents : drawnParents population 2 s.words =
      ({ evaluatedMember shortTest with rank := 1 }, evaluatedMember longTest) := by
    have hpicks : (pair 2 (crossingWords 0)).1 = (1, 0) := by decide +kernel
    show drawnParents population 2 (crossingWords 0) = _
    rw [drawnParents, hpicks]
    rfl
  have hlong : 4 < (evaluatedMember longTest).test.rowCount := by decide +kernel
  obtain ⟨c1, c2, hstored, h1, -⟩ := exists_standsFor 4 population 2 1 s
  rw [hparents] at h1 ⊢
  refine ⟨h1.long.mpr hlong, ⟨c1, hstored, ?_⟩, by decide +kernel⟩
  rw [Chromosome.copiesFitter_iff_of_sameText (h1.copied (h1.long.mpr hlong))]
  decide +kernel

end Testwright
