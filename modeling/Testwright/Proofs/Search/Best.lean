import Testwright.Proofs.Decimal.Order
import Testwright.Proofs.Search.Generations

/-!
# The best test of a generation

The first test of a generation in the order of fitness is as fit as any other, and it is among the
tests of the next generation, where it gets the scores that it had. So the best fitness of a
generation is never below that of an earlier one. Main statement: `best_test_survives`.
-/

namespace Testwright

open Testwright.Random Decimal

-- what is drawn is never evaluated here
attribute [local irreducible] patience

/-! ## The order by fitness -/

/-- In the order of populations doubles stand by their places, and the two zeros apart. -/
theorem toNat_totalKey (x : Float) :
    ((totalKey x).toNat : Int) =
      if signBit x then 0x7FFFFFFFFFFFFFFF + place x else 0x8000000000000000 + place x := by
  have hlt := x.toBits.toNat_lt
  have hsign := signBit_eq_decide x
  rw [totalKey, place, sizeBits]
  cases hs : signBit x with
  | true =>
      rw [hs, eq_comm, decide_eq_true_eq] at hsign
      have hnot : (~~~x.toBits).toNat = 0xFFFFFFFFFFFFFFFF - x.toBits.toNat := by
        rw [UInt64.toNat_not]
        rfl
      simp only [if_true, hnot]
      omega
  | false =>
      rw [hs, eq_comm, decide_eq_false_iff_not] at hsign
      have hor : (x.toBits ||| 0x8000000000000000).toNat = 0x8000000000000000 + x.toBits.toNat := by
        rw [UInt64.toNat_or, Nat.or_comm]
        exact (Nat.two_pow_add_eq_or_of_lt (i := 63) (by omega) 1).symm
      simp only [if_false, Bool.false_eq_true, hor]
      omega

theorem totalKey_lt_of_place_lt {x y : Float} (h : place x < place y) :
    totalKey x < totalKey y := by
  have hx := toNat_totalKey x
  have hy := toNat_totalKey y
  rw [UInt64.lt_iff_toNat_lt]
  cases hsx : signBit x with
  | true =>
      rw [hsx, if_pos rfl] at hx
      cases hsy : signBit y with
      | true =>
          rw [hsy, if_pos rfl] at hy
          omega
      | false =>
          rw [hsy, if_neg Bool.false_ne_true] at hy
          omega
  | false =>
      have hnonneg := place_nonneg hsx
      cases hsy : signBit y with
      | true =>
          have hnonpos := place_nonpos hsy
          omega
      | false =>
          rw [hsx, if_neg Bool.false_ne_true] at hx
          rw [hsy, if_neg Bool.false_ne_true] at hy
          omega

/-! ## The best of some fitnesses -/

section

variable {x y : Float} {l : List Float}

theorem isNaN_clampUnit (x : Float) : (clampUnit x).isNaN = false := by
  rw [clampUnit]
  split
  · decide
  · rename_i hnumber
    split
    · decide
    · split
      · decide
      · simpa using hnumber

/-- The larger of two numbers is one of them. -/
theorem maxFloat_cases (hx : x.isNaN = false) (hy : y.isNaN = false) :
    (maxFloat x y = x ∨ maxFloat x y = y) ∧ x ≤ maxFloat x y ∧ y ≤ maxFloat x y := by
  rw [maxFloat]
  split
  · rename_i hlt
    rw [lt_iff_place_lt hx hy] at hlt
    refine ⟨.inr rfl, ?_, Decimal.le_refl hy⟩
    exact (le_iff_place_le hx hy).mpr (Int.le_of_lt hlt)
  · rename_i hlt
    rw [lt_iff_place_lt hx hy] at hlt
    refine ⟨.inl rfl, Decimal.le_refl hx, ?_⟩
    exact (le_iff_place_le hy hx).mpr (Int.not_lt.mp hlt)

/-- The best of some numbers is one of them. -/
theorem foldl_maxFloat (h : ∀ y ∈ x :: l, y.isNaN = false) :
    l.foldl maxFloat x ∈ x :: l ∧ ∀ y ∈ x :: l, y ≤ l.foldl maxFloat x := by
  induction l generalizing x with
  | nil =>
      simp only [List.forall_mem_singleton] at h
      exact ⟨List.mem_cons_self, List.forall_mem_singleton.mpr (Decimal.le_refl h)⟩
  | cons y rest ih =>
      simp only [List.forall_mem_cons] at h
      obtain ⟨hx, hy, hrest⟩ := h
      obtain ⟨hone, hxle, hyle⟩ := maxFloat_cases hx hy
      have hmax : (maxFloat x y).isNaN = false := (isNaN_of_le hxle).2
      obtain ⟨hmem, hle⟩ := ih (List.forall_mem_cons.mpr ⟨hmax, hrest⟩)
      obtain ⟨hfirst, hle⟩ := List.forall_mem_cons.mp hle
      rw [List.foldl_cons]
      constructor
      · rcases List.mem_cons.mp hmem with heq | hmem
        · rw [heq]
          rcases hone with heq | heq <;> rw [heq] <;> simp
        · exact List.mem_cons_of_mem _ (List.mem_cons_of_mem _ hmem)
      · refine List.forall_mem_cons.mpr ⟨Decimal.le_trans hxle hfirst, ?_⟩
        exact List.forall_mem_cons.mpr ⟨Decimal.le_trans hyle hfirst, hle⟩

end

/-! ## Evaluation -/

namespace TestCase

variable {t : TestCase} {targets later : List BranchTarget}

theorem isNaN_fitness_evaluated (t : TestCase) (targets : List BranchTarget) :
    (t.evaluated targets).fitness.isNaN = false := isNaN_clampUnit _

/-- Evaluating a test again changes nothing, whatever the targets have noted since. -/
theorem evaluated_evaluated (h : methodNames later = methodNames targets) :
    (t.evaluated targets).evaluated later = t.evaluated targets := by
  rw [evaluated_congr h]
  rfl

end TestCase

namespace Engine

variable {σ : Type} [WordSource σ] {words : UInt64 → σ} {e r s s' : Engine} {m : Chromosome}

/-- The best fitness of each generation that was noted. -/
def bestFitnesses (e : Engine) : List Float := e.history.map GenerationStats.bestFitness

/-! ## The best test of a generation -/

/-- The tests of a complete generation have been evaluated. -/
theorem exists_evaluated_of_mem (hm : m ∈ s.completeGeneration.population) :
    ∃ t : TestCase, m.test = t.evaluated s.targets := by
  obtain ⟨m', -, -, htest⟩ := exists_of_mem_completeGeneration hm
  exact ⟨m'.test, htest⟩

theorem isNaN_of_mem (hm : m ∈ s.completeGeneration.population) : m.test.fitness.isNaN = false := by
  obtain ⟨t, ht⟩ := exists_evaluated_of_mem hm
  rw [ht]
  exact t.isNaN_fitness_evaluated s.targets

/-- The first test of a complete generation is as fit as any other. -/
theorem exists_top (h : s.population ≠ []) :
    ∃ top rest, s.completeGeneration.population = top :: rest ∧ top.rank = 0 ∧
      ∀ m ∈ s.completeGeneration.population, m.test.fitness ≤ top.test.fitness := by
  have hsorted := (descending_sortDescending (·.test.fitness)
    s.completeGeneration.population).pairwise
  rw [show sortDescending (·.test.fitness) s.completeGeneration.population = _ from
    byFitness_completeGeneration s] at hsorted
  cases hpop : s.completeGeneration.population with
  | nil =>
      have hlength := length_completeGeneration s
      rw [hpop] at hlength
      exact absurd (List.length_eq_zero_iff.mp hlength.symm) h
  | cons top rest =>
      have htop : top.test.fitness.isNaN = false := isNaN_of_mem (s := s) (by simp [hpop])
      refine ⟨top, rest, rfl, ?_, List.forall_mem_cons.mpr ⟨Decimal.le_refl htop, fun m hm => ?_⟩⟩
      · have hfirst : s.completeGeneration.population[0]? = some top := by rw [hpop]; rfl
        rw [population_completeGeneration, List.getElem?_mapIdx] at hfirst
        obtain ⟨m, -, rfl⟩ := Option.map_eq_some_iff.mp hfirst
        rfl
      · rw [hpop] at hsorted
        have hm' : m.test.fitness.isNaN = false := isNaN_of_mem (s := s) (by simp [hpop, hm])
        rw [le_iff_place_le hm' htop]
        by_contra hlt
        have hkey := (List.pairwise_cons.mp hsorted).1 m hm
        exact UInt64.not_lt.mpr hkey (totalKey_lt_of_place_lt (Int.not_le.mp hlt))

/-- The best fitness of a complete generation is zero or that of a test, and no test is fitter. -/
theorem bestFitness_completeGeneration (s : Engine) :
    s.completeGeneration.stats.bestFitness ∈
        0 :: s.completeGeneration.population.map (·.test.fitness) ∧
      ∀ x ∈ 0 :: s.completeGeneration.population.map (·.test.fitness),
        x ≤ s.completeGeneration.stats.bestFitness := by
  refine foldl_maxFloat (List.forall_mem_cons.mpr ⟨by decide, fun x hx => ?_⟩)
  obtain ⟨m, hm, rfl⟩ := List.mem_map.mp hx
  exact isNaN_of_mem hm

/-! ## From one generation to the next -/

/-- The first test of a complete generation is among those of the next one, with the same
scores. -/
theorem Next.exists_survivor (hone : 1 ≤ s.config.eliteSize)
    (helite : s.config.eliteSize ≤ s.config.populationSize)
    (hlength : s.config.populationSize ≤ s.population.length) (h : s.Next words s')
    {top : Chromosome} {rest : List Chromosome}
    (hpop : s.completeGeneration.population = top :: rest) :
    ∃ m ∈ s'.evaluate.population, m.test = top.test := by
  obtain ⟨newcomers, hnext, -, -⟩ := exists_newcomers_of_breed helite hlength h.bred
  have hkept : { top with age := top.age + 1 } ∈ s'.population := by
    rw [hnext, elite, hpop, List.take_cons (by omega)]
    exact List.mem_append_left _ List.mem_cons_self
  refine ⟨_, List.mem_map_of_mem hkept, ?_⟩
  obtain ⟨t, ht⟩ := exists_evaluated_of_mem (s := s) (m := top) (by simp [hpop])
  show top.test.evaluated s'.targets = top.test
  rw [ht]
  exact TestCase.evaluated_evaluated h.leads.methodNames_eq

/-- No evaluated test is fitter than the best. -/
theorem fitness_le_bestFitness {t : TestCase} (h : ∃ m ∈ s.evaluate.population, m.test = t) :
    t.fitness ≤ s.completeGeneration.stats.bestFitness := by
  obtain ⟨m, hm, rfl⟩ := h
  have hmem := (tests_completeGeneration_perm s).mem_iff.mpr (List.mem_map_of_mem hm)
  obtain ⟨m', hm', heq⟩ := List.mem_map.mp hmem
  rw [← heq]
  exact (bestFitness_completeGeneration s).2 _ (List.mem_cons_of_mem _ (List.mem_map_of_mem hm'))

theorem Next.bestFitness_le (hone : 1 ≤ s.config.eliteSize)
    (helite : s.config.eliteSize ≤ s.config.populationSize)
    (hlength : s.config.populationSize ≤ s.population.length) (h : s.Next words s') :
    s.completeGeneration.stats.bestFitness ≤ s'.completeGeneration.stats.bestFitness := by
  have hne : s.population ≠ [] := List.ne_nil_of_length_pos (by omega)
  obtain ⟨top, rest, hpop, -, htop⟩ := exists_top hne
  rcases List.mem_cons.mp (bestFitness_completeGeneration s).1 with hzero | hmem
  · rw [hzero]
    exact (bestFitness_completeGeneration s').2 0 List.mem_cons_self
  · obtain ⟨m, hm, hbest⟩ := List.mem_map.mp hmem
    rw [← hbest]
    exact Decimal.le_trans (htop m hm)
      (fitness_le_bestFitness (h.exists_survivor hone helite hlength hpop))

/-! ## A whole search -/

theorem bestFitnesses_completeGeneration (s : Engine) :
    s.completeGeneration.bestFitnesses =
      s.bestFitnesses ++ [s.completeGeneration.stats.bestFitness] := by
  show List.map _ (s.history ++ [_]) = _
  rw [List.map_append]
  rfl

theorem bestFitnesses_breed {words : σ} (h : s.breed words = some s') :
    s'.bestFitnesses = s.bestFitnesses :=
  congrArg (List.map GenerationStats.bestFitness) (history_breed h)

theorem bestFitnesses_start (e : Engine) : (e.start words).bestFitnesses = [] := by
  rw [bestFitnesses, history_start, List.map_nil]

theorem Enters.pairwise_bestFitnesses (hvalid : e.config.validate = .ok ())
    (hone : 1 ≤ e.config.eliteSize) (h : e.Enters words s) :
    s.completeGeneration.bestFitnesses.Pairwise (· ≤ ·) := by
  induction h using Enters.induction with
  | first =>
      rw [bestFitnesses_completeGeneration, bestFitnesses_start]
      exact List.pairwise_singleton _ _
  | next s s' hs hnext ih =>
      obtain ⟨helite, hlength⟩ := hs.sizes_le hvalid
      have hrise := hnext.bestFitness_le (hs.config_eq ▸ hone) helite hlength
      rw [bestFitnesses_completeGeneration s', bestFitnesses_breed hnext.bred,
        List.pairwise_append]
      refine ⟨ih, List.pairwise_singleton _ _, fun x hx y hy => ?_⟩
      rw [List.mem_singleton.mp hy]
      -- the last one noted is the best so far
      rw [bestFitnesses_completeGeneration, List.pairwise_append] at ih
      rw [bestFitnesses_completeGeneration] at hx
      rcases List.mem_append.mp hx with hold | hlast
      · exact Decimal.le_trans (ih.2.2 x hold _ (List.mem_singleton.mpr rfl)) hrise
      · rw [List.mem_singleton.mp hlast]
        exact hrise

/-- **The best fitness never drops.** In a search under a configuration that is accepted and keeps
one test at least: the first test of each complete generation is as fit as any other of its
generation, and is among the tests of the next generation when these have been evaluated, with the
same name, code, assertions and scores; and the best fitnesses in the history, after each generation
and when the search returns, are in ascending order. -/
theorem best_test_survives (words : UInt64 → σ) (hvalid : e.config.validate = .ok ())
    (hone : 1 ≤ e.config.eliteSize) :
    (∀ s, e.Enters words s →
        s.completeGeneration.bestFitnesses.Pairwise (· ≤ ·) ∧
          ∃ top rest, s.completeGeneration.population = top :: rest ∧ top.rank = 0 ∧
            (∀ m ∈ s.completeGeneration.population, m.test.fitness ≤ top.test.fitness) ∧
            ∀ s', s.Next words s' → ∃ m ∈ s'.evaluate.population, m.test = top.test) ∧
      ∀ r, e.run words = some r → r.bestFitnesses.Pairwise (· ≤ ·) := by
  refine ⟨fun s hs => ⟨hs.pairwise_bestFitnesses hvalid hone, ?_⟩, fun r hrun => ?_⟩
  · obtain ⟨helite, hlength⟩ := hs.sizes_le hvalid
    have hkept : 1 ≤ s.config.eliteSize := hs.config_eq ▸ hone
    obtain ⟨top, rest, hpop, hrank, htop⟩ :=
      exists_top (List.ne_nil_of_length_pos (by omega) : s.population ≠ [])
    exact ⟨top, rest, hpop, hrank, htop,
      fun s' hnext => hnext.exists_survivor hkept helite hlength hpop⟩
  · rcases run_eq_some hrun with ⟨-, rfl⟩ | ⟨s, hs, hstop⟩
    · show (e.start words).bestFitnesses.Pairwise _
      rw [bestFitnesses_start]
      exact .nil
    · have hcomplete := hs.pairwise_bestFitnesses hvalid hone
      -- stopping leaves the history as it is
      rcases hstop with ⟨-, rfl⟩ | ⟨-, -, rfl⟩
      · rw [bestFitnesses_completeGeneration, List.pairwise_append] at hcomplete
        exact hcomplete.1
      · exact hcomplete

/-- The search for tests of `counterClass` keeps its best test. -/
theorem counterStart_best_test_survives :
    counterSearch.config.validate = .ok () ∧ 1 ≤ counterSearch.config.eliteSize ∧
      counterSearch.Enters counterWords counterStart ∧
      ∃ s', counterStart.Next counterWords s' ∧
        s'.completeGeneration.bestFitnesses.Pairwise (· ≤ ·) ∧
        ∃ top rest, counterStart.completeGeneration.population = top :: rest ∧
          ∃ m ∈ s'.evaluate.population, m.test = top.test := by
  have hvalid : counterSearch.config.validate = .ok () := by
    have hfault : counterSearch.config.fault? = none := by decide +kernel
    rw [Config.validate, hfault]
  have hone : 1 ≤ counterSearch.config.eliteSize := by decide
  obtain ⟨s', hnext⟩ := exists_next_counterStart
  obtain ⟨hstates, -⟩ := best_test_survives counterWords hvalid hone
  obtain ⟨-, top, rest, hpop, -, -, hsurvives⟩ := hstates _ enters_counterStart
  obtain ⟨hrise, -⟩ := hstates _ (enters_counterStart.of_leads hnext.leads)
  exact ⟨hvalid, hone, enters_counterStart, s', hnext, hrise, top, rest, hpop, hsurvives s' hnext⟩

end Engine

end Testwright
