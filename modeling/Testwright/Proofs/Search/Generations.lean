import Testwright.Proofs.Search.Archive
import Testwright.Proofs.Search.Progress

/-!
# The sizes of generations

The first generation holds all the seed tests, be they more than the size that is asked for, and
mutants when they are fewer; each later one has exactly that size. Main statement:
`population_sizes_and_elite`, which also says how each generation begins: with the fittest of the
one before.
-/

namespace Testwright

open Testwright.Random

-- what is drawn is never evaluated here
attribute [local irreducible] patience

variable {σ : Type} [WordSource σ]

/-! ## The first population -/

theorem length_padPopulation (c : Config) (missing : Nat) (population : List Chromosome)
    (s : Supply σ) :
    (padPopulation c missing population s).1.length = population.length + missing := by
  induction missing generalizing population s with
  | zero => rfl
  | succ missing ih =>
      rw [padPopulation]
      cases hrun : (breedMutant c.maxTestLength population).run s with
      | mk mutant rest =>
          show (padPopulation c missing (population ++ [mutant]) rest).1.length = _
          rw [ih, List.length_append, List.length_singleton]
          omega

/-- Each method has a test at least. -/
theorem ClassInfo.seedTests_ne_nil {c : ClassInfo} (h : c.methods ≠ []) (ids : IdSource) :
    (c.seedTests c.name anyName ids).1 ≠ [] := by
  have hall : (c.methods.filter fun m => anyName = anyName || m.name = anyName) = c.methods :=
    List.filter_eq_self.mpr fun _ _ => by simp
  rw [seedTests, if_neg (fun hother => hother.2 rfl), hall]
  cases hmethods : c.methods with
  | nil => exact absurd hmethods h
  | cons m rest =>
      rw [testsOf, methodTests]
      exact List.cons_ne_nil _ _

namespace Config

/-- What the settings of a search are like that are accepted. -/
structure Accepted (c : Config) : Prop where
  size : 0 < c.populationSize
  crossover : isProbability c.crossoverRate = true
  mutation : isProbability c.mutationRate = true
  elite : c.eliteSize ≤ c.populationSize
  length : 0 < c.maxTestLength

/-- A fault that was not found, and the search for the others. -/
theorem of_ite_eq_none {α : Type} {p : Prop} [Decidable p] {a : α} {x : Option α}
    (h : (if p then some a else x) = none) : ¬ p ∧ x = none := by
  split at h
  · cases h
  · rename_i hp
    exact ⟨hp, h⟩

theorem accepted_of_validate {c : Config} (h : c.validate = .ok ()) : c.Accepted := by
  rw [validate] at h
  cases hfault : c.fault? with
  | some fault =>
      rw [hfault] at h
      cases h
  | none =>
      obtain ⟨hsize, hfault⟩ := of_ite_eq_none hfault
      obtain ⟨hcrossover, hfault⟩ := of_ite_eq_none hfault
      obtain ⟨hmutation, hfault⟩ := of_ite_eq_none hfault
      obtain ⟨helite, hfault⟩ := of_ite_eq_none hfault
      obtain ⟨hlength, -⟩ := of_ite_eq_none hfault
      rw [Bool.not_eq_true', Bool.not_eq_false] at hcrossover hmutation
      exact ⟨Nat.pos_of_ne_zero hsize, hcrossover, hmutation, Nat.not_lt.mp helite,
        Nat.pos_of_ne_zero hlength⟩

end Config

namespace Engine

variable {words : UInt64 → σ} {c : ClassInfo} {e r s s' : Engine} {m : Chromosome}

/-- The number of seed tests of a search. -/
def seedCount (e : Engine) : Nat :=
  (e.generator.seeds e.generator.classInfo.name anyName {}).1.length

/-- The size of the population of a generation. -/
def sizeAt (e : Engine) (generation : Nat) : Nat :=
  if generation = 0 then max e.seedCount e.config.populationSize else e.config.populationSize

/-- The generations that were noted in the history, with the sizes of their populations. -/
def recordedSizes (e : Engine) : List (Nat × Nat) :=
  e.history.map fun g => (g.generation, g.populationSize)

theorem seedCount_pos (hgenerator : e.generator = c.generator) (hmethods : c.methods ≠ []) :
    0 < e.seedCount := by
  rw [seedCount, hgenerator]
  exact List.length_pos_iff.mpr (ClassInfo.seedTests_ne_nil hmethods {})

theorem length_start (h : 0 < e.seedCount) :
    (e.start words).population.length = e.sizeAt 0 := by
  have hseeds : ((e.generator.seeds e.generator.classInfo.name anyName {}).1.map
      fun t => ({ test := t } : Chromosome)).length = e.seedCount := List.length_map _
  rw [start_eq]
  dsimp only
  rw [if_neg]
  · show (padPopulation _ _ _ _).1.length = max e.seedCount e.config.populationSize
    rw [length_padPopulation, hseeds]
    omega
  · rw [List.isEmpty_iff_length_eq_zero, hseeds]
    omega

theorem enters_of_seedCount_pos (h : 0 < e.seedCount) : e.Enters words (e.start words) := by
  refine .first fun hnil => ?_
  have hlength : (e.start words).population.length = e.sizeAt 0 := length_start h
  rw [hnil, List.length_nil, sizeAt, if_pos rfl] at hlength
  omega

theorem enters_start (hgenerator : e.generator = c.generator) (hmethods : c.methods ≠ []) :
    e.Enters words (e.start words) :=
  enters_of_seedCount_pos (seedCount_pos hgenerator hmethods)

/-! ## A complete generation -/

/-- A complete generation is in the order of fitness, and its members are numbered. -/
theorem population_completeGeneration (s : Engine) :
    s.completeGeneration.population =
      (byFitness s.evaluate.population).mapIdx fun rank m => { m with rank := rank } := rfl

theorem length_completeGeneration (s : Engine) :
    s.completeGeneration.population.length = s.population.length := by
  rw [population_completeGeneration, List.length_mapIdx, length_byFitness]
  exact List.length_map _

/-- A complete generation has the members with which it began, as old as they were. -/
theorem exists_of_mem_completeGeneration (hm : m ∈ s.completeGeneration.population) :
    ∃ m' ∈ s.population, m.age = m'.age ∧ m.test = m'.test.evaluated s.targets := by
  rw [population_completeGeneration] at hm
  obtain ⟨i, hi, rfl⟩ := List.mem_mapIdx.mp hm
  have hsorted := (perm_byFitness _).subset (List.getElem_mem hi)
  obtain ⟨m', hm', heq⟩ := List.mem_map.mp hsorted
  exact ⟨m', hm', by rw [← heq], by rw [← heq]⟩

/-- So it is not put in another order when the next population is bred. -/
theorem byFitness_completeGeneration (s : Engine) :
    byFitness s.completeGeneration.population = s.completeGeneration.population := by
  apply sortDescending_of_pairwise
  have hsorted := (descending_sortDescending (·.test.fitness) s.evaluate.population).pairwise
  rw [population_completeGeneration, List.pairwise_iff_getElem]
  rw [List.pairwise_iff_getElem] at hsorted
  intro i j hi hj hij
  simp only [List.getElem_mapIdx]
  exact hsorted i j _ _ hij

theorem recordedSizes_completeGeneration (s : Engine) :
    s.completeGeneration.recordedSizes =
      s.recordedSizes ++ [(s.generation, s.population.length)] := by
  rw [← length_completeGeneration s]
  show List.map _ (s.history ++ [_]) = _
  rw [List.map_append]
  rfl

theorem history_start (e : Engine) : (e.start words).history = [] := by
  rw [start_eq]
  split <;> rfl

theorem history_breed {words : σ} (h : s.breed words = some s') : s'.history = s.history := by
  obtain ⟨r, -, rfl⟩ := exists_of_breed h
  rfl

/-- What is bred from a complete generation begins with its fittest, one generation older; all
others are new. -/
theorem exists_newcomers_of_breed (helite : s.config.eliteSize ≤ s.config.populationSize)
    (hlength : s.config.populationSize ≤ s.population.length) {words : σ}
    (h : s.completeGeneration.breed words = some s') :
    ∃ newcomers, s'.population = elite s.config s.completeGeneration.population ++ newcomers ∧
      s'.population.length = s.config.populationSize ∧ ∀ m ∈ newcomers, m.age = 0 := by
  obtain ⟨r, hnext, rfl⟩ := exists_of_breed h
  rw [← length_completeGeneration s] at hlength
  have hnewcomers := exists_newcomers helite (helite.trans hlength) hnext
  rwa [byFitness_completeGeneration] at hnewcomers

/-- Breeding ends on words that are all zero, if a pass may add children. -/
theorem exists_breed_zeros
    (hmay : s.config.mayCross (min s.population.length parentPool) = true ∨
      s.config.mayMutate (min s.population.length parentPool) = true)
    (hsize : s.config.populationSize ≤ patience) : ∃ s', s.breed Zeros.zeros = some s' := by
  rw [← length_byFitness] at hmay
  have hplaces : s.config.populationSize - (elite s.config (byFitness s.population)).length ≤
      patience := by omega
  have hfilled := isSome_fillPlaces (breedPass_ne_nil_zeros hmay) hplaces [] ⟨.zeros, s.ids⟩
  obtain ⟨filled, hfill⟩ := Option.isSome_iff_exists.mp hfilled
  rw [breed, nextPopulation]
  dsimp only
  rw [hfill]
  exact ⟨_, rfl⟩

/-! ## A whole search -/

/-- The configuration of a search stays. -/
theorem Enters.config_eq (h : e.Enters words s) : s.config = e.config := by
  induction h using Enters.induction with
  | first => exact config_start e
  | next s s' _ hnext ih => rw [hnext.config_eq, ih]

theorem le_sizeAt (e : Engine) (generation : Nat) :
    e.config.populationSize ≤ e.sizeAt generation := by
  rw [sizeAt]
  split <;> omega

theorem Enters.length_population (hseeds : 0 < e.seedCount)
    (helite : e.config.eliteSize ≤ e.config.populationSize) (h : e.Enters words s) :
    s.population.length = e.sizeAt s.generation := by
  induction h using Enters.induction with
  | first => rw [generation_start, length_start hseeds]
  | next s s' hs hnext ih =>
      rw [← hs.config_eq] at helite
      have hlength : s.config.populationSize ≤ s.population.length := by
        rw [ih, hs.config_eq]
        exact le_sizeAt e _
      obtain ⟨newcomers, -, hsize, -⟩ := exists_newcomers_of_breed helite hlength hnext.bred
      rw [hsize, hs.config_eq, hnext.generation_eq, sizeAt, if_neg (Nat.succ_ne_zero _)]

theorem Enters.seedCount_pos (h : e.Enters words s) : 0 < e.seedCount := by
  by_contra hnone
  have hseeds : (e.generator.seeds e.generator.classInfo.name anyName {}).1 = [] :=
    List.length_eq_zero_iff.mp (Nat.eq_zero_of_not_pos hnone)
  apply h.nonempty
  rw [start_eq]
  simp only [hseeds]
  rfl

/-- A generation has the members that are kept, and more. -/
theorem Enters.sizes_le (hvalid : e.config.validate = .ok ()) (h : e.Enters words s) :
    s.config.eliteSize ≤ s.config.populationSize ∧
      s.config.populationSize ≤ s.population.length := by
  have helite := (Config.accepted_of_validate hvalid).elite
  rw [h.length_population h.seedCount_pos helite, h.config_eq]
  exact ⟨helite, le_sizeAt e _⟩

/-- A search notes each of its generations. -/
theorem Enters.recordedSizes_eq (hseeds : 0 < e.seedCount)
    (helite : e.config.eliteSize ≤ e.config.populationSize) (h : e.Enters words s) :
    s.recordedSizes = (List.range s.generation).map fun g => (g, e.sizeAt g) := by
  induction h using Enters.induction with
  | first =>
      rw [recordedSizes, history_start, generation_start]
      rfl
  | next s s' hs hnext ih =>
      have hcomplete := recordedSizes_completeGeneration s
      rw [ih, hs.length_population hseeds helite] at hcomplete
      rw [recordedSizes, history_breed hnext.bred, hnext.generation_eq, List.range_succ,
        List.map_append]
      exact hcomplete

theorem Enters.recordedSizes_completeGeneration_eq (hseeds : 0 < e.seedCount)
    (helite : e.config.eliteSize ≤ e.config.populationSize) (h : e.Enters words s) :
    s.completeGeneration.recordedSizes =
      (List.range s.completeGeneration.generation).map fun g => (g, e.sizeAt g) := by
  rw [recordedSizes_completeGeneration, h.recordedSizes_eq hseeds helite,
    h.length_population hseeds helite, generation_completeGeneration, List.range_succ,
    List.map_append]
  rfl

/-- **Sizes and elites.** In a search over a class with methods, under a configuration that is
accepted and on any random words: the history, during the search and when it returns, holds each
generation with the size of its population, which is the size that is asked for, except that the
first population holds all seed tests; and whenever breeding ends, the population that it leaves has
that size, begins with as many members as are to be kept, the best ones in the stable order by
descending fitness, one generation older and otherwise unchanged, and goes on with members of age
zero. -/
theorem population_sizes_and_elite (words : UInt64 → σ) (hgenerator : e.generator = c.generator)
    (hmethods : c.methods ≠ []) (hvalid : e.config.validate = .ok ()) :
    (∀ r, e.run words = some r →
        r.recordedSizes = (List.range r.generation).map fun g => (g, e.sizeAt g)) ∧
      ∀ s, e.Enters words s →
        s.completeGeneration.recordedSizes =
            (List.range (s.generation + 1)).map (fun g => (g, e.sizeAt g)) ∧
          (∃ sorted, Descending (·.test.fitness) s.evaluate.population sorted ∧
            s.completeGeneration.population =
              sorted.mapIdx fun rank m => { m with rank := rank }) ∧
          ∀ s', s.completeGeneration.breed (words s.generation.toUInt64) = some s' →
            s'.population.length = e.config.populationSize ∧
              s'.population.take e.config.eliteSize =
                (s.completeGeneration.population.take e.config.eliteSize).map
                  (fun m => { m with age := m.age + 1 }) ∧
              ∀ m ∈ s'.population.drop e.config.eliteSize, m.age = 0 := by
  have hseeds := seedCount_pos hgenerator hmethods
  have helite := (Config.accepted_of_validate hvalid).elite
  refine ⟨fun r hrun => ?_, fun s hs => ⟨?_, ?_, ?_⟩⟩
  · rcases run_eq_some hrun with ⟨hnil, -⟩ | ⟨s, hs, hstop⟩
    · exact absurd hnil (enters_start hgenerator hmethods).nonempty
    · -- stopping leaves the history as it is
      rcases hstop with ⟨-, rfl⟩ | ⟨-, -, rfl⟩
      · have hsizes := hs.recordedSizes_eq hseeds helite
        exact hsizes
      · have hsizes := hs.recordedSizes_completeGeneration_eq hseeds helite
        exact hsizes
  · exact hs.recordedSizes_completeGeneration_eq hseeds helite
  · exact ⟨_, descending_sortDescending _ _, population_completeGeneration s⟩
  · intro s' hbred
    have hlength : e.config.populationSize ≤ s.population.length := by
      rw [hs.length_population hseeds helite]
      exact le_sizeAt e _
    rw [← hs.config_eq] at helite hlength ⊢
    obtain ⟨newcomers, hpopulation, hsize, hage⟩ :=
      exists_newcomers_of_breed helite hlength hbred
    have hkept : (elite s.config s.completeGeneration.population).length = s.config.eliteSize := by
      apply length_elite
      rw [length_completeGeneration]
      exact helite.trans hlength
    refine ⟨hsize, ?_, ?_⟩
    · rw [hpopulation, List.take_left' hkept]
      rfl
    · rw [hpopulation, List.drop_left' hkept]
      exact hage

/-- A search for three tests of `counterClass`, which has two seed tests, one of which is kept in
each generation. -/
def trioSearch : Engine where
  config := { populationSize := 3, eliteSize := 1 }
  seed := 0
  generator := counterClass.generator
  targets := []

/-- Its random words are all zero. -/
def zeroWords : UInt64 → Zeros := fun _ => .zeros

theorem seedCount_trioSearch : trioSearch.seedCount = 2 := by decide +kernel

/-- The search for three tests fills the place that its seed tests leave, keeps one test and breeds
two. -/
theorem trioSearch_sizes_and_elite :
    create counterClass.generator trioSearch.config trioSearch.targets = .ok trioSearch ∧
      trioSearch.Enters zeroWords (trioSearch.start zeroWords) ∧
      (trioSearch.start zeroWords).completeGeneration.recordedSizes = [(0, 3)] ∧
      ∃ s', (trioSearch.start zeroWords).completeGeneration.breed Zeros.zeros = some s' ∧
        s'.population.length = 3 ∧
        s'.population.take 1 =
          ((trioSearch.start zeroWords).completeGeneration.population.take 1).map
            (fun m => { m with age := m.age + 1 }) ∧
        ∀ m ∈ s'.population.drop 1, m.age = 0 := by
  have hvalid : trioSearch.config.validate = .ok () := by
    have hfault : trioSearch.config.fault? = none := by decide +kernel
    rw [Config.validate, hfault]
  have hmethods : counterClass.methods ≠ [] := List.cons_ne_nil _ _
  have hsizeAt : trioSearch.sizeAt 0 = 3 := by
    rw [sizeAt, seedCount_trioSearch]
    rfl
  have henters : trioSearch.Enters zeroWords (trioSearch.start zeroWords) :=
    enters_start (c := counterClass) rfl hmethods
  have hstart : (trioSearch.start zeroWords).population.length = trioSearch.sizeAt 0 :=
    length_start (by rw [seedCount_trioSearch]; decide)
  have hlength : (trioSearch.start zeroWords).completeGeneration.population.length = 3 := by
    rw [length_completeGeneration, hstart, hsizeAt]
  have hconfig : (trioSearch.start zeroWords).completeGeneration.config = trioSearch.config := by
    rw [config_completeGeneration, config_start]
  obtain ⟨hsizes, -, hbreed⟩ :=
    (population_sizes_and_elite (c := counterClass) zeroWords rfl hmethods hvalid).2 _ henters
  rw [generation_start, List.range_one, List.map_singleton, hsizeAt] at hsizes
  obtain ⟨s', hs'⟩ := exists_breed_zeros (s := (trioSearch.start zeroWords).completeGeneration)
    (by rw [hconfig, hlength]; decide +kernel) (by rw [hconfig]; decide +kernel)
  refine ⟨?_, henters, hsizes, s', hs', hbreed s' hs'⟩
  rw [create, hvalid]
  rfl

end Engine

end Testwright
