import Testwright.Proofs.Search.Checked
import Testwright.Proofs.Search.Generations

/-!
# A search meets no fault

The whole search with every operation checked before it is carried out, from the seed tests to the
last generation. Main statement: under a configuration that is accepted, and as long as the tests
are not too large to be cut, no check fails, whatever the class and the random words are
(`Engine.run_checked`).
-/

namespace Testwright

open Source Testwright.Random

-- what is drawn is never evaluated here
attribute [local irreducible] patience

namespace Checked

open Breeding (Yields)

/-! ## Seed tests -/

theorem mapM_eq_ok {α β : Type} {f : α → Except Fault β} {g : α → β} {l : List α}
    (h : ∀ a ∈ l, f a = .ok (g a)) : l.mapM f = .ok (l.map g) := by
  induction l with
  | nil => rfl
  | cons a l ih =>
      rw [List.mapM_cons, h a List.mem_cons_self, ok_bind,
        ih fun b hb => h b (List.mem_cons_of_mem a hb)]
      rfl

/-- The boundary cases of a method; each bound takes the place of an argument. -/
def boundaryCases (m : MethodInfo) : Except Fault (List (TypedName × List String)) := do
  let cases ← m.parameters.zipIdx.mapM fun (p, i) =>
    ((boundaryValues p.type).take maxBoundaryTests).mapM fun v => do
      let arguments ← assign m.defaultArguments i v
      return (p, arguments)
  return cases.flatten

/-- The tests of a method. -/
def methodTests (c : ClassInfo) (m : MethodInfo) (ids : IdSource) :
    Except Fault (List TestCase × IdSource) := do
  let (normal, ids) := c.normalTest m ids
  let cases ← boundaryCases m
  let (boundary, ids) := c.boundaryTests m cases ids
  let (exception, ids) := c.exceptionTest m ids
  return (normal :: boundary ++ [exception], ids)

/-- The tests of some methods. -/
def testsOf (c : ClassInfo) : List MethodInfo → IdSource → Except Fault (List TestCase × IdSource)
  | [], ids => return ([], ids)
  | m :: rest, ids => do
    let (ts, ids) ← methodTests c m ids
    let (others, ids) ← testsOf c rest ids
    return (ts ++ others, ids)

/-- The seed tests for the methods of a name of the class of a name. -/
def seedTests (c : ClassInfo) (className methodName : String) (ids : IdSource) :
    Except Fault (List TestCase × IdSource) :=
  if className ≠ anyName ∧ className ≠ c.name then return ([], ids)
  else testsOf c (c.methods.filter fun m => methodName = anyName || m.name = methodName) ids

/-- Each parameter has an argument in whose place a bound can stand. -/
theorem boundaryCases_eq_ok (m : MethodInfo) : boundaryCases m = .ok m.boundaryCases := by
  have hcase : ∀ p ∈ m.parameters.zipIdx,
      (((boundaryValues p.1.type).take maxBoundaryTests).mapM fun v => do
          let arguments ← assign m.defaultArguments p.2 v
          return (p.1, arguments)) =
        .ok (((boundaryValues p.1.type).take maxBoundaryTests).map fun v =>
          (p.1, m.defaultArguments.set p.2 v)) := by
    intro p hp
    have hplace : p.2 < m.defaultArguments.length := by
      rw [MethodInfo.defaultArguments, List.length_map]
      exact List.snd_lt_of_mem_zipIdx hp
    refine mapM_eq_ok fun v _ => ?_
    rw [assign_eq_ok hplace]
    rfl
  rw [boundaryCases, mapM_eq_ok hcase, ok_bind, MethodInfo.boundaryCases, List.flatMap_def]
  rfl

theorem methodTests_eq_ok (c : ClassInfo) (m : MethodInfo) (ids : IdSource) :
    methodTests c m ids = .ok (c.methodTests m ids) := by
  rw [methodTests, boundaryCases_eq_ok]
  rfl

theorem testsOf_eq_ok (c : ClassInfo) (methods : List MethodInfo) (ids : IdSource) :
    testsOf c methods ids = .ok (c.testsOf methods ids) := by
  induction methods generalizing ids with
  | nil => rfl
  | cons m rest ih =>
      rw [testsOf, methodTests_eq_ok, ok_bind]
      dsimp only
      rw [ih]
      rfl

theorem seedTests_eq_ok (c : ClassInfo) (className methodName : String) (ids : IdSource) :
    seedTests c className methodName ids = .ok (c.seedTests className methodName ids) := by
  rw [seedTests, ClassInfo.seedTests]
  split
  · rfl
  · exact testsOf_eq_ok c _ ids

/-! ## Breeding a population -/

variable {σ : Type} [WordSource σ]

/-- A mutant of a random member of a population. -/
def breedMutant (maxRows : Nat) (population : List Chromosome) : Checked σ Chromosome := do
  let k ← below population.length
  let parent ← entry population k
  let child ← mutate parent.test
  unchecked (naming (bounded maxRows child parent))

/-- Two members among the first `pool` are crossed. -/
def breedCrossed (maxRows : Nat) (population : List Chromosome) (pool places : Nat) :
    Checked σ (List Chromosome) := do
  let (i, j) ← pair pool
  let first ← entry population i
  let second ← entry population j
  let (child1, child2) ← crossover first.test second.test
  let c1 ← unchecked (naming (bounded maxRows child1 first))
  if 1 < places then
    let c2 ← unchecked (naming (bounded maxRows child2 second))
    return [c1, c2]
  else return [c1]

/-- Draws whether a pass crosses two members. -/
def drawCrosses (c : Config) (pool : Nat) : Checked σ Bool :=
  if c.crossesWith pool then chance c.crossoverRate else pure false

/-- Draws whether a pass mutates a member. -/
def drawMutates (c : Config) (pool : Nat) : Checked σ Bool :=
  if c.mustMutate pool then pure true else chance c.mutationRate

/-- The crossed children of a pass. -/
def crossedIf (c : Config) (population : List Chromosome) (pool places : Nat) (crosses : Bool) :
    Checked σ (List Chromosome) :=
  if crosses then breedCrossed c.maxTestLength population pool places else pure []

/-- The mutant of a pass. -/
def mutantIf (c : Config) (population : List Chromosome) (mutates : Bool) :
    Checked σ (List Chromosome) :=
  if mutates then (fun m => [m]) <$> breedMutant c.maxTestLength population else pure []

/-- The members that one pass adds to a population with some free places. -/
def breedPass (c : Config) (population : List Chromosome) (places : Nat) :
    Checked σ (List Chromosome) := do
  let pool := min population.length parentPool
  let crossed ← drawCrosses c pool >>= crossedIf c population pool places
  let mutant ← drawMutates c pool >>= mutantIf c population
  return crossed ++ mutant

/-- Passes until no place is free. -/
def fillPlaces (c : Config) (population : List Chromosome) :
    Nat → (places : Nat) → (added : List Chromosome) → Supply σ →
      Except Fault (Option (List Chromosome × Supply σ))
  | _, 0, added, s => return some (added.reverse, s)
  | 0, _, _, _ => return none
  | more + 1, places, added, s => do
    let (new, s) ← (breedPass c population places).run s
    fillPlaces c population more (places - new.length) (new.reverse ++ added) s

/-- The fittest members, one generation older. -/
def elite (c : Config) (population : List Chromosome) : Except Fault (List Chromosome) :=
  (population.take c.eliteSize).mapM fun m => do
    let age ← next m.age
    return { m with age := age }

/-- The next population: the fittest members and their offspring. -/
def nextPopulation (c : Config) (population : List Chromosome) (s : Supply σ) :
    Except Fault (Option (List Chromosome × Supply σ)) := do
  let population := byFitness population
  let kept ← elite c population
  let filled ← fillPlaces c population patience (c.populationSize - kept.length) [] s
  return filled.map fun r => ((kept ++ r.1).take c.populationSize, r.2)

/-- Adds mutants of random members to a population. -/
def padPopulation (c : Config) :
    Nat → List Chromosome → Supply σ → Except Fault (List Chromosome × Supply σ)
  | 0, population, s => return (population, s)
  | missing + 1, population, s => do
    let (mutant, s) ← (breedMutant c.maxTestLength population).run s
    padPopulation c missing (population ++ [mutant]) s

variable {c : Config} {population : List Chromosome} {pool : Nat}

theorem agrees_breedMutant (h : population ≠ []) (maxRows : Nat) :
    Agrees (breedMutant maxRows population : Checked σ Chromosome)
      (Testwright.breedMutant maxRows population) := by
  have hpositive : 0 < population.length := List.length_pos_iff.mpr h
  refine (agrees_below hpositive).bind (yields_below hpositive) fun k hk => ?_
  refine .of_ok (entry_eq_ok hk default) ?_
  exact (agrees_mutate _).then fun child => .unchecked _

/-- What must be known of a population to breed from it. -/
structure Breedable (population : List Chromosome) : Prop where
  nonempty : population ≠ []
  cuttable : ∀ m ∈ population, m.test.IsCuttable
  young : ∀ m ∈ population, m.age + 1 < 2 ^ 32

theorem Breedable.byFitness (h : Breedable population) : Breedable (byFitness population) := by
  have hperm := perm_byFitness population
  refine ⟨fun hnil => h.nonempty ?_, fun m hm => h.cuttable m (hperm.subset hm),
    fun m hm => h.young m (hperm.subset hm)⟩
  rw [hnil] at hperm
  exact hperm.nil_eq.symm

theorem Breedable.isCuttable_getD (h : Breedable population) {k : Nat}
    (hk : k < population.length) : (population.getD k default).test.IsCuttable :=
  h.cuttable _ (getD_mem hk)

theorem agrees_breedCrossed (h : Breedable population) (hpool : 2 ≤ pool)
    (hlength : pool ≤ population.length) (maxRows places : Nat) :
    Agrees (breedCrossed maxRows population pool places : Checked σ (List Chromosome))
      (Testwright.breedCrossed maxRows population pool places) := by
  refine (agrees_pair hpool).bind (yields_pair hpool) fun ks hks => ?_
  have hfirst : ks.1 < population.length := hks.1.trans_le hlength
  have hsecond : ks.2 < population.length := hks.2.trans_le hlength
  refine .of_ok (entry_eq_ok hfirst default) (.of_ok (entry_eq_ok hsecond default) ?_)
  refine (agrees_crossover (h.isCuttable_getD hfirst) (h.isCuttable_getD hsecond)).then
    fun children => ?_
  refine (Agrees.unchecked _).then fun c1 => ?_
  split
  · exact (Agrees.unchecked _).then fun c2 => .pure _
  · exact .pure _

theorem agrees_drawCrosses (hc : c.Accepted) (pool : Nat) :
    Agrees (drawCrosses c pool : Checked σ Bool) (Testwright.drawCrosses c pool) := by
  rw [drawCrosses, Testwright.drawCrosses]
  split
  · exact agrees_chance hc.crossover
  · exact .pure false

theorem agrees_drawMutates (hc : c.Accepted) (pool : Nat) :
    Agrees (drawMutates c pool : Checked σ Bool) (Testwright.drawMutates c pool) := by
  rw [drawMutates, Testwright.drawMutates]
  split
  · exact .pure true
  · exact agrees_chance hc.mutation

/-- Members are crossed only where there are two of them. -/
theorem yields_drawCrosses (c : Config) (pool : Nat) :
    Yields (Testwright.drawCrosses c pool : Breeding σ Bool) fun crosses =>
      crosses = true → 2 ≤ pool := by
  rw [Testwright.drawCrosses]
  split
  · rename_i hcrosses
    exact fun _ _ => (Config.crossesWith_iff.mp hcrosses).2
  · exact .pure fun h => absurd h Bool.false_ne_true

theorem agrees_crossedIf (h : Breedable population) (hlength : pool ≤ population.length)
    (places : Nat) {crosses : Bool} (hpool : crosses = true → 2 ≤ pool) :
    Agrees (crossedIf c population pool places crosses : Checked σ (List Chromosome))
      (Testwright.crossedIf c population pool places crosses) := by
  cases crosses with
  | false => exact .pure []
  | true => exact agrees_breedCrossed h (hpool rfl) hlength _ places

theorem agrees_mutantIf (h : population ≠ []) (mutates : Bool) :
    Agrees (mutantIf c population mutates : Checked σ (List Chromosome))
      (Testwright.mutantIf c population mutates) := by
  cases mutates with
  | false => exact .pure []
  | true => exact (agrees_breedMutant h _).map _

theorem agrees_breedPass (hc : c.Accepted) (h : Breedable population) (places : Nat) :
    Agrees (breedPass c population places : Checked σ (List Chromosome))
      (Testwright.breedPass c population places) := by
  rw [breedPass_eq]
  refine ((agrees_drawCrosses hc _).bind (yields_drawCrosses c _) fun crosses hpool =>
    agrees_crossedIf h (Nat.min_le_left _ _) places hpool).then fun crossed => ?_
  exact ((agrees_drawMutates hc _).then fun mutates =>
    agrees_mutantIf h.nonempty mutates).then fun mutant => .pure _

theorem fillPlaces_eq_ok (hc : c.Accepted) (h : Breedable population) (fuel places : Nat)
    (added : List Chromosome) (s : Supply σ) :
    fillPlaces c population fuel places added s =
      .ok (Testwright.fillPlaces c population fuel places added s) := by
  fun_induction Testwright.fillPlaces c population fuel places added s with
  | case1 fuel added s =>
      rw [fillPlaces]
      rfl
  | case2 places added s hplaces =>
      rw [fillPlaces]
      · rfl
      · exact hplaces
  | case3 fuel places added s hplaces new rest hrun ih =>
      rw [fillPlaces]
      · rw [agrees_breedPass hc h places s, hrun]
        exact ih
      · exact hplaces

theorem elite_eq_ok (h : Breedable population) (c : Config) :
    elite c population = .ok (Testwright.elite c population) := by
  refine mapM_eq_ok fun m hm => ?_
  rw [next_eq_ok (h.young m (List.mem_of_mem_take hm))]
  rfl

theorem nextPopulation_eq_ok (hc : c.Accepted) (h : Breedable population) (s : Supply σ) :
    nextPopulation c population s = .ok (Testwright.nextPopulation c population s) := by
  rw [nextPopulation, elite_eq_ok h.byFitness, ok_bind, fillPlaces_eq_ok hc h.byFitness]
  rfl

theorem padPopulation_eq_ok (h : population ≠ []) (missing : Nat) (s : Supply σ) :
    padPopulation c missing population s =
      .ok (Testwright.padPopulation c missing population s) := by
  induction missing generalizing population s with
  | zero => rfl
  | succ missing ih =>
      rw [padPopulation, Testwright.padPopulation, agrees_breedMutant h, ok_bind]
      exact ih (List.append_ne_nil_of_left_ne_nil h _) _

/-! ## The search -/

/-- Sets up the first population. -/
def setUp (e : Engine) (words : σ) : Except Fault Engine := do
  let c := e.generator.classInfo
  let (seeds, ids) ← seedTests c c.name anyName e.ids
  let population : List Chromosome := seeds.map fun t => { test := t }
  if population.isEmpty then return { e with ids := ids }
  else
    let (population, supply) ←
      padPopulation e.config (e.config.populationSize - population.length) population ⟨words, ids⟩
    return { e with population := population, ids := supply.ids }

/-- Evaluates and archives a generation, and notes it in the history. -/
def completeGeneration (e : Engine) : Except Fault Engine := do
  let e := e.evaluate.archiveFittest
  let generation ← next e.generation
  return { e with history := e.history ++ [e.stats], generation := generation }

/-- Breeds the next population. -/
def breed (e : Engine) (words : σ) : Except Fault (Option Engine) := do
  let e := { e with phase := .evolving }
  let bred ← nextPopulation e.config e.population ⟨words, e.ids⟩
  return bred.map fun r => { e with population := r.1, ids := r.2.ids }

/-- Generations up to the end of the search. -/
def runGenerations (words : UInt64 → σ) : Nat → Engine → Except Fault (Option Engine)
  | 0, e => return some (e.stop .maxGenerations)
  | left + 1, e => do
    let stage := e.generation.toUInt64
    let e ← completeGeneration e
    if e.archive.converged then return some (e.stop .converged)
    else
      match ← breed e (words stage) with
      | none => return none
      | some e => runGenerations words left e

/-- Runs the search from its beginning, and ends at the first fault. -/
def run (e : Engine) (words : UInt64 → σ) : Except Fault (Option Engine) := do
  let e ← setUp e.reset (words setupStage)
  if e.population.isEmpty then return some (e.stop .empty)
  else runGenerations words e.config.maxGenerations e

theorem setUp_eq_ok {e : Engine} (hgenerator : e.generator = e.generator.classInfo.generator)
    (words : σ) : setUp e words = .ok (e.setUp words) := by
  have hseeds : e.generator.seeds = e.generator.classInfo.seedTests :=
    congrArg TestGenerator.seeds hgenerator
  rw [setUp, Engine.setUp, seedTests_eq_ok, hseeds, ok_bind]
  dsimp only
  split
  · rfl
  · rename_i hsome
    rw [padPopulation_eq_ok (by simpa using hsome)]
    rfl

theorem completeGeneration_eq_ok {e : Engine} (h : e.generation + 1 < 2 ^ 32) :
    completeGeneration e = .ok e.completeGeneration := by
  have hnext : next e.evaluate.archiveFittest.generation = .ok (e.generation + 1) := next_eq_ok h
  rw [completeGeneration, hnext]
  rfl

theorem breed_eq_ok {e : Engine} (hc : e.config.Accepted) (h : Breedable e.population)
    (words : σ) : breed e words = .ok (e.breed words) := by
  rw [breed, nextPopulation_eq_ok hc h]
  rfl

end Checked

/-! ## Ages -/

variable {σ : Type} [WordSource σ]

namespace Engine

variable {words : UInt64 → σ} {c : ClassInfo} {e s s' : Engine} {m : Chromosome}

theorem age_start (hm : m ∈ (e.start words).population) : m.age = 0 :=
  forall_mem_start (fun m => m.age = 0) (fun _ _ => rfl)
    (fun _ _ _ => (newcomer_breedMutant _ _).mono fun _ h => h.age) m hm

/-- No member of a population is older than the search. -/
theorem Enters.age_le (hvalid : e.config.validate = .ok ()) (h : e.Enters words s) :
    ∀ m ∈ s.population, m.age ≤ s.generation := by
  induction h using Enters.induction with
  | first =>
      intro m hm
      rw [age_start hm]
      exact Nat.zero_le _
  | next s s' hs hnext ih =>
      intro m hm
      obtain ⟨helite, hlength⟩ := hs.sizes_le hvalid
      obtain ⟨newcomers, hpopulation, -, hnew⟩ :=
        exists_newcomers_of_breed helite hlength hnext.bred
      rw [hnext.generation_eq]
      rw [hpopulation] at hm
      rcases List.mem_append.mp hm with hkept | hadded
      · -- a member that is kept grows older together with the search
        obtain ⟨older, holder, rfl⟩ := List.mem_map.mp hkept
        obtain ⟨m', hm', hage, -⟩ := exists_of_mem_completeGeneration (List.mem_of_mem_take holder)
        have hle := ih m' hm'
        show older.age + 1 ≤ s.generation + 1
        omega
      · rw [hnew m hadded]
        exact Nat.zero_le _

/-! ## A whole search -/

/-- The generation that begins in a state can be bred from, once it is complete: there is a member,
and no age is at its limit. -/
theorem Enters.breedable (hvalid : e.config.validate = .ok ())
    (hgenerations : e.config.maxGenerations < 2 ^ 32) (h : e.Enters words s)
    (hbudget : s.generation < s.config.maxGenerations)
    (hcuttable : ∀ m ∈ s.population, m.test.IsCuttable) :
    Checked.Breedable s.completeGeneration.population where
  nonempty := by
    have hlength := (h.sizes_le hvalid).2
    have hpositive := (Config.accepted_of_validate hvalid).size
    rw [h.config_eq] at hlength
    rw [← List.length_pos_iff, length_completeGeneration]
    omega
  cuttable := by
    intro m hm
    obtain ⟨m', hm', -, htest⟩ := exists_of_mem_completeGeneration hm
    rw [htest]
    exact hcuttable m' hm'
  young := by
    intro m hm
    obtain ⟨m', hm', hage, -⟩ := exists_of_mem_completeGeneration hm
    have hle := h.age_le hvalid m' hm'
    rw [h.config_eq] at hbudget
    omega

/-- From each state in which a generation begins, the generations that are left meet no fault. -/
theorem Enters.runGenerations_checked (hvalid : e.config.validate = .ok ())
    (hgenerations : e.config.maxGenerations < 2 ^ 32)
    (hcuttable : ∀ s, e.Enters words s → s.generation < s.config.maxGenerations →
      ∀ m ∈ s.population, m.test.IsCuttable)
    {left : Nat} (h : e.Enters words s) (hleft : s.generation + left = s.config.maxGenerations) :
    Checked.runGenerations words left s = .ok (runGenerations words left s) := by
  induction left generalizing s with
  | zero => rfl
  | succ left ih =>
      have hbudget : s.generation < s.config.maxGenerations := by omega
      have hnumber : s.generation + 1 < 2 ^ 32 := by
        rw [h.config_eq] at hbudget
        omega
      have hbreedable := h.breedable hvalid hgenerations hbudget (hcuttable s h hbudget)
      have haccepted : s.completeGeneration.config.Accepted := by
        rw [config_completeGeneration, h.config_eq]
        exact Config.accepted_of_validate hvalid
      rw [Checked.runGenerations, runGenerations_succ, Checked.completeGeneration_eq_ok hnumber,
        ok_bind]
      cases hconverged : s.completeGeneration.archive.converged with
      | true => rfl
      | false =>
          rw [if_neg Bool.false_ne_true, if_neg Bool.false_ne_true,
            Checked.breed_eq_ok haccepted hbreedable, ok_bind]
          cases hbred : s.completeGeneration.breed (words s.generation.toUInt64) with
          | none => rfl
          | some s' =>
              -- the search begins its next generation there, so all that is known holds again
              have hnext : s.Next words s' := ⟨hbudget, hconverged, hbred⟩
              refine ih (h.of_leads hnext.leads) ?_
              rw [hnext.generation_eq, hnext.config_eq]
              omega

/-- **A search meets no fault.** A search over a class, under a configuration that is accepted and
on any random words, comes to the same result when each of its operations is checked before it is
carried out. So no range from which a number is drawn is empty, no chance has a probability below 0
or above 1, two members are picked only from two or more, each place at which a list or a text is
cut lies in it, in a text between two characters, and neither the age of a member nor the number of
a generation outgrows 32 bits. The number of generations that is asked for is one of 32 bits itself,
and the assertions of a test times its rows are taken to fit into 64 bits. -/
theorem run_meets_no_fault (words : UInt64 → σ) (hgenerator : e.generator = c.generator)
    (hvalid : e.config.validate = .ok ()) (hgenerations : e.config.maxGenerations < 2 ^ 32)
    (hcuttable : ∀ s, e.Enters words s → s.generation < s.config.maxGenerations →
      ∀ m ∈ s.population, m.test.IsCuttable) :
    Checked.run e words = .ok (e.run words) := by
  have hsetUp : Checked.setUp e.reset (words setupStage) = .ok (e.start words) := by
    refine Checked.setUp_eq_ok ?_ _
    show e.generator = e.generator.classInfo.generator
    rw [hgenerator]
    rfl
  rw [Checked.run, hsetUp, ok_bind, run_eq_ite]
  split
  · rfl
  · rename_i hsome
    have hnonempty : (e.start words).population ≠ [] := by simpa using hsome
    refine (Enters.first hnonempty).runGenerations_checked hvalid hgenerations hcuttable ?_
    rw [generation_start, Nat.zero_add]

/-- A search that begins its first generation is in the state in which it started. -/
theorem Enters.eq_start (h : e.Enters words s) (hfirst : s.generation = 0) :
    s = e.start words := by
  induction h using Enters.induction with
  | first => rfl
  | next s s' _ hnext =>
      rw [hnext.generation_eq] at hfirst
      cases hfirst

/-- A class with a method that has a parameter. -/
def gaugeClass : ClassInfo where
  name := "Gauge"
  package := ""
  methods := [⟨"set", [⟨"level", "int"⟩], "void", none⟩]
  fields := []

/-- A search for four tests of `gaugeClass`, one of which is kept, in a single generation. -/
def gaugeSearch : Engine where
  config := { populationSize := 4, maxGenerations := 1, eliteSize := 1 }
  seed := 0
  generator := gaugeClass.generator
  targets := []

/-- Its seed tests are small: they have no more rows than bytes, and one more. -/
theorem isCuttable_of_mem_gaugeSearch
    (hm : m ∈ (gaugeSearch.start zeroWords).population) : m.test.IsCuttable := by
  have hall : ∀ m ∈ (gaugeSearch.start zeroWords).population,
      m.test.assertions.length * (m.test.code.utf8ByteSize + 1) < 2 ^ 64 := by decide +kernel
  exact TestCase.isCuttable_of_bytes (hall m hm)

theorem seedCount_gaugeSearch : gaugeSearch.seedCount = 4 := by decide +kernel

theorem enters_gaugeSearch : gaugeSearch.Enters zeroWords (gaugeSearch.start zeroWords) :=
  enters_start (c := gaugeClass) rfl (List.cons_ne_nil _ _)

theorem exists_run_gaugeSearch : ∃ r, gaugeSearch.run zeroWords = some r := by
  have hlength : (gaugeSearch.start zeroWords).completeGeneration.population.length = 4 := by
    have hsize : gaugeSearch.sizeAt 0 = 4 := by
      rw [sizeAt, seedCount_gaugeSearch]
      rfl
    rw [length_completeGeneration, length_start (by rw [seedCount_gaugeSearch]; decide), hsize]
  have hconfig : (gaugeSearch.start zeroWords).completeGeneration.config = gaugeSearch.config := by
    rw [config_completeGeneration, config_start]
  obtain ⟨s', hs'⟩ := exists_breed_zeros (s := (gaugeSearch.start zeroWords).completeGeneration)
    (by rw [hconfig, hlength]; decide +kernel) (by rw [hconfig]; decide +kernel)
  have hone : gaugeSearch.config.maxGenerations = 1 := rfl
  rw [run_of_nonempty enters_gaugeSearch.nonempty, hone, runGenerations_succ]
  split
  · exact ⟨_, rfl⟩
  · exact ⟨s'.stop .maxGenerations, by rw [zeroWords, hs']; rfl⟩

/-- The search for tests of `gaugeClass` crosses and mutates them, and returns without a fault. -/
theorem gaugeSearch_meets_no_fault :
    create gaugeClass.generator gaugeSearch.config gaugeSearch.targets = .ok gaugeSearch ∧
      ∃ r, Checked.run gaugeSearch zeroWords = .ok (some r) := by
  have hvalid : gaugeSearch.config.validate = .ok () := by
    have hfault : gaugeSearch.config.fault? = none := by decide +kernel
    rw [Config.validate, hfault]
  have hsafe := run_meets_no_fault (c := gaugeClass) zeroWords rfl hvalid (by decide)
    (fun s hs hbudget m hm => by
      rw [hs.config_eq] at hbudget
      rw [hs.eq_start (Nat.lt_one_iff.mp hbudget)] at hm
      exact isCuttable_of_mem_gaugeSearch hm)
  obtain ⟨r, hr⟩ := exists_run_gaugeSearch
  refine ⟨?_, r, ?_⟩
  · rw [create, hvalid]
    rfl
  · rw [hsafe, hr]

end Engine

end Testwright
