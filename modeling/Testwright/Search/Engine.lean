import Testwright.Distinct
import Testwright.Random.Stream
import Testwright.Search.Breeding
import Testwright.Search.Budget
import Testwright.Search.Config
import Testwright.Search.Fitness
import Testwright.Search.Seeds

/-!
# The search

A search evolves a population of tests. In each generation the population is evaluated, the tests
that are fit enough join the archive, and the next population is bred from the fittest. The
archive only grows. Each generation draws from a stream of its own, so that a run is determined by
its seed, its configuration and the class under test.
-/

namespace Testwright

open Testwright.Random

/-! ## Settings -/

/-- The fitness that a test must exceed to be archived. -/
def archiveThreshold : Float := 0.5

/-- The size of the archive from which on its fitness can end the search. -/
def convergenceSize : Nat := 10

/-- The mean fitness of the archive that ends the search. -/
def convergenceFitness : Float := 0.9

/-- How many of the fittest may become parents of crossed tests. -/
def parentPool : Nat := 20

/-- Where the first tests of a search come from. -/
structure TestGenerator where
  classInfo : ClassInfo
  /-- The tests of the class of a name for the methods of a name. -/
  seeds : (className methodName : String) → IdSource → List TestCase × IdSource

/-- The generator that writes tests from what is known about a class. -/
def ClassInfo.generator (c : ClassInfo) : TestGenerator := ⟨c, c.seedTests⟩

/-- The phase of a search. -/
inductive Phase where
  | initializing
  | evaluating
  | archiving
  | evolving
  | terminated
  | done
  deriving DecidableEq, Inhabited

/-- What is known about a generation. -/
structure GenerationStats where
  generation : Nat
  populationSize : Nat
  bestFitness : Float
  meanFitness : Float
  archiveSize : Nat
  deriving Inhabited

/-- The tests that were fit enough, with the set of their names. -/
structure Archive where
  tests : List TestCase := []
  ids : Std.HashSet String := {}

/-- The state of a search. -/
structure Engine where
  config : Config
  seed : UInt64
  generator : TestGenerator
  targets : List BranchTarget
  ids : IdSource := {}
  population : List Chromosome := []
  archive : Archive := {}
  /-- The number of complete generations. -/
  generation : Nat := 0
  phase : Phase := .initializing
  history : List GenerationStats := []
  stopReason : Option StopReason := none

/-! ## Breeding a population -/

/-- A child with too many rows gives way to a copy of its parent. -/
def bounded (maxRows : Nat) (child : TestCase) (parent : Chromosome) (ids : IdSource) :
    Chromosome × IdSource :=
  if maxRows < child.rowCount then
    let (copy, ids) := parent.copy ids
    ({ copy with age := 0 }, ids)
  else ({ test := child }, ids)

variable {σ : Type} [WordSource σ]

/-- A mutant of a random member of a population. -/
def breedMutant (maxRows : Nat) (population : List Chromosome) : Breeding σ Chromosome := do
  let k ← drawing (below population.length)
  let parent := population.getD k default
  let child ← mutate parent.test
  naming (bounded maxRows child parent)

/-- Two members among the first `pool` are crossed; the second child is left out when there is
place for one only. -/
def breedCrossed (maxRows : Nat) (population : List Chromosome) (pool places : Nat) :
    Breeding σ (List Chromosome) := do
  let (i, j) ← drawing (pair pool)
  let first := population.getD i default
  let second := population.getD j default
  let (child1, child2) ← crossover first.test second.test
  let c1 ← naming (bounded maxRows child1 first)
  if 1 < places then
    let c2 ← naming (bounded maxRows child2 second)
    return [c1, c2]
  else return [c1]

/-- Whether a configuration crosses members of a population of some size. -/
def Config.crossesWith (c : Config) (pool : Nat) : Bool := c.strategy.crosses && 2 ≤ pool

/-- Whether every pass must mutate, since nothing else could fill the population. -/
def Config.mustMutate (c : Config) (pool : Nat) : Bool :=
  !c.crossesWith pool && c.mutationRate ≤ 0

/-- The members that one pass adds to a population with some free places. -/
def breedPass (c : Config) (population : List Chromosome) (places : Nat) :
    Breeding σ (List Chromosome) := do
  let pool := min population.length parentPool
  let crossed ←
    if c.crossesWith pool then
      if ← drawing (chance c.crossoverRate) then
        breedCrossed c.maxTestLength population pool places
      else pure []
    else pure []
  let mutates ← if c.mustMutate pool then pure true else drawing (chance c.mutationRate)
  if mutates then
    let mutant ← breedMutant c.maxTestLength population
    return crossed ++ [mutant]
  else return crossed

/-- Passes until no place is free; `added` holds the members added so far, last first. There is no
result when the passes do not end, as when each one adds nothing. -/
def fillPlaces (c : Config) (population : List Chromosome) :
    Nat → (places : Nat) → (added : List Chromosome) → Supply σ →
      Option (List Chromosome × Supply σ)
  | _, 0, added, s => some (added.reverse, s)
  | 0, _, _, _ => none
  | more + 1, places, added, s =>
    let (new, s) := (breedPass c population places).run s
    fillPlaces c population more (places - new.length) (new.reverse ++ added) s

/-- The fittest members, one generation older. -/
def elite (c : Config) (population : List Chromosome) : List Chromosome :=
  (population.take c.eliteSize).map fun m => { m with age := m.age + 1 }

/-- Members by descending fitness. -/
def byFitness (population : List Chromosome) : List Chromosome :=
  sortDescending (·.test.fitness) population

/-- The next population: the fittest members and their offspring. -/
def nextPopulation (c : Config) (population : List Chromosome) (s : Supply σ) :
    Option (List Chromosome × Supply σ) :=
  let population := byFitness population
  let kept := elite c population
  (fillPlaces c population patience (c.populationSize - kept.length) [] s).map fun r =>
    ((kept ++ r.1).take c.populationSize, r.2)

/-- Adds mutants of random members to a population. -/
def padPopulation (c : Config) :
    Nat → List Chromosome → Supply σ → List Chromosome × Supply σ
  | 0, population, s => (population, s)
  | missing + 1, population, s =>
    let (mutant, s) := (breedMutant c.maxTestLength population).run s
    padPopulation c missing (population ++ [mutant]) s

/-! ## The archive -/

/-- The tests of a population that are fit enough and not yet in the archive, in their order. -/
def Archive.newFrom (a : Archive) (population : List Chromosome) : List TestCase :=
  distinctFrom TestCase.id a.ids
    ((population.map Chromosome.test).filter fun t => archiveThreshold < t.fitness)

/-- The archive with more tests at its end. -/
def Archive.append (a : Archive) (new : List TestCase) : Archive :=
  ⟨a.tests ++ new, new.foldl (fun ids t => ids.insert t.id) a.ids⟩

/-- The mean fitness of some tests. -/
def meanFitness (tests : List TestCase) : Float :=
  sumFloats (tests.map TestCase.fitness) / tests.length.toFloat

/-- Whether an archive is large and fit enough to end the search. -/
def Archive.converged (a : Archive) : Bool :=
  convergenceSize ≤ a.tests.length && convergenceFitness < meanFitness a.tests

namespace Engine

/-- A search over a class with a generator and targets of its own. -/
def create (generator : TestGenerator) (config : Config) (targets : List BranchTarget) :
    Except ConfigError Engine :=
  (config.validate).map fun _ =>
    { config := config, seed := config.seed.getD 0, generator := generator, targets := targets }

/-- A search over a class, with all its branches as targets. -/
def ofClass (c : ClassInfo) (config : Config) : Except ConfigError Engine :=
  create c.generator config c.branchTargets

/-- The search before its first generation. What the targets have noted is kept. -/
def reset (e : Engine) : Engine :=
  { config := e.config, seed := e.seed, generator := e.generator, targets := e.targets }

/-- Sets up the first population: the seed tests, and mutants up to the size that is asked for. -/
def setUp (e : Engine) (words : σ) : Engine :=
  let (seeds, ids) := e.generator.seeds e.generator.classInfo.name anyName e.ids
  let population : List Chromosome := seeds.map fun t => { test := t }
  if population.isEmpty then { e with ids := ids }
  else
    let (population, supply) :=
      padPopulation e.config (e.config.populationSize - population.length) population
        ⟨words, ids⟩
    { e with population := population, ids := supply.ids }

/-- Evaluates the population. -/
def evaluate (e : Engine) : Engine :=
  { e with
    phase := .evaluating
    population := e.population.map fun m => { m with test := m.test.evaluated e.targets } }

/-- Ranks the population and archives the tests that are fit enough. -/
def archiveFittest (e : Engine) : Engine :=
  let population := (byFitness e.population).mapIdx fun rank m => { m with rank := rank }
  let new := e.archive.newFrom population
  { e with
    phase := .archiving
    population := population
    targets := recordCoverage e.targets new
    archive := e.archive.append new }

/-- What is known about the generation that was just archived. -/
def stats (e : Engine) : GenerationStats where
  generation := e.generation
  populationSize := e.population.length
  bestFitness := (e.population.map (·.test.fitness)).foldl maxFloat 0
  meanFitness := if e.population.isEmpty then 0 else meanFitness (e.population.map (·.test))
  archiveSize := e.archive.tests.length

/-- Evaluates and archives a generation, and notes it in the history. -/
def completeGeneration (e : Engine) : Engine :=
  let e := e.evaluate.archiveFittest
  { e with history := e.history ++ [e.stats], generation := e.generation + 1 }

/-- Breeds the next population. -/
def breed (e : Engine) (words : σ) : Option Engine :=
  let e := { e with phase := .evolving }
  (nextPopulation e.config e.population ⟨words, e.ids⟩).map fun r =>
    { e with population := r.1, ids := r.2.ids }

/-- Ends the search. -/
def stop (e : Engine) (reason : StopReason) : Engine :=
  { e with stopReason := some reason, phase := .done }

/-- Generations up to the end of the search; their number is limited by what is left of the
budget. Each generation draws from the words of its own stage. -/
def runGenerations (words : UInt64 → σ) : Nat → Engine → Option Engine
  | 0, e => some (e.stop .maxGenerations)
  | left + 1, e =>
    let stage := e.generation.toUInt64
    let e := e.completeGeneration
    if e.archive.converged then some (e.stop .converged)
    else (e.breed (words stage)).bind (runGenerations words left)

/-- Runs the search from its beginning, on the random words of each stage. There is no result when
a population can never be filled. -/
def run (e : Engine) (words : UInt64 → σ) : Option Engine :=
  let e := e.reset.setUp (words setupStage)
  if e.population.isEmpty then some (e.stop .empty)
  else runGenerations words e.config.maxGenerations e

/-- Runs the search on the random words that belong to its seed. -/
def evolve (e : Engine) : Option Engine := e.run (Stream.ofStage e.seed)

/-- The fittest tests of the archive, equals in their order. -/
def bestTests (e : Engine) (n : Nat) : List TestCase :=
  (sortDescending TestCase.fitness e.archive.tests).take n

end Engine

end Testwright
