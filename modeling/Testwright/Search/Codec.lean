import Testwright.Json.Decode
import Testwright.Search.Engine

/-!
# Searches as documents

Tests, members of a population and configurations as JSON documents, and read back; and the names
of strategies, objectives, phases and reasons to stop.
-/

namespace Testwright

open Json

/-! ## Tests -/

/-- The names of the kinds of tests. -/
def TestKind.names : List (String × TestKind) :=
  [("method_call", .methodCall), ("constructor", .constructor), ("field_access", .fieldAccess),
    ("assertion", .assertion)]

/-- The name of a kind of tests. -/
def TestKind.name : TestKind → String
  | methodCall => "method_call"
  | constructor => "constructor"
  | fieldAccess => "field_access"
  | assertion => "assertion"

/-- Reads a kind of tests. -/
def TestKind.ofJson? (j : Json) : Option TestKind := j.named? TestKind.names .direct

/-- A test as a document. -/
def TestCase.toJson (t : TestCase) : Json :=
  record [("assertions", texts t.assertions), ("code", text t.code), ("coverage", float t.coverage),
    ("dependencies", texts t.dependencies), ("fitness", float t.fitness), ("id", text t.id),
    ("kind", text t.kind.name), ("mutation_score", float t.mutationScore),
    ("target_class", text t.targetClass), ("target_method", text t.targetMethod)]

/-- Reads a test. -/
def TestCase.ofJson? (j : Json) : Option TestCase := do
  let fields ← j.record? ["id", "kind", "code", "target_method", "target_class", "fitness",
    "coverage", "mutation_score", "assertions", "dependencies"]
  some {
    id := ← required fields "id" text?
    kind := ← required fields "kind" TestKind.ofJson?
    code := ← required fields "code" text?
    targetMethod := ← required fields "target_method" text?
    targetClass := ← required fields "target_class" text?
    fitness := ← required fields "fitness" float?
    coverage := ← required fields "coverage" float?
    mutationScore := ← required fields "mutation_score" float?
    assertions := ← required fields "assertions" texts?
    dependencies := ← required fields "dependencies" texts? }

/-- A member of a population as a document. -/
def Chromosome.toJson (c : Chromosome) : Json :=
  record [("age", nat c.age), ("crowding_distance", float c.crowdingDistance),
    ("rank", nat c.rank), ("test_case", c.test.toJson)]

/-- Reads a member of a population. -/
def Chromosome.ofJson? (j : Json) : Option Chromosome := do
  let fields ← j.record? ["test_case", "age", "rank", "crowding_distance"]
  some {
    test := ← required fields "test_case" TestCase.ofJson?
    age := ← required fields "age" (natBelow? (Nat.pow 2 32))
    rank := ← required fields "rank" nat?
    crowdingDistance := ← required fields "crowding_distance" float? }

/-! ## Settings -/

/-- The names of the strategies. -/
def Strategy.names : List (String × Strategy) :=
  [("random", .random), ("ga", .ga), ("mosa", .mosa), ("dyna_mosa", .dynaMosa)]

/-- The name of a strategy. -/
def Strategy.name : Strategy → String
  | random => "random"
  | ga => "ga"
  | mosa => "mosa"
  | dynaMosa => "dyna_mosa"

/-- Reads a strategy. -/
def Strategy.ofJson? (j : Json) : Option Strategy := j.named? Strategy.names .direct

/-- A configuration as a document. -/
def Config.toJson (c : Config) : Json :=
  record [("crossover_rate", float c.crossoverRate), ("elite_size", nat c.eliteSize),
    ("max_generations", nat c.maxGenerations), ("max_test_length", nat c.maxTestLength),
    ("mutation_rate", float c.mutationRate), ("population_size", nat c.populationSize),
    ("seed", ofOption (fun s => nat s.toNat) c.seed), ("strategy", text c.strategy.name),
    ("timeout_seconds", nat c.timeoutSeconds)]

/-- Reads a configuration, its rates with the given reader. What is absent has its default. -/
def Config.ofJsonWith? (rate : Json → Option Float) (j : Json) : Option Config := do
  let d : Config := {}
  let fields ← j.record? ["population_size", "max_generations", "crossover_rate", "mutation_rate",
    "elite_size", "max_test_length", "timeout_seconds", "seed", "strategy"]
  some {
    populationSize := ← defaulted fields "population_size" d.populationSize nat?
    maxGenerations :=
      ← defaulted fields "max_generations" d.maxGenerations (natBelow? (Nat.pow 2 32))
    crossoverRate := ← defaulted fields "crossover_rate" d.crossoverRate rate
    mutationRate := ← defaulted fields "mutation_rate" d.mutationRate rate
    eliteSize := ← defaulted fields "elite_size" d.eliteSize nat?
    maxTestLength := ← defaulted fields "max_test_length" d.maxTestLength nat?
    timeoutSeconds := ← defaulted fields "timeout_seconds" d.timeoutSeconds nat?
    seed := ← defaulted fields "seed" d.seed (optional? uint64?)
    strategy := ← defaulted fields "strategy" d.strategy Strategy.ofJson? }

/-- Reads a configuration. -/
def Config.ofJson? (j : Json) : Option Config := Config.ofJsonWith? float? j

/-! ## Runs -/

/-- The names of the objectives. -/
def Objective.names : List (String × Objective) :=
  [("branch_coverage", .branchCoverage), ("assertion_density", .assertionDensity),
    ("complexity", .complexity)]

/-- The name of an objective. -/
def Objective.name : Objective → String
  | branchCoverage => "branch_coverage"
  | assertionDensity => "assertion_density"
  | complexity => "complexity"

/-- Reads an objective. -/
def Objective.ofJson? (j : Json) : Option Objective := j.named? Objective.names .direct

/-- The names of the reasons to stop. -/
def StopReason.names : List (String × StopReason) :=
  [("converged", .converged), ("max_generations", .maxGenerations), ("timeout", .timeout),
    ("empty", .empty)]

/-- The name of a reason to stop. -/
def StopReason.name : StopReason → String
  | converged => "converged"
  | maxGenerations => "max_generations"
  | timeout => "timeout"
  | empty => "empty"

/-- Reads a reason to stop. -/
def StopReason.ofJson? (j : Json) : Option StopReason := j.named? StopReason.names .direct

/-- The name of a phase. -/
def Phase.name : Phase → String
  | initializing => "initializing"
  | evaluating => "evaluating"
  | archiving => "archiving"
  | evolving => "evolving"
  | terminated => "terminated"
  | done => "done"

/-- What is known about a generation, as a document. -/
def GenerationStats.toJson (s : GenerationStats) : Json :=
  record [("archive_size", nat s.archiveSize), ("best_fitness", float s.bestFitness),
    ("generation", nat s.generation), ("mean_fitness", float s.meanFitness),
    ("population_size", nat s.populationSize)]

end Testwright
