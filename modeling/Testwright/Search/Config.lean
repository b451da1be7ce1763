import Testwright.Decimal.Layout

/-!
# Search configurations

The settings of a search and the ways in which they can be wrong. `Config.validate` reports the
first fault, in a fixed order.
-/

namespace Testwright

/-- How a search makes new tests. -/
inductive Strategy where
  /-- By mutation alone. -/
  | random
  | ga
  | mosa
  | dynaMosa
  deriving DecidableEq, Inhabited

/-- Whether a strategy crosses tests. -/
def Strategy.crosses : Strategy → Bool
  | random => false
  | _ => true

/-- The settings of a search. -/
structure Config where
  populationSize : Nat := 50
  maxGenerations : Nat := 100
  crossoverRate : Float := 0.8
  mutationRate : Float := 0.1
  /-- How many of the best are carried into the next generation. -/
  eliteSize : Nat := 5
  /-- The most rows that a new test may have. -/
  maxTestLength : Nat := 50
  /-- A limit in seconds; none when it is 0. -/
  timeoutSeconds : Nat := 60
  seed : Option UInt64 := none
  strategy : Strategy := .mosa
  deriving Inhabited

/-- A rate among the settings. -/
inductive Rate where
  | crossover
  | mutation
  deriving DecidableEq, Inhabited

/-- The name of a rate. -/
def Rate.name : Rate → String
  | crossover => "crossover_rate"
  | mutation => "mutation_rate"

/-- What is wrong with a configuration. -/
inductive ConfigError where
  | emptyPopulation
  | rateOutOfRange (rate : Rate) (value : Float)
  | eliteTooLarge (elite population : Nat)
  | zeroTestLength
  /-- No rate is positive that the strategy makes use of. -/
  | noOperators (strategy : Strategy)

/-- The error in words. -/
def ConfigError.message : ConfigError → String
  | emptyPopulation => "population_size must be at least 1"
  | rateOutOfRange rate value =>
    rate.name ++ " must be within [0, 1], got " ++ String.ofList (Decimal.writeMessage value)
  | eliteTooLarge elite population =>
    s!"elite_size {elite} exceeds population_size {population}"
  | zeroTestLength => "max_test_length must be at least 1"
  | noOperators s =>
    "no operator can produce children: " ++
      if s.crosses then "crossover_rate and mutation_rate are both 0"
      else "random strategy with mutation_rate 0"

namespace Config

/-- Whether a rate is a probability. -/
def isProbability (x : Float) : Bool := 0 ≤ x && x ≤ 1

/-- The first fault of a configuration, if it has any. -/
def fault? (c : Config) : Option ConfigError :=
  if c.populationSize = 0 then some .emptyPopulation
  else if !isProbability c.crossoverRate then some (.rateOutOfRange .crossover c.crossoverRate)
  else if !isProbability c.mutationRate then some (.rateOutOfRange .mutation c.mutationRate)
  else if c.populationSize < c.eliteSize then some (.eliteTooLarge c.eliteSize c.populationSize)
  else if c.maxTestLength = 0 then some .zeroTestLength
  else if !(c.strategy.crosses && 0 < c.crossoverRate) && c.mutationRate == 0 then
    some (.noOperators c.strategy)
  else none

/-- Accepts a configuration without a fault. -/
def validate (c : Config) : Except ConfigError Unit :=
  match c.fault? with
  | some e => .error e
  | none => .ok ()

end Config

end Testwright
