import Mathlib.Logic.Relation
import Testwright.Proofs.Search.Names

/-!
# The course of a search

The states that a search comes to, generation after generation. Each state in which a generation
begins leads to the next one in one way only (`Engine.Next.unique`), so of two such states one comes
from the other (`Engine.Enters.total`). What a search returns is the state at which it stopped
(`Engine.run_eq_some`), and it went through all the others (`Engine.Enters.run_eq`).
-/

namespace Testwright

open Testwright.Random

-- what is drawn is never evaluated here
attribute [local irreducible] patience

variable {σ : Type} [WordSource σ]

/-! ## One generation -/

/-- The next population is made of the fittest and of what fills the places that they leave. -/
theorem exists_of_nextPopulation {c : Config} {population : List Chromosome} {s : Supply σ}
    {r : List Chromosome × Supply σ} (h : nextPopulation c population s = some r) :
    ∃ filled, fillPlaces c (byFitness population) patience
        (c.populationSize - (elite c (byFitness population)).length) [] s = some (filled, r.2) ∧
      r.1 = (elite c (byFitness population) ++ filled).take c.populationSize := by
  obtain ⟨⟨filled, supply⟩, hfill, rfl⟩ := Option.map_eq_some_iff.mp h
  exact ⟨filled, hfill, rfl⟩

theorem perm_byFitness (population : List Chromosome) :
    (byFitness population).Perm population :=
  List.mergeSort_perm _ _

theorem length_byFitness (population : List Chromosome) :
    (byFitness population).length = population.length :=
  (perm_byFitness population).length_eq

/-- Where the fittest take all places, nothing is bred. -/
theorem nextPopulation_of_le_eliteSize {c : Config} {population : List Chromosome}
    (helite : c.populationSize ≤ c.eliteSize) (hlength : c.populationSize ≤ population.length)
    (s : Supply σ) :
    nextPopulation c population s =
      some ((elite c (byFitness population)).take c.populationSize, s) := by
  have hkept : c.populationSize - (elite c (byFitness population)).length = 0 := by
    rw [elite, List.length_map, List.length_take, length_byFitness]
    omega
  rw [nextPopulation, hkept, fillPlaces_zero]
  simp

namespace Engine

/-- Breeding changes the population, and takes numbers for names. -/
theorem exists_of_breed {e e' : Engine} {words : σ} (h : e.breed words = some e') :
    ∃ r, nextPopulation e.config e.population ⟨words, e.ids⟩ = some r ∧
      e' = { e with phase := .evolving, population := r.1, ids := r.2.ids } := by
  obtain ⟨r, hr, rfl⟩ := Option.map_eq_some_iff.mp h
  exact ⟨r, hr, rfl⟩

theorem exists_breed_of_le_eliteSize {e : Engine}
    (helite : e.config.populationSize ≤ e.config.eliteSize)
    (hlength : e.config.populationSize ≤ e.population.length) (words : σ) :
    ∃ e', e.breed words = some e' := by
  have hnext := nextPopulation_of_le_eliteSize helite hlength ⟨words, e.ids⟩
  exact ⟨_, congrArg (Option.map _) hnext⟩

@[simp] theorem config_completeGeneration (e : Engine) : e.completeGeneration.config = e.config :=
  rfl

@[simp] theorem generation_completeGeneration (e : Engine) :
    e.completeGeneration.generation = e.generation + 1 := rfl

theorem config_breed {e e' : Engine} {words : σ} (h : e.breed words = some e') :
    e'.config = e.config := by
  obtain ⟨r, -, rfl⟩ := exists_of_breed h
  rfl

theorem generation_breed {e e' : Engine} {words : σ} (h : e.breed words = some e') :
    e'.generation = e.generation := by
  obtain ⟨r, -, rfl⟩ := exists_of_breed h
  rfl

/-! ## States of a search -/

variable (words : UInt64 → σ)

/-- The state in which the first generation begins. -/
def start (e : Engine) : Engine := e.reset.setUp (words setupStage)

/-- A search in which a generation begins at `s` begins the next one at `s'`. -/
structure Next (s s' : Engine) : Prop where
  budget : s.generation < s.config.maxGenerations
  unconverged : s.completeGeneration.archive.converged = false
  bred : s.completeGeneration.breed (words s.generation.toUInt64) = some s'

/-- A search in which a generation begins at `s` begins this one or a later one at `s'`. -/
def Leads : Engine → Engine → Prop := Relation.ReflTransGen (Next words)

/-- A search begins a generation at `s`, or ends there because no more generations are allowed. -/
structure Enters (e s : Engine) : Prop where
  nonempty : (e.start words).population ≠ []
  leads : Leads words (e.start words) s

/-- The states that a search comes to: at the beginning of a generation, after its evaluation, and
at its end. -/
inductive Reaches (e : Engine) : Engine → Prop
  | entering {s : Engine} (h : e.Enters words s) : Reaches e s
  | evaluated {s : Engine} (h : e.Enters words s)
      (hbudget : s.generation < s.config.maxGenerations) : Reaches e s.evaluate
  | completed {s : Engine} (h : e.Enters words s)
      (hbudget : s.generation < s.config.maxGenerations) : Reaches e s.completeGeneration

variable {words} {e r s s' s'' : Engine}

theorem Next.unique (h : s.Next words s') (h' : s.Next words s'') : s' = s'' :=
  Option.some.inj (h.bred.symm.trans h'.bred)

theorem Leads.refl (s : Engine) : Leads words s s := Relation.ReflTransGen.refl

theorem Next.leads (h : s.Next words s') : Leads words s s' := .single h

theorem Leads.trans (h : Leads words s s') (h' : Leads words s' s'') : Leads words s s'' :=
  Relation.ReflTransGen.trans h h'

theorem Enters.first (h : (e.start words).population ≠ []) : e.Enters words (e.start words) :=
  ⟨h, .refl _⟩

theorem Enters.of_leads (h : e.Enters words s) (h' : Leads words s s') : e.Enters words s' :=
  ⟨h.nonempty, h.leads.trans h'⟩

/-- Of two states in which a search begins generations, one comes from the other. -/
theorem Enters.total (h : e.Enters words s) (h' : e.Enters words s') :
    Leads words s s' ∨ Leads words s' s :=
  Relation.ReflTransGen.total_of_right_unique (fun _ _ _ => Next.unique) h.leads h'.leads

/-- What holds at the first generation and is kept from one to the next holds at all of them. -/
@[elab_as_elim]
theorem Enters.induction {motive : ∀ s, e.Enters words s → Prop}
    (first : ∀ h, motive (e.start words) h)
    (next : ∀ s s' (h : e.Enters words s) (hnext : s.Next words s'),
      motive s h → motive s' (h.of_leads hnext.leads))
    {s : Engine} (h : e.Enters words s) : motive s h := by
  obtain ⟨hsome, hleads⟩ := h
  induction hleads with
  | refl => exact first _
  | tail hs hstep ih => exact next _ _ ⟨hsome, hs⟩ hstep ih

/-! ## The first generation -/

/-- A search starts with the seed tests, and with mutants where these are too few. -/
theorem start_eq (e : Engine) :
    let seeds := e.generator.seeds e.generator.classInfo.name anyName {}
    let population : List Chromosome := seeds.1.map fun t => { test := t }
    let padded := padPopulation e.config (e.config.populationSize - population.length) population
      ⟨words setupStage, seeds.2⟩
    e.start words =
      if population.isEmpty then { e.reset with ids := seeds.2 }
      else { e.reset with population := padded.1, ids := padded.2.ids } := rfl

theorem config_start (e : Engine) : (e.start words).config = e.config := by
  rw [start_eq]
  split <;> rfl

theorem generation_start (e : Engine) : (e.start words).generation = 0 := by
  rw [start_eq]
  split <;> rfl

/-! ## What a search returns -/

theorem runGenerations_succ (left : Nat) (s : Engine) :
    runGenerations words (left + 1) s =
      if s.completeGeneration.archive.converged then some (s.completeGeneration.stop .converged)
      else (s.completeGeneration.breed (words s.generation.toUInt64)).bind
        (runGenerations words left) := rfl

theorem Next.runGenerations_succ (h : s.Next words s') (left : Nat) :
    runGenerations words (left + 1) s = runGenerations words left s' := by
  rw [Engine.runGenerations_succ, h.unconverged, h.bred]
  rfl

theorem Next.generation_eq (h : s.Next words s') : s'.generation = s.generation + 1 :=
  (generation_breed h.bred).trans (generation_completeGeneration s)

theorem Next.config_eq (h : s.Next words s') : s'.config = s.config :=
  (config_breed h.bred).trans (config_completeGeneration s)

theorem run_eq_ite (e : Engine) :
    e.run words =
      if (e.start words).population.isEmpty then some ((e.start words).stop .empty)
      else runGenerations words (e.start words).config.maxGenerations (e.start words) := rfl

theorem run_of_nonempty (h : (e.start words).population ≠ []) :
    e.run words = runGenerations words e.config.maxGenerations (e.start words) := by
  rw [run_eq_ite, if_neg (by simpa using h), config_start]

/-- A search goes through each of the states in which it begins a generation: what it returns is
what the generations that are left lead to from there. -/
theorem Enters.run_eq (h : e.Enters words s) :
    e.run words = runGenerations words (s.config.maxGenerations - s.generation) s := by
  induction h using Enters.induction with
  | first h =>
      rw [run_of_nonempty h.nonempty, config_start, generation_start, Nat.sub_zero]
  | next s s' _ hnext ih =>
      have hleft : s.config.maxGenerations - s.generation =
          s.config.maxGenerations - (s.generation + 1) + 1 := by
        have hbudget := hnext.budget
        omega
      rw [ih, hleft, hnext.runGenerations_succ, hnext.config_eq, hnext.generation_eq]

/-- The generations that are left lead to the state at which the search stops. -/
theorem runGenerations_eq_some {left : Nat}
    (hleft : s.generation + left = s.config.maxGenerations)
    (h : runGenerations words left s = some r) :
    ∃ s', Leads words s s' ∧
      (s'.generation = s'.config.maxGenerations ∧ r = s'.stop .maxGenerations ∨
        s'.generation < s'.config.maxGenerations ∧
          s'.completeGeneration.archive.converged = true ∧
          r = s'.completeGeneration.stop .converged) := by
  induction left generalizing s with
  | zero =>
      cases h
      exact ⟨s, .refl s, .inl ⟨by omega, rfl⟩⟩
  | succ left ih =>
      have hbudget : s.generation < s.config.maxGenerations := by omega
      cases hconv : s.completeGeneration.archive.converged with
      | true =>
          rw [runGenerations_succ, hconv] at h
          cases h
          exact ⟨s, .refl s, .inr ⟨hbudget, hconv, rfl⟩⟩
      | false =>
          rw [runGenerations_succ, hconv] at h
          obtain ⟨next, hbred, hrest⟩ := Option.bind_eq_some_iff.mp h
          have hnext : s.Next words next := ⟨hbudget, hconv, hbred⟩
          have hleft' : next.generation + left = next.config.maxGenerations := by
            rw [hnext.generation_eq, hnext.config_eq]
            omega
          obtain ⟨s', hleads, hstop⟩ := ih hleft' hrest
          exact ⟨s', hnext.leads.trans hleads, hstop⟩

/-- **Where a search stops.** A search that returns did not begin any generation because it had no
seed tests, or stopped at the beginning of a generation that its budget did not allow, or at the end
of one after which the archive was large and fit enough. -/
theorem run_eq_some (h : e.run words = some r) :
    (e.start words).population = [] ∧ r = (e.start words).stop .empty ∨
      ∃ s, e.Enters words s ∧
        (s.generation = s.config.maxGenerations ∧ r = s.stop .maxGenerations ∨
          s.generation < s.config.maxGenerations ∧
            s.completeGeneration.archive.converged = true ∧
            r = s.completeGeneration.stop .converged) := by
  by_cases hempty : (e.start words).population = []
  · rw [run_eq_ite, hempty] at h
    cases h
    exact .inl ⟨hempty, rfl⟩
  · rw [run_of_nonempty hempty] at h
    have hbudget : (e.start words).generation + e.config.maxGenerations =
        (e.start words).config.maxGenerations := by
      rw [generation_start, config_start, Nat.zero_add]
    obtain ⟨s, hleads, hstop⟩ := runGenerations_eq_some hbudget h
    exact .inr ⟨s, ⟨hempty, hleads⟩, hstop⟩

end Engine

end Testwright
