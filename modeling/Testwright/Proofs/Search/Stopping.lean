import Mathlib.Order.Bounds.Defs
import Testwright.Proofs.Search.Rerun

/-!
# Where a search stops

A search is held against one that never stops, and goes on breeding whatever its archive is like
(`Engine.beginning?`). It stops after the first generation with which the archive of that search is
large and fit enough, if the budget allows that generation, and otherwise with its budget spent
(`stop_of_run`). Main statement: `stops_at_first_convergence`, which says the same of a search over a
class, and what the history holds by then.
-/

namespace Testwright

open Testwright.Random

-- what is drawn is never evaluated here
attribute [local irreducible] patience

theorem Archive.converged_iff {a : Archive} :
    a.converged = true ↔ 10 ≤ a.tests.length ∧ 0.9 < meanFitness a.tests := by
  rw [converged, Bool.and_eq_true, decide_eq_true_eq, decide_eq_true_eq]
  rfl

namespace Engine

variable {σ : Type} [WordSource σ] {words : UInt64 → σ} {c : ClassInfo} {e r s s' : Engine}

/-! ## A search that never stops -/

/-- The state in which a generation would begin if neither the archive nor the budget ended the
search; none where a population before it cannot be filled. -/
def beginning? (words : UInt64 → σ) (e : Engine) : (generation : Nat) → Option Engine
  | 0 => some (e.start words)
  | generation + 1 =>
    (beginning? words e generation).bind fun s =>
      s.completeGeneration.breed (words s.generation.toUInt64)

/-- The archive after a number of generations of a search that never stops. -/
def archiveAfter? (words : UInt64 → σ) (e : Engine) : (generations : Nat) → Option Archive
  | 0 => some (e.start words).archive
  | generations + 1 =>
    (beginning? words e generations).map fun s => s.completeGeneration.archive

/-- After a number of generations the archive holds ten tests at least, of a mean fitness above
0.9. -/
def ConvergesAt (words : UInt64 → σ) (e : Engine) (generations : Nat) : Prop :=
  ∃ a, e.archiveAfter? words generations = some a ∧
    10 ≤ a.tests.length ∧ 0.9 < meanFitness a.tests

theorem Enters.beginning?_eq (h : e.Enters words s) :
    e.beginning? words s.generation = some s := by
  induction h using Enters.induction with
  | first =>
      rw [generation_start]
      rfl
  | next s s' _ hnext ih =>
      rw [hnext.generation_eq, beginning?, ih]
      exact hnext.bred

theorem Enters.convergesAt_succ_iff (h : e.Enters words s) :
    e.ConvergesAt words (s.generation + 1) ↔
      s.completeGeneration.archive.converged = true := by
  rw [ConvergesAt, archiveAfter?, h.beginning?_eq, Archive.converged_iff]
  constructor
  · rintro ⟨a, ha, hconverged⟩
    cases ha
    exact hconverged
  · exact fun hconverged => ⟨_, rfl, hconverged⟩

theorem not_convergesAt_zero (words : UInt64 → σ) (e : Engine) : ¬ e.ConvergesAt words 0 := by
  rintro ⟨a, ha, hsize, -⟩
  rw [archiveAfter?, archive_start] at ha
  cases ha
  exact absurd hsize (by decide)

/-- A search that begins a generation did not converge before. -/
theorem Enters.not_convergesAt (h : e.Enters words s) {generations : Nat}
    (hle : generations ≤ s.generation) : ¬ e.ConvergesAt words generations := by
  induction h using Enters.induction with
  | first =>
      rw [generation_start, Nat.le_zero] at hle
      rw [hle]
      exact not_convergesAt_zero words e
  | next s s' hs hnext ih =>
      rw [hnext.generation_eq] at hle
      rcases Nat.le_succ_iff.mp hle with hbefore | rfl
      · exact ih hbefore
      · rw [hs.convergesAt_succ_iff, hnext.unconverged]
        exact Bool.false_ne_true

/-! ## The history -/

/-- The sizes of the archive that were noted. -/
def archiveSizes (e : Engine) : List Nat := e.history.map GenerationStats.archiveSize

/-- The generations that were noted. -/
def recordedGenerations (e : Engine) : List Nat := e.history.map GenerationStats.generation

theorem history_completeGeneration (s : Engine) :
    s.completeGeneration.history = s.history ++ [s.evaluate.archiveFittest.stats] := rfl

/-- A complete generation is noted with its number and with the size of its archive, which is not
smaller than it was. -/
structure Chronicled (s : Engine) : Prop where
  generations : s.recordedGenerations = List.range s.generation
  ascending : s.archiveSizes.Pairwise (· ≤ ·)
  bounded : ∀ n ∈ s.archiveSizes, n ≤ s.archive.tests.length

theorem chronicled_start (e : Engine) : (e.start words).Chronicled where
  generations := by
    rw [recordedGenerations, history_start, generation_start]
    rfl
  ascending := by
    rw [archiveSizes, history_start]
    exact .nil
  bounded := by
    rw [archiveSizes, history_start]
    exact fun n hn => absurd hn List.not_mem_nil

theorem Chronicled.completeGeneration (h : s.Chronicled) : s.completeGeneration.Chronicled := by
  have hsizes : s.completeGeneration.archiveSizes =
      s.archiveSizes ++ [s.completeGeneration.archive.tests.length] := by
    rw [archiveSizes, history_completeGeneration, List.map_append]
    rfl
  have hgrows : s.archive.tests.length ≤ s.completeGeneration.archive.tests.length := by
    rw [archive_completeGeneration]
    exact (List.prefix_append _ _).length_le
  have hbounded : ∀ n ∈ s.archiveSizes, n ≤ s.completeGeneration.archive.tests.length :=
    fun n hn => (h.bounded n hn).trans hgrows
  refine ⟨?_, ?_, ?_⟩
  · rw [recordedGenerations, history_completeGeneration, List.map_append,
      generation_completeGeneration, List.range_succ, ← h.generations]
    rfl
  · rw [hsizes, List.pairwise_append]
    refine ⟨h.ascending, List.pairwise_singleton _ _, fun n hn last hlast => ?_⟩
    rw [List.mem_singleton.mp hlast]
    exact hbounded n hn
  · rw [hsizes]
    intro n hn
    rcases List.mem_append.mp hn with hold | hlast
    · exact hbounded n hold
    · exact (List.mem_singleton.mp hlast).le

theorem Enters.chronicled (h : e.Enters words s) : s.Chronicled := by
  induction h using Enters.induction with
  | first => exact chronicled_start e
  | next s s' _ hnext ih =>
      obtain ⟨r, -, rfl⟩ := exists_of_breed hnext.bred
      exact ⟨ih.completeGeneration.generations, ih.completeGeneration.ascending,
        ih.completeGeneration.bounded⟩

/-! ## The end of a search -/

theorem Chronicled.stop (h : s.Chronicled) (reason : StopReason) : (s.stop reason).Chronicled :=
  ⟨h.generations, h.ascending, h.bounded⟩

theorem chronicled_of_run (hrun : e.run words = some r) : r.Chronicled := by
  rcases run_eq_some hrun with ⟨-, rfl⟩ | ⟨s, hs, hstop⟩
  · exact (chronicled_start e).stop _
  · rcases hstop with ⟨-, rfl⟩ | ⟨-, -, rfl⟩
    · exact hs.chronicled.stop _
    · exact hs.chronicled.completeGeneration.stop _

/-- Whatever its tests come from, a search that has tests stops with the first generation that its
budget allows after which the archive holds ten tests of a mean fitness above 0.9, and if there is
none, with its budget spent. -/
theorem stop_of_run (hsome : (e.start words).population ≠ []) (hrun : e.run words = some r) :
    r.stopReason ≠ some .empty ∧
      (∀ g, IsLeast {g | 1 ≤ g ∧ g ≤ e.config.maxGenerations ∧ e.ConvergesAt words g} g →
        r.stopReason = some .converged ∧ r.generation = g) ∧
      ((∀ g, 1 ≤ g → g ≤ e.config.maxGenerations → ¬ e.ConvergesAt words g) →
        r.stopReason = some .maxGenerations ∧ r.generation = e.config.maxGenerations) := by
  rcases run_eq_some hrun with ⟨hnil, -⟩ | ⟨s, hs, hstop⟩
  · exact absurd hnil hsome
  rcases hstop with ⟨hspent, rfl⟩ | ⟨hbudget, hconverged, rfl⟩
  · -- the budget was spent before the archive converged
    rw [hs.config_eq] at hspent
    refine ⟨nofun, fun g hg => ?_, fun _ => ⟨rfl, hspent⟩⟩
    obtain ⟨⟨-, hle, hconverges⟩, -⟩ := hg
    exact absurd hconverges (hs.not_convergesAt (hspent ▸ hle))
  · rw [hs.config_eq] at hbudget
    have hconverges : e.ConvergesAt words (s.generation + 1) :=
      hs.convergesAt_succ_iff.mpr hconverged
    refine ⟨nofun, fun g hg => ⟨rfl, ?_⟩, fun hnever => ?_⟩
    · -- no generation before this one would have ended the search
      have hle : g ≤ s.generation + 1 := hg.2 ⟨Nat.succ_pos _, hbudget, hconverges⟩
      have hlt : ¬ g ≤ s.generation := fun hbefore => hs.not_convergesAt hbefore hg.1.2.2
      show s.generation + 1 = g
      omega
    · exact absurd hconverges (hnever _ (Nat.succ_pos _) hbudget)

/-- A test with an assertion in each of its rows. Those that are written for a class have one assertion
at most and are less fit. -/
def denseTest (id : String) : TestCase where
  id := id
  kind := .assertion
  code := "a();\nb();\nc();\nd();\ne();"
  targetMethod := "tick"
  targetClass := "Counter"
  assertions := ["a", "b", "c", "d", "e"]

/-- A search that starts with ten such tests. -/
def denseSearch : Engine where
  config := { populationSize := 10, maxGenerations := 3 }
  seed := 0
  generator := ⟨counterClass, fun _ _ ids =>
    (["a", "b", "c", "d", "e", "f", "g", "h", "i", "j"].map denseTest, ids)⟩
  targets := []

/-- The state in which the first generation begins. -/
def denseStart : Engine := denseSearch.start counterWords

theorem names_denseStart :
    namesOf denseStart.population = ["a", "b", "c", "d", "e", "f", "g", "h", "i", "j"] := rfl

theorem enters_denseStart : denseSearch.Enters counterWords denseStart := .first nofun

/-- The fitness of a test does not depend on its name. -/
theorem fitness_of_mem_denseStart {m : Chromosome} (hm : m ∈ denseStart.evaluate.population) :
    m.test.fitness = (denseTest "a").weightedScore [] Objective.all := by
  obtain ⟨m, hseed, rfl⟩ := List.mem_map.mp hm
  have hpopulation : denseStart.population =
      (["a", "b", "c", "d", "e", "f", "g", "h", "i", "j"].map denseTest).map
        fun t => { test := t } := rfl
  rw [hpopulation, List.map_map] at hseed
  obtain ⟨id, -, rfl⟩ := List.mem_map.mp hseed
  exact TestCase.weightedScore_congr rfl rfl rfl _

theorem converged_denseStart : denseStart.completeGeneration.archive.converged = true := by
  let fitness := (denseTest "a").weightedScore [] Objective.all
  have hfit : ∀ m ∈ denseStart.evaluate.population, archiveThreshold < m.test.fitness := by
    intro m hm
    rw [fitness_of_mem_denseStart hm]
    decide +kernel
  have hnames : (namesOf denseStart.population).Nodup := by
    rw [names_denseStart]
    decide
  have hperm := tests_archive_of_fit (s := denseStart) (archive_start _) hnames hfit
  have hlength : denseStart.completeGeneration.archive.tests.length = 10 := by
    rw [hperm.length_eq]
    rfl
  have hfitness : denseStart.completeGeneration.archive.tests.map TestCase.fitness =
      List.replicate 10 fitness := by
    apply List.eq_replicate_iff.mpr
    refine ⟨by rw [List.length_map, hlength], fun x hx => ?_⟩
    obtain ⟨t, ht, rfl⟩ := List.mem_map.mp hx
    obtain ⟨m, hm, rfl⟩ := List.mem_map.mp (hperm.subset ht)
    exact fitness_of_mem_denseStart hm
  rw [Archive.converged_iff, meanFitness, hfitness, hlength]
  decide +kernel

/-- The ten tests are fit enough to end the search after one generation, although its budget allows
three. -/
theorem denseSearch_converges :
    ∃ r, denseSearch.run counterWords = some r ∧ r.stopReason = some .converged ∧
      r.generation = 1 ∧ r.recordedGenerations = [0] := by
  have hrun : denseSearch.run counterWords =
      some (denseStart.completeGeneration.stop .converged) := by
    rw [enters_denseStart.run_eq]
    show runGenerations counterWords (2 + 1) denseStart = _
    rw [runGenerations_succ, if_pos converged_denseStart]
  have hconverges : denseSearch.ConvergesAt counterWords 1 :=
    enters_denseStart.convergesAt_succ_iff.mpr converged_denseStart
  have hleast : IsLeast {g | 1 ≤ g ∧ g ≤ denseSearch.config.maxGenerations ∧
      denseSearch.ConvergesAt counterWords g} 1 :=
    ⟨⟨Nat.le_refl 1, by decide, hconverges⟩, fun g hg => hg.1⟩
  obtain ⟨hreason, hgeneration⟩ := (stop_of_run enters_denseStart.nonempty hrun).2.1 1 hleast
  refine ⟨_, hrun, hreason, hgeneration, ?_⟩
  rw [(chronicled_of_run hrun).generations, hgeneration]
  rfl

theorem population_start_eq_nil_iff (hgenerator : e.generator = c.generator) :
    (e.start words).population = [] ↔ c.methods = [] := by
  constructor
  · intro hnil
    by_contra hmethods
    have henters : e.Enters words (e.start words) := enters_start hgenerator hmethods
    exact henters.nonempty hnil
  · intro hnone
    have hseeds : (c.seedTests c.name anyName {}).1 = [] := by
      rw [ClassInfo.seedTests, if_neg (fun hother => hother.2 rfl), hnone]
      rfl
    rw [start_eq, hgenerator]
    show Engine.population (if (List.map _ (c.seedTests c.name anyName {}).1).isEmpty then _
      else _) = []
    rw [hseeds]
    rfl

/-- **Where a search stops.** A search over a class that returns stops for want of tests, before any
generation, exactly when the class has no methods. Otherwise it stops with the first generation that
its budget allows after which the archive holds ten tests of a mean fitness above 0.9, and if there
is none, with its budget spent. The history has an entry for each complete generation, in their
order, and the sizes of the archive in it never drop. -/
theorem stops_at_first_convergence (hgenerator : e.generator = c.generator)
    (hrun : e.run words = some r) :
    (r.stopReason = some .empty ↔ c.methods = []) ∧
      (c.methods = [] → r.generation = 0 ∧ r.history = []) ∧
      (c.methods ≠ [] →
        (∀ g, IsLeast {g | 1 ≤ g ∧ g ≤ e.config.maxGenerations ∧ e.ConvergesAt words g} g →
          r.stopReason = some .converged ∧ r.generation = g) ∧
        ((∀ g, 1 ≤ g → g ≤ e.config.maxGenerations → ¬ e.ConvergesAt words g) →
          r.stopReason = some .maxGenerations ∧ r.generation = e.config.maxGenerations)) ∧
      r.recordedGenerations = List.range r.generation ∧
      r.archiveSizes.Pairwise (· ≤ ·) := by
  have hempty : (e.start words).population = [] ↔ c.methods = [] :=
    population_start_eq_nil_iff hgenerator
  have hnone : c.methods = [] → r = (e.start words).stop .empty := by
    intro hmethods
    rw [run_eq_ite, if_pos (List.isEmpty_iff.mpr (hempty.mpr hmethods))] at hrun
    exact (Option.some.inj hrun).symm
  have hsome : c.methods ≠ [] → (e.start words).population ≠ [] := mt hempty.mp
  have hchronicled := chronicled_of_run hrun
  refine ⟨⟨fun hreason => ?_, fun hmethods => ?_⟩, fun hmethods => ?_,
    fun hmethods => (stop_of_run (hsome hmethods) hrun).2,
    hchronicled.generations, hchronicled.ascending⟩
  · by_contra hmethods
    exact (stop_of_run (hsome hmethods) hrun).1 hreason
  · rw [hnone hmethods]
    rfl
  · rw [hnone hmethods]
    exact ⟨generation_start e, history_start e⟩

/-- A search for the two tests of `counterClass` in a single generation. -/
def onceSearch : Engine :=
  { counterSearch with config := { populationSize := 2, maxGenerations := 1, eliteSize := 2 } }

/-- The state in which the generation begins. -/
def onceStart : Engine := onceSearch.start counterWords

theorem population_onceStart : onceStart.population = counterStart.population := rfl

theorem length_population_onceStart : onceStart.population.length = 2 := by
  have hlength := congrArg List.length names_counterStart
  rwa [namesOf, List.length_map, ← population_onceStart] at hlength

theorem enters_onceStart : onceSearch.Enters counterWords onceStart := by
  refine .first fun hnone => ?_
  have hlength := length_population_onceStart
  rw [onceStart, hnone] at hlength
  cases hlength

/-- Two tests do not make the archive large enough, so the search spends its budget. -/
theorem onceSearch_spends_budget :
    onceSearch.generator = counterClass.generator ∧
      ∃ r, onceSearch.run counterWords = some r ∧ r.stopReason = some .maxGenerations ∧
        r.generation = 1 ∧ r.recordedGenerations = [0] := by
  have hreturns : (onceSearch.run counterWords).isSome = true := by
    rw [enters_onceStart.run_eq]
    exact isSome_runGenerations rfl length_population_onceStart.symm _
  obtain ⟨r, hr⟩ := Option.isSome_iff_exists.mp hreturns
  have hnever : ¬ onceSearch.ConvergesAt counterWords 1 := by
    intro hconverges
    have hconverged := enters_onceStart.convergesAt_succ_iff.mp hconverges
    have hlarge := (Archive.converged_iff.mp hconverged).1
    have hsmall := onceStart.archive.length_newFrom_le onceStart.completeGeneration.population
    rw [length_completeGeneration, length_population_onceStart] at hsmall
    rw [archive_completeGeneration, onceStart, archive_start] at hlarge
    exact absurd (hlarge.trans hsmall) (by decide)
  obtain ⟨-, -, hstop, hgenerations, -⟩ :=
    stops_at_first_convergence (c := counterClass) rfl hr
  obtain ⟨hreason, hgeneration⟩ := (hstop (List.cons_ne_nil _ _)).2 fun g hpos hle => by
    rw [Nat.le_antisymm hle hpos]
    exact hnever
  refine ⟨rfl, r, hr, hreason, hgeneration, ?_⟩
  rw [hgenerations, hgeneration]
  rfl

end Engine

end Testwright
