import Testwright.Proofs.Search.Coverage
import Testwright.Proofs.Search.Generations

/-!
# Running a search again

A search begins anew each time it is run, but its targets keep what they have noted. Nothing else
depends on that: a search over targets that have noted other tests goes through the same states, up
to what the targets have noted in them (`Engine.Enters.renote`). What a run notes it has noted when
it is repeated. Main statement: `evolve_again`.
-/

namespace Testwright

open Testwright.Random

-- what is drawn is never evaluated here
attribute [local irreducible] patience

namespace Engine

variable {σ : Type} [WordSource σ] {words : UInt64 → σ} {e r s s' : Engine}
  {targets : List BranchTarget}

/-- A search whose targets have noted other tests. -/
def renote (s : Engine) (targets : List BranchTarget) : Engine := { s with targets := targets }

/-! ## One generation -/

theorem evaluate_renote (h : methodNames targets = methodNames s.targets) :
    (s.renote targets).evaluate = s.evaluate.renote targets := by
  have hpopulation : ∀ m : Chromosome, m.test.evaluated targets = m.test.evaluated s.targets :=
    fun _ => TestCase.evaluated_congr h
  simp only [evaluate, renote, hpopulation]

/-- What the targets have noted makes no difference to a generation. -/
theorem completeGeneration_renote (h : methodNames targets = methodNames s.targets) :
    (s.renote targets).completeGeneration =
      s.completeGeneration.renote (recordCoverage targets
        (s.archive.newFrom s.completeGeneration.population)) := by
  have heval := evaluate_renote h
  have hcomplete : ∀ u v : Engine, u.evaluate = v.evaluate.renote targets →
      u.completeGeneration = v.completeGeneration.renote (recordCoverage targets
        (v.archive.newFrom v.completeGeneration.population)) := by
    intro u v huv
    rw [completeGeneration, huv]
    rfl
  exact hcomplete _ _ heval

theorem breed_renote {words : σ} (h : s.breed words = some s') :
    (s.renote targets).breed words = some (s'.renote targets) := by
  obtain ⟨r, hnext, rfl⟩ := exists_of_breed h
  show Option.map _ (nextPopulation s.config s.population ⟨words, s.ids⟩) = _
  rw [hnext]
  rfl

theorem Next.renote (h : s.Next words s') (hnames : methodNames targets = methodNames s.targets) :
    (s.renote targets).Next words (s'.renote (recordCoverage targets
      (s.archive.newFrom s.completeGeneration.population))) where
  budget := h.budget
  unconverged := by
    rw [completeGeneration_renote hnames]
    exact h.unconverged
  bred := by
    rw [completeGeneration_renote hnames]
    exact breed_renote h.bred

/-! ## A whole search -/

theorem start_renote (e : Engine) (targets : List BranchTarget) :
    (e.renote targets).start words = (e.start words).renote targets := by
  rw [start_eq, start_eq]
  dsimp only
  rw [apply_ite (fun s : Engine => s.renote targets)]
  rfl

/-- A search whose targets have noted other tests comes to the same states, where its targets have
noted the archive besides. -/
theorem Enters.renote (h : e.Enters words s)
    (hnames : methodNames targets = methodNames e.targets) :
    (e.renote targets).Enters words
      (s.renote (recordCoverage targets s.archive.tests)) := by
  induction h using Enters.induction with
  | first hnone =>
      rw [archive_start, recordCoverage_nil, ← start_renote]
      refine .first ?_
      rw [start_renote]
      exact hnone.nonempty
  | next s s' hs hnext ih =>
      have hsame : methodNames (recordCoverage targets s.archive.tests) =
          methodNames s.targets := by
        rw [methodNames_recordCoverage, hnames, hs.targets_eq, methodNames_recordCoverage]
      have hstep := hnext.renote hsame
      rw [← recordCoverage_append] at hstep
      rw [archive_breed hnext.bred]
      exact ih.of_leads hstep.leads

/-- The repeated search comes to the same states, where its targets have noted all that they had
noted when it was repeated. -/
theorem Enters.renote_known (h : e.Enters words s) {known : List TestCase}
    (hknown : s.archive.tests ⊆ known) :
    (e.renote (recordCoverage e.targets known)).Enters words
      (s.renote (recordCoverage e.targets known)) := by
  have hsame := h.renote (methodNames_recordCoverage e.targets known)
  rwa [recordCoverage_of_subset hknown] at hsame

/-! ## Repeating a search -/

/-- A search that is run depends on what is kept when it is begun anew. -/
theorem run_congr (h : r.reset = e.reset) : r.run words = e.run words := by
  rw [run_eq_ite, run_eq_ite, start, start, h]

theorem reset_start (words : UInt64 → σ) (e : Engine) : (e.start words).reset = e.reset := by
  rw [start_eq]
  split <;> rfl

theorem Enters.reset_eq (h : e.Enters words s) : s.reset = (e.renote s.targets).reset := by
  induction h using Enters.induction with
  | first =>
      rw [targets_start, reset_start]
      rfl
  | next s s' _ hnext ih =>
      obtain ⟨r, -, rfl⟩ := exists_of_breed hnext.bred
      show s.reset.renote s.completeGeneration.targets = _
      rw [ih]
      rfl

/-- A generation that was completed is completed as before. -/
theorem Enters.completeGeneration_again (h : e.Enters words s) :
    (s.renote s.completeGeneration.targets).completeGeneration = s.completeGeneration := by
  have hnames : methodNames s.completeGeneration.targets = methodNames s.targets :=
    methodNames_recordCoverage _ _
  have hnew : s.archive.newFrom s.completeGeneration.population ⊆
      s.completeGeneration.archive.tests := List.subset_append_right _ _
  have hnoted : recordCoverage s.completeGeneration.targets
      (s.archive.newFrom s.completeGeneration.population) = s.completeGeneration.targets := by
    rw [h.targets_completeGeneration_eq, recordCoverage_of_subset hnew]
  rw [completeGeneration_renote hnames, hnoted]
  rfl

/-- Running a search again leaves it as it is. -/
theorem run_again (h : e.run words = some r) : r.run words = some r := by
  rcases run_eq_some h with ⟨-, rfl⟩ | ⟨s, hs, hstop⟩
  · have hreset : ((e.start words).stop .empty).reset = e.reset := reset_start words e
    rw [run_congr hreset, h]
  · rcases hstop with ⟨hspent, rfl⟩ | ⟨hbudget, hconverged, rfl⟩
    · -- the budget was spent when this generation was to begin
      have hreset : (s.stop .maxGenerations).reset = (e.renote s.targets).reset := hs.reset_eq
      have hagain := hs.renote_known (List.Subset.refl s.archive.tests)
      rw [← hs.targets_eq] at hagain
      rw [run_congr hreset, hagain.run_eq]
      show runGenerations words (s.config.maxGenerations - s.generation) s = _
      rw [hspent, Nat.sub_self]
      rfl
    · -- the last generation is completed a second time, and what it archives is known by then
      have hreset : (s.completeGeneration.stop .converged).reset =
          (e.renote s.completeGeneration.targets).reset := by
        show s.reset.renote s.completeGeneration.targets = _
        rw [hs.reset_eq]
        rfl
      have hkept : s.archive.tests ⊆ s.completeGeneration.archive.tests :=
        List.subset_append_left _ _
      have hagain := hs.renote_known hkept
      rw [← hs.targets_completeGeneration_eq] at hagain
      have hleft : s.config.maxGenerations - s.generation =
          s.config.maxGenerations - s.generation - 1 + 1 := by omega
      rw [run_congr hreset, hagain.run_eq]
      show runGenerations words (s.config.maxGenerations - s.generation) _ = _
      rw [hleft, runGenerations_succ, hs.completeGeneration_again, if_pos hconverged]

theorem seed_of_run (h : e.run words = some r) : r.seed = e.seed := by
  rcases run_eq_some h with ⟨-, rfl⟩ | ⟨s, hs, hstop⟩
  · have hseed := congrArg Engine.seed (reset_start words e)
    exact hseed
  · have hseed := congrArg Engine.seed hs.reset_eq
    rcases hstop with ⟨-, rfl⟩ | ⟨-, -, rfl⟩ <;> exact hseed

/-- **Searching again changes nothing.** A search that has returned returns again when it is
repeated, with the same archive, and is left in the same state: its population, history, generation,
stop reason and phase, the numbers for names, and what its targets have noted. -/
theorem evolve_again (h : e.evolve = some r) : r.evolve = some r := by
  rw [evolve, seed_of_run h]
  exact run_again h

/-- A search that keeps its whole population in each generation returns. -/
theorem isSome_runGenerations (helite : s.config.eliteSize = s.config.populationSize)
    (hlength : s.config.populationSize = s.population.length) (left : Nat) :
    (runGenerations words left s).isSome = true := by
  induction left generalizing s with
  | zero => rfl
  | succ left ih =>
      rw [runGenerations_succ]
      split
      · rfl
      · have hcomplete := hlength.trans (length_completeGeneration s).symm
        obtain ⟨s', hbred⟩ := exists_breed_of_le_eliteSize (e := s.completeGeneration) helite.ge
          hcomplete.le (words s.generation.toUInt64)
        obtain ⟨newcomers, -, hnext, -⟩ := exists_newcomers_of_breed helite.le hlength.le hbred
        have hconfig : s'.config = s.config := (config_breed hbred).trans rfl
        rw [hbred]
        exact ih (hconfig ▸ helite) (hconfig ▸ hnext.symm)

/-- The search for tests of `counterClass` can be repeated. -/
theorem counterSearch_evolves_again :
    create counterClass.generator counterSearch.config counterSearch.targets =
        .ok counterSearch ∧
      ∃ r, counterSearch.evolve = some r ∧ r.evolve = some r := by
  have hlength : counterStart.config.populationSize = counterStart.population.length := by
    rw [← List.length_map (f := fun m : Chromosome => m.test.id)]
    exact (congrArg List.length names_counterStart).symm
  have hreturns : (counterSearch.run counterWords).isSome = true := by
    rw [enters_counterStart.run_eq]
    exact isSome_runGenerations rfl hlength _
  obtain ⟨r, hr⟩ := Option.isSome_iff_exists.mp hreturns
  exact ⟨create_counterSearch, r, hr, evolve_again hr⟩

end Engine

end Testwright
