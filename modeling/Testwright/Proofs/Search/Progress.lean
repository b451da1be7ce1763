import Testwright.Proofs.Search.Offspring

/-!
# Whether breeding goes on

A pass adds children when something happens that has a probability, and nothing may ever happen
whose probability is too small for the generator: it counts the words of 64 bits that are a success,
and there may be none. Where a pass may add children, the word zero makes it do so. Main statements:
the configurations under which every pass may add a child (`passes_may_add_iff`), and what follows
where none may: the places are never filled (`fillPlaces_eq_none`).
-/

namespace Testwright

open Testwright.Random

-- what is drawn is never evaluated here
attribute [local irreducible] patience

namespace Random

/-- Something of probability `p` may happen: it is certain, or some word is a success. -/
def isPossible (p : Float) : Bool := p == 1 || 0 < successes p

/-- The source whose words are all zero. -/
inductive Zeros
  | zeros

instance : WordSource Zeros := ⟨fun z => (0, z)⟩

variable {σ : Type} [WordSource σ]

theorem isPossible_of_chance {p : Float} {s : σ} (h : (chance p s).1 = true) :
    isPossible p = true := by
  rw [chance] at h
  by_cases hone : (p == 1) = true
  · rw [isPossible, hone, Bool.true_or]
  · rw [if_neg hone] at h
    have hlt : (draw64 s).1 < successes p := of_decide_eq_true h
    have hpos : 0 < successes p := UInt64.lt_of_le_of_lt (UInt64.zero_le) hlt
    rw [isPossible, decide_eq_true hpos, Bool.or_true]

/-- The word zero is a success if any word is. -/
theorem chance_zeros (p : Float) (z : Zeros) : (chance p z).1 = isPossible p := by
  rw [chance, isPossible]
  by_cases hone : (p == 1) = true
  · rw [if_pos hone, hone, Bool.true_or]
  · rw [if_neg hone, Bool.eq_false_iff.mpr hone, Bool.false_or]
    rfl

end Random

open Breeding

namespace Config

variable (c : Config) (pool : Nat)

/-- A pass may cross members of a pool of some size. -/
def mayCross : Bool := c.crossesWith pool && isPossible c.crossoverRate

/-- A pass may mutate a member of a population with a pool of some size. -/
def mayMutate : Bool := c.mustMutate pool || isPossible c.mutationRate

variable {σ : Type} [WordSource σ]

theorem mayCross_of_draw :
    Yields (drawCrosses c pool : Breeding σ Bool) fun crosses =>
      crosses = true → c.mayCross pool = true := by
  intro s h
  rw [drawCrosses] at h
  rw [mayCross]
  cases hcross : c.crossesWith pool with
  | false =>
      rw [hcross] at h
      cases h
  | true =>
      rw [hcross, if_pos rfl] at h
      have hchance : (chance c.crossoverRate s.words).1 = true := h
      exact isPossible_of_chance hchance

theorem mayMutate_of_draw :
    Yields (drawMutates c pool : Breeding σ Bool) fun mutates =>
      mutates = true → c.mayMutate pool = true := by
  intro s h
  rw [drawMutates] at h
  rw [mayMutate]
  cases hmust : c.mustMutate pool with
  | true => rfl
  | false =>
      rw [hmust, if_neg Bool.false_ne_true] at h
      have hchance : (chance c.mutationRate s.words).1 = true := h
      exact isPossible_of_chance hchance

theorem drawCrosses_zeros :
    Yields (drawCrosses c pool : Breeding Zeros Bool) fun crosses => crosses = c.mayCross pool := by
  intro s
  rw [drawCrosses, mayCross]
  cases c.crossesWith pool with
  | false => rfl
  | true => exact chance_zeros _ _

theorem drawMutates_zeros :
    Yields (drawMutates c pool : Breeding Zeros Bool) fun mutates =>
      mutates = c.mayMutate pool := by
  intro s
  rw [drawMutates, mayMutate]
  cases c.mustMutate pool with
  | true => rfl
  | false => exact chance_zeros _ _

end Config

/-! ## What a pass may add -/

section

variable {σ : Type} [WordSource σ] {c : Config} {population : List Chromosome} {pool : Nat}

theorem crossed_eq_nil (h : c.mayCross pool = false) (places : Nat) :
    Yields (drawCrosses c pool >>= crossedIf c population pool places :
      Breeding σ (List Chromosome)) fun crossed => crossed = [] := by
  refine .bind (c.mayCross_of_draw pool) fun crosses hcrosses => ?_
  cases crosses with
  | false => exact .pure rfl
  | true =>
      rw [hcrosses rfl] at h
      cases h

theorem mutants_eq_nil (h : c.mayMutate pool = false) :
    Yields (drawMutates c pool >>= mutantIf c population : Breeding σ (List Chromosome))
      fun mutants => mutants = [] := by
  refine .bind (c.mayMutate_of_draw pool) fun mutates hmutates => ?_
  cases mutates with
  | false => exact .pure rfl
  | true =>
      rw [hmutates rfl] at h
      cases h

/-- A pass that may neither cross nor mutate adds nothing, whatever is drawn. -/
theorem breedPass_eq_nil (hcross : c.mayCross (min population.length parentPool) = false)
    (hmutate : c.mayMutate (min population.length parentPool) = false) (places : Nat) :
    Yields (breedPass c population places : Breeding σ (List Chromosome)) fun new => new = [] := by
  rw [breedPass_eq]
  refine .bind (crossed_eq_nil hcross places) fun crossed hcrossed => ?_
  refine .bind (mutants_eq_nil hmutate) fun mutants hmutants => .pure ?_
  rw [hcrossed, hmutants, List.append_nil]

/-- Crossing adds one child at least. -/
theorem crossedIf_ne_nil (c : Config) (population : List Chromosome) (pool places : Nat) :
    Yields (crossedIf c population pool places true : Breeding σ (List Chromosome))
      fun crossed => crossed ≠ [] := by
  refine .then fun picks => .then fun children => .then fun first => ?_
  split
  · exact .then fun second => .pure (List.cons_ne_nil _ _)
  · exact .pure (List.cons_ne_nil _ _)

theorem mutantIf_ne_nil (c : Config) (population : List Chromosome) :
    Yields (mutantIf c population true : Breeding σ (List Chromosome))
      fun mutants => mutants ≠ [] :=
  .map fun _ => List.cons_ne_nil _ _

theorem crossed_ne_nil_zeros (h : c.mayCross pool = true) (places : Nat) :
    Yields (drawCrosses c pool >>= crossedIf c population pool places :
      Breeding Zeros (List Chromosome)) fun crossed => crossed ≠ [] := by
  refine .bind (c.drawCrosses_zeros pool) fun crosses hcrosses => ?_
  rw [hcrosses, h]
  exact crossedIf_ne_nil _ _ _ _

theorem mutants_ne_nil_zeros (h : c.mayMutate pool = true) :
    Yields (drawMutates c pool >>= mutantIf c population : Breeding Zeros (List Chromosome))
      fun mutants => mutants ≠ [] := by
  refine .bind (c.drawMutates_zeros pool) fun mutates hmutates => ?_
  rw [hmutates, h]
  exact mutantIf_ne_nil _ _

/-- The word zero makes a pass add children if it may. -/
theorem breedPass_ne_nil_zeros
    (h : c.mayCross (min population.length parentPool) = true ∨
      c.mayMutate (min population.length parentPool) = true) (places : Nat) :
    Yields (breedPass c population places : Breeding Zeros (List Chromosome))
      fun new => new ≠ [] := by
  rw [breedPass_eq]
  rcases h with hcross | hmutate
  · refine .bind (crossed_ne_nil_zeros hcross places) fun crossed hcrossed => ?_
    exact .then fun mutants => .pure (List.append_ne_nil_of_left_ne_nil hcrossed _)
  · refine .then fun crossed => ?_
    refine .bind (mutants_ne_nil_zeros hmutate) fun mutants hmutants => ?_
    exact .pure (List.append_ne_nil_of_right_ne_nil _ hmutants)

/-! ## Filling the places -/

/-- When no pass adds anything, no number of passes is enough. -/
theorem fillPlaces_eq_none
    (hpass : ∀ places, Yields (breedPass c population places : Breeding σ (List Chromosome))
      fun new => new = []) {places : Nat} (hplaces : 0 < places) (fuel : Nat)
    (added : List Chromosome) (s : Supply σ) :
    fillPlaces c population fuel places added s = none := by
  fun_induction fillPlaces c population fuel places added s with
  | case1 => exact absurd hplaces (Nat.lt_irrefl 0)
  | case2 => rfl
  | case3 fuel places added s _ new rest hrun ih =>
      have hnew := hpass places s
      rw [hrun] at hnew
      cases hnew
      exact ih hplaces

/-- When every pass adds a child, as many passes as there are places are enough. -/
theorem isSome_fillPlaces
    (hpass : ∀ places, Yields (breedPass c population places : Breeding σ (List Chromosome))
      fun new => new ≠ []) {fuel places : Nat} (hfuel : places ≤ fuel)
    (added : List Chromosome) (s : Supply σ) :
    (fillPlaces c population fuel places added s).isSome = true := by
  fun_induction fillPlaces c population fuel places added s with
  | case1 => rfl
  | case2 places added s hplaces =>
      exact absurd (Nat.le_zero.mp hfuel) hplaces
  | case3 fuel places added s hplaces new rest hrun ih =>
      have hnew := hpass places s
      rw [hrun] at hnew
      have hlength : 0 < new.length := List.length_pos_iff.mpr hnew
      exact ih (by omega)

end

/-! ## Configurations -/

namespace Config

variable {c : Config} {pool : Nat}

theorem mayAdd_iff_of_crossesWith (h : c.crossesWith pool = true) :
    c.mayCross pool = true ∨ c.mayMutate pool = true ↔
      isPossible c.crossoverRate = true ∨ isPossible c.mutationRate = true := by
  have hmust : c.mustMutate pool = false := by rw [mustMutate, h]; rfl
  rw [mayCross, mayMutate, h, hmust, Bool.true_and, Bool.false_or]

theorem mayAdd_iff_of_not_crossesWith (h : c.crossesWith pool = false) :
    c.mayCross pool = true ∨ c.mayMutate pool = true ↔
      c.mutationRate ≤ 0 ∨ isPossible c.mutationRate = true := by
  have hmust : c.mustMutate pool = decide (c.mutationRate ≤ 0) := by rw [mustMutate, h]; rfl
  rw [mayCross, mayMutate, h, hmust, Bool.false_and, Bool.or_eq_true, decide_eq_true_eq]
  simp

theorem crossesWith_iff :
    c.crossesWith pool = true ↔ c.strategy.crosses = true ∧ 2 ≤ pool := by
  rw [crossesWith, Bool.and_eq_true, decide_eq_true_eq]

theorem two_le_pool_iff {n : Nat} : 2 ≤ min n parentPool ↔ 2 ≤ n := by
  show 2 ≤ min n 20 ↔ 2 ≤ n
  omega

end Config

/-- Some random words make a pass add children. -/
theorem exists_words_iff (c : Config) (population : List Chromosome) (places : Nat)
    (ids : IdSource) :
    (∃ (σ : Type) (_ : WordSource σ) (words : σ),
        ((breedPass c population places).run ⟨words, ids⟩).1 ≠ []) ↔
      c.mayCross (min population.length parentPool) = true ∨
        c.mayMutate (min population.length parentPool) = true := by
  constructor
  · rintro ⟨σ, _, words, hadds⟩
    by_contra hnot
    rw [not_or, Bool.not_eq_true, Bool.not_eq_true] at hnot
    exact hadds (breedPass_eq_nil hnot.1 hnot.2 places _)
  · intro h
    exact ⟨Zeros, inferInstance, .zeros, breedPass_ne_nil_zeros h places _⟩

/-- **When breeding cannot stall.** Every pass, over any population that has the fittest members to
keep, may add a child exactly when the rates that the pass depends on are possible: of two rates one
is enough, but a single member is never crossed, nor is any member by a random strategy, and then it
must be the rate of mutations, or a rate of zero, with which every pass mutates. -/
theorem passes_may_add_iff (c : Config) :
    (∀ population : List Chromosome, population ≠ [] → c.eliteSize ≤ population.length →
        ∀ places, 0 < places → ∀ ids, ∃ (σ : Type) (_ : WordSource σ) (words : σ),
          ((breedPass c population places).run ⟨words, ids⟩).1 ≠ []) ↔
      (c.strategy.crosses = true →
        isPossible c.crossoverRate = true ∨ isPossible c.mutationRate = true) ∧
      (c.strategy.crosses = false ∨ c.eliteSize ≤ 1 →
        c.mutationRate ≤ 0 ∨ isPossible c.mutationRate = true) := by
  simp only [exists_words_iff]
  constructor
  · intro h
    -- only the size of a population matters
    have hsize : ∀ n, 0 < n → c.eliteSize ≤ n →
        c.mayCross (min n parentPool) = true ∨ c.mayMutate (min n parentPool) = true := by
      intro n hn helite
      have hadds := h (List.replicate n default)
        (fun hnil => hn.ne' (List.replicate_eq_nil_iff _ |>.mp hnil)) (by simpa using helite) 1
        Nat.one_pos {}
      rwa [List.length_replicate] at hadds
    refine ⟨fun hcrosses => ?_, fun hsingle => ?_⟩
    · have htwo : c.crossesWith (min (max 2 c.eliteSize) parentPool) = true :=
        Config.crossesWith_iff.mpr ⟨hcrosses, Config.two_le_pool_iff.mpr (by omega)⟩
      exact (Config.mayAdd_iff_of_crossesWith htwo).mp (hsize _ (by omega) (by omega))
    · rcases hsingle with hrandom | helite
      · have hnot : c.crossesWith (min (max 1 c.eliteSize) parentPool) = false := by
          rw [Config.crossesWith, hrandom, Bool.false_and]
        exact (Config.mayAdd_iff_of_not_crossesWith hnot).mp (hsize _ (by omega) (by omega))
      · have hnot : c.crossesWith (min 1 parentPool) = false :=
          Bool.eq_false_iff.mpr fun h => by
            have htwo := Config.two_le_pool_iff.mp (Config.crossesWith_iff.mp h).2
            omega
        exact (Config.mayAdd_iff_of_not_crossesWith hnot).mp (hsize 1 (by omega) helite)
  · rintro ⟨hboth, hsingle⟩ population hne helite places - ids
    have hpositive : 0 < population.length := List.length_pos_iff.mpr hne
    cases hcross : c.crossesWith (min population.length parentPool) with
    | true =>
        rw [Config.mayAdd_iff_of_crossesWith hcross]
        exact hboth (Config.crossesWith_iff.mp hcross).1
    | false =>
        rw [Config.mayAdd_iff_of_not_crossesWith hcross]
        apply hsingle
        -- no crossing is for want of a strategy or of a second member
        cases hcrosses : c.strategy.crosses with
        | false => exact .inl rfl
        | true =>
            have hpool : ¬ 2 ≤ population.length := fun htwo => by
              rw [Config.crossesWith_iff.mpr ⟨hcrosses, Config.two_le_pool_iff.mpr htwo⟩] at hcross
              cases hcross
            exact .inr (by omega)

/-- The settings of a search that only mutates, with probability 10⁻³⁰. -/
def rareMutations : Config where
  strategy := .random
  mutationRate := 1e-30

/-- They are accepted, but no random words ever give such a search a second population. -/
theorem rareMutations_accepted_but_stalled :
    rareMutations.validate = .ok () ∧
      ∀ (σ : Type) (_ : WordSource σ) (population : List Chromosome) (s : Supply σ),
        (∀ places, ((breedPass rareMutations population places).run s).1 = []) ∧
          nextPopulation rareMutations population s = none := by
  have hfault : rareMutations.fault? = none := by decide +kernel
  have himpossible : isPossible rareMutations.mutationRate = false := by decide +kernel
  have hpositive : decide (rareMutations.mutationRate ≤ 0) = false := by decide +kernel
  have hcross : ∀ pool, rareMutations.mayCross pool = false := fun _ => rfl
  have hmutate : ∀ pool, rareMutations.mayMutate pool = false := by
    intro pool
    rw [Config.mayMutate, Config.mustMutate, himpossible, hpositive, Bool.and_false, Bool.or_false]
  have hpass : ∀ (σ : Type) (_ : WordSource σ) (population : List Chromosome) (places : Nat),
      Yields (breedPass rareMutations population places : Breeding σ (List Chromosome))
        fun new => new = [] := fun _ _ _ => breedPass_eq_nil (hcross _) (hmutate _)
  refine ⟨by rw [Config.validate, hfault], fun σ _ population s => ⟨fun places => ?_, ?_⟩⟩
  · exact hpass σ _ population places s
  · have hkept : (elite rareMutations (byFitness population)).length ≤ 5 := by
      rw [elite, List.length_map]
      exact List.length_take_le _ _
    have hplaces : 0 < rareMutations.populationSize -
        (elite rareMutations (byFitness population)).length := by
      show 0 < 50 - _
      omega
    have hnone := fillPlaces_eq_none (hpass σ _ (byFitness population)) hplaces patience [] s
    rw [nextPopulation, hnone]
    rfl

end Testwright
