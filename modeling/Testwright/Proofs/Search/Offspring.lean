import Testwright.Proofs.Search.Course
import Testwright.Proofs.Sorting

/-!
# What a population passes on

The next population begins with the fittest of the last one, in their order and one generation
older; all others are newcomers of age zero under derived names. Main statement: `exists_newcomers`,
which also says that there are exactly as many members as the configuration asks for, however many
children each pass added. The order is the stable one by descending fitness
(`descending_sortDescending`).
-/

namespace Testwright

open Testwright.Random

-- what is drawn is never evaluated here
attribute [local irreducible] patience

/-! ## The order by fitness -/

section

variable {α : Type} (key : α → Float)

/-- The second list has the elements of the first one by descending keys, and those of the same key
in the order of the first one. -/
structure Descending (l sorted : List α) : Prop where
  perm : sorted.Perm l
  pairwise : sorted.Pairwise fun a b => totalKey (key b) ≤ totalKey (key a)
  stable : ∀ k, (sorted.filter fun a => totalKey (key a) = k) =
    l.filter fun a => totalKey (key a) = k

theorem descending_sortDescending (l : List α) : Descending key l (sortDescending key l) := by
  have h := ranked_mergeSort (fun a => totalKey (key a)) l
  exact ⟨h.perm, h.pairwise, h.stable⟩

variable {key}

/-- A list in descending order is left as it is. -/
theorem sortDescending_of_pairwise {l : List α}
    (h : l.Pairwise fun a b => totalKey (key b) ≤ totalKey (key a)) :
    sortDescending key l = l :=
  List.mergeSort_of_pairwise (h.imp fun hle => decide_eq_true hle)

end

/-! ## One pass -/

theorem getD_mem {α : Type} [Inhabited α] {l : List α} {k : Nat} (hk : k < l.length) :
    l.getD k default ∈ l := by
  rw [List.getD_eq_getElem?_getD, List.getElem?_eq_getElem hk]
  exact List.getElem_mem hk

namespace Breeding

variable {σ α β : Type}

/-- Whatever is drawn, the result of the computation is of a kind. -/
def Yields (x : Breeding σ α) (kind : α → Prop) : Prop := ∀ s, kind (x.run s).1

theorem Yields.pure {a : α} {kind : α → Prop} (h : kind a) :
    Yields (Pure.pure a : Breeding σ α) kind := fun _ => h

theorem Yields.map {x : Breeding σ α} {f : α → β} {kind : β → Prop}
    (h : Yields x fun a => kind (f a)) : Yields (f <$> x) kind := h

theorem Yields.bind {x : Breeding σ α} {f : α → Breeding σ β} {first : α → Prop}
    {kind : β → Prop} (hx : Yields x first) (hf : ∀ a, first a → Yields (f a) kind) :
    Yields (x >>= f) kind := by
  intro s
  rw [run_bind]
  exact hf _ (hx s) _

/-- A kind that does not depend on the first part of a computation. -/
theorem Yields.then {x : Breeding σ α} {f : α → Breeding σ β} {kind : β → Prop}
    (hf : ∀ a, Yields (f a) kind) : Yields (x >>= f) kind := by
  intro s
  rw [run_bind]
  exact hf _ _

theorem Yields.mono {x : Breeding σ α} {kind kind' : α → Prop} (h : Yields x kind)
    (himp : ∀ a, kind a → kind' a) : Yields x kind' := fun s => himp _ (h s)

/-- Computations that go on in the same way after each result that there can be. -/
theorem Yields.bind_congr {x : Breeding σ α} {f g : α → Breeding σ β} {kind : α → Prop}
    (hx : Yields x kind) (h : ∀ a, kind a → f a = g a) : x >>= f = x >>= g := by
  funext s
  show (f (x.run s).1).run (x.run s).2 = (g (x.run s).1).run (x.run s).2
  rw [h _ (hx s)]

theorem Yields.naming {f : IdSource → α × IdSource} {kind : α → Prop}
    (h : ∀ ids, kind (f ids).1) : Yields (naming f : Breeding σ α) kind := fun s => h s.ids

end Breeding

open Breeding

section

variable {σ : Type} [WordSource σ]

/-- Draws whether a pass crosses two members. -/
def drawCrosses (c : Config) (pool : Nat) : Breeding σ Bool :=
  if c.crossesWith pool then drawing (chance c.crossoverRate) else pure false

/-- Draws whether a pass mutates a member. -/
def drawMutates (c : Config) (pool : Nat) : Breeding σ Bool :=
  if c.mustMutate pool then pure true else drawing (chance c.mutationRate)

/-- The crossed children of a pass. -/
def crossedIf (c : Config) (population : List Chromosome) (pool places : Nat) (crosses : Bool) :
    Breeding σ (List Chromosome) :=
  if crosses then breedCrossed c.maxTestLength population pool places else pure []

/-- The mutant of a pass. -/
def mutantIf (c : Config) (population : List Chromosome) (mutates : Bool) :
    Breeding σ (List Chromosome) :=
  if mutates then (fun m => [m]) <$> breedMutant c.maxTestLength population else pure []

/-- A pass first adds crossed children, or none, and then a mutant, or none. -/
theorem breedPass_eq (c : Config) (population : List Chromosome) (places : Nat) :
    (breedPass c population places : Breeding σ (List Chromosome)) = do
      let pool := min population.length parentPool
      let crossed ← drawCrosses c pool >>= crossedIf c population pool places
      let mutant ← drawMutates c pool >>= mutantIf c population
      return crossed ++ mutant := by
  unfold breedPass drawCrosses
  extract_lets pool afterCrossing
  have hafter : ∀ crossed, afterCrossing crossed = do
      let mutant ← drawMutates c pool >>= mutantIf c population
      return crossed ++ mutant := by
    intro crossed
    unfold drawMutates
    by_cases hmust : c.mustMutate pool = true
    · simp [afterCrossing, hmust, mutantIf]
    · simp only [afterCrossing, hmust, bind_assoc]
      apply bind_congr
      intro mutates
      cases mutates <;> simp [mutantIf]
  by_cases hcross : c.crossesWith pool = true
  · simp only [hcross, if_true, bind_assoc]
    apply bind_congr
    intro crosses
    cases crosses <;> simp [crossedIf, hafter]
  · simp [hcross, crossedIf, hafter]

/-! ## Newcomers -/

/-- A name that was derived from another one. -/
def IsDerived (id : String) : Prop := lineageSeparator ∈ id.toList

theorem isDerived_derive (ids : IdSource) (parent tag : String) :
    IsDerived (ids.derive parent tag).1 := by
  rw [IsDerived, IdSource.toList_derive]
  exact List.mem_append_right _ List.mem_cons_self

/-- A member that was bred and not kept. -/
structure Chromosome.IsNewcomer (m : Chromosome) : Prop where
  age : m.age = 0
  derived : IsDerived m.test.id

omit [WordSource σ] in
/-- A child is a newcomer, and so is the copy of a parent that stands in for a child. -/
theorem newcomer_bounded {child : TestCase} (h : IsDerived child.id) (maxRows : Nat)
    (parent : Chromosome) :
    Yields (naming (bounded maxRows child parent) : Breeding σ Chromosome)
      Chromosome.IsNewcomer := by
  refine .naming fun ids => ?_
  unfold bounded
  split
  · exact ⟨rfl, isDerived_derive _ _ _⟩
  · exact ⟨rfl, h⟩

theorem derived_mutate (t : TestCase) :
    Yields (mutate t : Breeding σ TestCase) fun child => IsDerived child.id := by
  refine .then fun k => .then fun text => ?_
  exact .bind (.naming fun ids => isDerived_derive ids t.id mutantTag) fun id hid => .pure hid

theorem derived_crossover (first second : TestCase) :
    Yields (crossover first second : Breeding σ (TestCase × TestCase))
      fun children => IsDerived children.1.id ∧ IsDerived children.2.id := by
  refine .then fun point => ?_
  refine .bind (.naming fun ids => isDerived_derive ids first.id crossTag) fun id1 h1 => ?_
  exact .bind (.naming fun ids => isDerived_derive ids second.id crossTag) fun id2 h2 =>
    .pure ⟨h1, h2⟩

theorem newcomers_breedCrossed (maxRows : Nat) (population : List Chromosome) (pool places : Nat) :
    Yields (breedCrossed maxRows population pool places : Breeding σ (List Chromosome))
      fun new => ∀ m ∈ new, m.IsNewcomer := by
  refine .then fun picks => .bind (derived_crossover _ _) fun children hchildren => ?_
  refine .bind (newcomer_bounded hchildren.1 _ _) fun c1 h1 => ?_
  split
  · refine .bind (newcomer_bounded hchildren.2 _ _) fun c2 h2 => .pure ?_
    simpa using ⟨h1, h2⟩
  · exact .pure (by simpa using h1)

theorem newcomer_breedMutant (maxRows : Nat) (population : List Chromosome) :
    Yields (breedMutant maxRows population : Breeding σ Chromosome) Chromosome.IsNewcomer :=
  .then fun _ => .bind (derived_mutate _) fun _ hchild => newcomer_bounded hchild _ _

theorem crossesWith_of_drawCrosses (c : Config) (pool : Nat) :
    Yields (drawCrosses c pool : Breeding σ Bool)
      fun crosses => crosses = true → c.crossesWith pool = true := by
  unfold drawCrosses
  split
  · rename_i hcross
    exact fun _ _ => hcross
  · exact .pure fun h => absurd h Bool.false_ne_true

/-- If crossed children and mutants are of a kind, a pass adds members of this kind only. -/
theorem forall_mem_breedPass (kind : Chromosome → Prop) {c : Config}
    {population : List Chromosome}
    (hcrossed : ∀ pool, c.crossesWith pool = true → pool ≤ population.length → ∀ places,
      Yields (breedCrossed c.maxTestLength population pool places : Breeding σ (List Chromosome))
        fun new => ∀ m ∈ new, kind m)
    (hmutant : Yields (breedMutant c.maxTestLength population : Breeding σ Chromosome) kind)
    (places : Nat) :
    Yields (breedPass c population places : Breeding σ (List Chromosome))
      fun new => ∀ m ∈ new, kind m := by
  have hnone : Yields (pure [] : Breeding σ (List Chromosome)) fun new => ∀ m ∈ new, kind m :=
    .pure fun m hm => absurd hm List.not_mem_nil
  rw [breedPass_eq]
  refine .bind (.bind (crossesWith_of_drawCrosses c _) fun crosses hcross => ?_)
    fun crossed hcrossed' => .bind (.then fun mutates => ?_) fun mutant hmutant' =>
      .pure (List.forall_mem_append.mpr ⟨hcrossed', hmutant'⟩)
  · cases crosses with
    | false => exact hnone
    | true => exact hcrossed _ (hcross rfl) (Nat.min_le_left _ _) places
  · cases mutates with
    | false => exact hnone
    | true => exact .map (hmutant.mono fun m hm => List.forall_mem_singleton.mpr hm)

theorem newcomers_breedPass (c : Config) (population : List Chromosome) (places : Nat) :
    Yields (breedPass c population places : Breeding σ (List Chromosome))
      fun new => ∀ m ∈ new, m.IsNewcomer :=
  forall_mem_breedPass Chromosome.IsNewcomer (fun _ _ _ => newcomers_breedCrossed _ _ _)
    (newcomer_breedMutant _ _) places

/-- When no place is free any more, all places are taken. -/
theorem length_le_fillPlaces {c : Config} {population added filled : List Chromosome}
    {fuel places : Nat} {s s' : Supply σ}
    (h : fillPlaces c population fuel places added s = some (filled, s')) :
    added.length + places ≤ filled.length := by
  fun_induction fillPlaces c population fuel places added s with
  | case1 fuel added s =>
      cases h
      simp
  | case2 => cases h
  | case3 fuel places added s hplaces new rest hpass ih =>
      have hlength := ih h
      -- a pass may add more than there are places
      rw [List.length_append, List.length_reverse] at hlength
      omega

/-- If every pass adds members of a kind, they take all places. -/
theorem forall_mem_fillPlaces (kind : Chromosome → Prop) {c : Config}
    {population added filled : List Chromosome} {fuel places : Nat} {s s' : Supply σ}
    (hpass : ∀ places, Yields (breedPass c population places : Breeding σ (List Chromosome))
      fun new => ∀ m ∈ new, kind m) (hadded : ∀ m ∈ added, kind m)
    (h : fillPlaces c population fuel places added s = some (filled, s')) :
    ∀ m ∈ filled, kind m := by
  fun_induction fillPlaces c population fuel places added s with
  | case1 fuel added s =>
      cases h
      exact fun m hm => hadded m (List.mem_reverse.mp hm)
  | case2 => cases h
  | case3 fuel places added s hplaces new rest hrun ih =>
      have hnew := hpass places s
      rw [hrun] at hnew
      refine ih (fun m hm => ?_) h
      rcases List.mem_append.mp hm with hm | hm
      · exact hnew m (List.mem_reverse.mp hm)
      · exact hadded m hm

theorem newcomers_fillPlaces {c : Config} {population added filled : List Chromosome}
    {fuel places : Nat} {s s' : Supply σ} (hadded : ∀ m ∈ added, m.IsNewcomer)
    (h : fillPlaces c population fuel places added s = some (filled, s')) :
    ∀ m ∈ filled, m.IsNewcomer :=
  forall_mem_fillPlaces Chromosome.IsNewcomer (newcomers_breedPass c population) hadded h

/-- If the mutants of a population of a kind are of this kind, so are the members that pad it. -/
theorem forall_mem_padPopulation (kind : Chromosome → Prop) {c : Config}
    (hmutant : ∀ population : List Chromosome, population ≠ [] → (∀ m ∈ population, kind m) →
      Yields (breedMutant c.maxTestLength population : Breeding σ Chromosome) kind)
    (missing : Nat) {population : List Chromosome} (hsome : population ≠ [])
    (h : ∀ m ∈ population, kind m) (s : Supply σ) :
    ∀ m ∈ (padPopulation c missing population s).1, kind m := by
  induction missing generalizing population s with
  | zero => exact h
  | succ missing ih =>
      rw [padPopulation]
      refine ih (List.append_ne_nil_of_left_ne_nil hsome _) (fun m hm => ?_) _
      rcases List.mem_append.mp hm with hm | hm
      · exact h m hm
      · rw [List.mem_singleton.mp hm]
        exact hmutant population hsome h s

/-- If the seed tests are of a kind and the mutants of members of the kind are, too, so are all the
tests that a search starts with. -/
theorem Engine.forall_mem_start (kind : Chromosome → Prop) {e : Engine} {words : UInt64 → σ}
    (hseeds : ∀ t ∈ (e.generator.seeds e.generator.classInfo.name anyName {}).1, kind { test := t })
    (hmutant : ∀ population : List Chromosome, population ≠ [] → (∀ m ∈ population, kind m) →
      Yields (breedMutant e.config.maxTestLength population : Breeding σ Chromosome) kind) :
    ∀ m ∈ (e.start words).population, kind m := by
  rw [start_eq]
  dsimp only
  split
  · exact fun m hm => absurd hm List.not_mem_nil
  · rename_i hsome
    exact forall_mem_padPopulation kind hmutant _ (by simpa using hsome)
      (List.forall_mem_map.mpr hseeds) _

theorem length_elite {c : Config} {population : List Chromosome}
    (h : c.eliteSize ≤ population.length) : (elite c population).length = c.eliteSize := by
  rw [elite, List.length_map, List.length_take]
  omega

/-- The next population has the size that is asked for. -/
theorem length_nextPopulation {c : Config} {population : List Chromosome} {s : Supply σ}
    {r : List Chromosome × Supply σ} (h : nextPopulation c population s = some r) :
    r.1.length = c.populationSize := by
  obtain ⟨filled, hfill, hpopulation⟩ := exists_of_nextPopulation h
  have hplaces := length_le_fillPlaces hfill
  rw [List.length_nil] at hplaces
  rw [hpopulation, List.length_take, List.length_append]
  omega

/-- The next population has the size that is asked for: the fittest of the last one come first, and
all the others are newcomers. -/
theorem exists_newcomers {c : Config} {population : List Chromosome} {s : Supply σ}
    {r : List Chromosome × Supply σ} (helite : c.eliteSize ≤ c.populationSize)
    (hlength : c.eliteSize ≤ population.length) (h : nextPopulation c population s = some r) :
    ∃ newcomers, r.1 = elite c (byFitness population) ++ newcomers ∧
      r.1.length = c.populationSize ∧ ∀ m ∈ newcomers, m.age = 0 := by
  obtain ⟨filled, hfill, hpopulation⟩ := exists_of_nextPopulation h
  have hkept : (elite c (byFitness population)).length = c.eliteSize :=
    length_elite (by rw [length_byFitness]; exact hlength)
  have hnewcomers := newcomers_fillPlaces (fun m hm => absurd hm List.not_mem_nil) hfill
  refine ⟨filled.take (c.populationSize - c.eliteSize), ?_, length_nextPopulation h, ?_⟩
  · rw [hpopulation, List.take_append, hkept, List.take_of_length_le (by omega)]
  · intro m hm
    exact (hnewcomers m (List.mem_of_mem_take hm)).age

end

end Testwright
