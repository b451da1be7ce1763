import Testwright.Proofs.Lineage
import Testwright.Proofs.Random
import Testwright.Proofs.Search.Heredity
import Testwright.Proofs.Search.Seeds

/-!
# Lineages of tests

Every test of a search descends from one of its seed tests: the root of its name is the name of that
seed test, and what it exercises is what that seed test does. A child has its name and its target
from the same parent, whichever of the operators made it, and so has a copy that stands in for a
child. Main statement: `lineage_roots_faithful`, for classes whose methods have no separator in
their names.
-/

namespace Testwright

open Testwright.Random Breeding

-- what is drawn is never evaluated here
attribute [local irreducible] patience

/-! ## Children -/

/-- A test has the name of a seed test as the root of its own name, and exercises what the seed test
does. Where tests are not crossed, it has as many assertions, too. -/
structure TestCase.DescendsFrom (strategy : Strategy) (t seed : TestCase) : Prop where
  root : lineageRoot t.id = seed.id
  kind : t.kind = seed.kind
  targetMethod : t.targetMethod = seed.targetMethod
  targetClass : t.targetClass = seed.targetClass
  dependencies : t.dependencies = seed.dependencies
  assertions : strategy = .random → t.assertions.length = seed.assertions.length

variable {strategy : Strategy} {t parent seed first second seed₁ seed₂ : TestCase}

theorem TestCase.DescendsFrom.childOf (h : parent.DescendsFrom strategy seed) {id : String}
    (hid : lineageRoot id = lineageRoot parent.id) (code : String) {assertions : List String}
    (hassertions : strategy = .random → assertions.length = parent.assertions.length) :
    (parent.childOf id code assertions).DescendsFrom strategy seed where
  root := hid.trans h.root
  kind := h.kind
  targetMethod := h.targetMethod
  targetClass := h.targetClass
  dependencies := h.dependencies
  assertions hrandom := (hassertions hrandom).trans (h.assertions hrandom)

theorem TestCase.DescendsFrom.renamed (h : t.DescendsFrom strategy seed) {id : String}
    (hid : lineageRoot id = lineageRoot t.id) :
    ({ t with id := id } : TestCase).DescendsFrom strategy seed where
  root := hid.trans h.root
  kind := h.kind
  targetMethod := h.targetMethod
  targetClass := h.targetClass
  dependencies := h.dependencies
  assertions := h.assertions

theorem TestCase.DescendsFrom.copy {m : Chromosome} (h : m.test.DescendsFrom strategy seed)
    (ids : IdSource) : (m.copy ids).1.test.DescendsFrom strategy seed :=
  h.renamed (ids.lineageRoot_derive m.test.id copyTag)

theorem TestCase.DescendsFrom.of_unscored_eq {u : TestCase} (h : t.DescendsFrom strategy seed)
    (heq : t.unscored = u.unscored) : u.DescendsFrom strategy seed := by
  have hunscored : t.unscored.DescendsFrom strategy seed :=
    ⟨h.root, h.kind, h.targetMethod, h.targetClass, h.dependencies, h.assertions⟩
  rw [heq] at hunscored
  exact ⟨hunscored.root, hunscored.kind, hunscored.targetMethod, hunscored.targetClass,
    hunscored.dependencies, hunscored.assertions⟩

/-! ## Operators -/

theorem length_replaceFirstEntry {α : Type} (p : α → Bool) (f : α → α) (l : List α) :
    (replaceFirstEntry p f l).length = l.length := by
  induction l with
  | nil => rfl
  | cons a rest ih =>
      rw [replaceFirstEntry]
      split
      · rfl
      · rw [List.length_cons, List.length_cons, ih]

/-- A flip changes an entry of the list of assertions, and adds or removes none. -/
theorem length_flipAssertion (cs : List Char) (assertions : List String) :
    (flipAssertion cs assertions).2.length = assertions.length := by
  rw [flipAssertion]
  split
  · rfl
  · exact length_replaceFirstEntry _ _ _

variable {σ : Type} [WordSource σ]

theorem length_mutateText (m : Mutation) (t : TestCase) :
    Yields (mutateText m t : Breeding σ (List Char × List String))
      fun text => text.2.length = t.assertions.length := by
  cases m with
  | perturbLiteral => exact .then fun _ => .pure rfl
  | flipAssertion =>
      refine .then fun flips => ?_
      split
      · exact .pure (length_flipAssertion _ _)
      · exact .pure rfl
  | markBoundary => exact .pure rfl

omit [WordSource σ] in
theorem lineageRoot_naming_derive (id tag : String) :
    Yields (naming (·.derive id tag) : Breeding σ String)
      fun id' => lineageRoot id' = lineageRoot id :=
  .naming fun ids => ids.lineageRoot_derive id tag

theorem descendsFrom_mutate (h : t.DescendsFrom strategy seed) :
    Yields (mutate t : Breeding σ TestCase) fun child => child.DescendsFrom strategy seed := by
  refine .then fun k => .bind (length_mutateText _ t) fun text hlength => ?_
  exact .bind (lineageRoot_naming_derive t.id mutantTag) fun id hid =>
    .pure (h.childOf hid _ fun _ => hlength)

/-- Each of two crossed children descends from the parent that it has its head from. -/
theorem descendsFrom_crossover (hcrosses : strategy.crosses = true)
    (h₁ : first.DescendsFrom strategy seed₁) (h₂ : second.DescendsFrom strategy seed₂) :
    Yields (crossover first second : Breeding σ (TestCase × TestCase)) fun children =>
      children.1.DescendsFrom strategy seed₁ ∧ children.2.DescendsFrom strategy seed₂ := by
  have hnot : ¬ strategy = .random := fun hrandom => by
    rw [hrandom] at hcrosses
    cases hcrosses
  refine .then fun point => ?_
  refine .bind (lineageRoot_naming_derive first.id crossTag) fun id₁ hid₁ => ?_
  refine .bind (lineageRoot_naming_derive second.id crossTag) fun id₂ hid₂ => ?_
  exact .pure ⟨h₁.childOf hid₁ _ fun hrandom => absurd hrandom hnot,
    h₂.childOf hid₂ _ fun hrandom => absurd hrandom hnot⟩

omit [WordSource σ] in
/-- So does what is stored for a child: the child, or a copy of its parent. -/
theorem descendsFrom_bounded {child : TestCase} {parent : Chromosome}
    (hchild : child.DescendsFrom strategy seed) (hparent : parent.test.DescendsFrom strategy seed)
    (maxRows : Nat) :
    Yields (naming (bounded maxRows child parent) : Breeding σ Chromosome)
      fun m => m.test.DescendsFrom strategy seed := by
  refine .naming fun ids => ?_
  unfold bounded
  split
  · exact hparent.copy ids
  · exact hchild

/-! ## A whole search -/

/-- A test descends from one of some seed tests. -/
def TestCase.IsDescendant (strategy : Strategy) (seeds : List TestCase) (t : TestCase) : Prop :=
  ∃ seed ∈ seeds, t.DescendsFrom strategy seed

theorem hereditary_isDescendant (config : Config) (seeds : List TestCase) :
    Hereditary σ config (TestCase.IsDescendant config.strategy seeds) where
  mutant population hsome h := by
    have hpick : Yields (drawing (below population.length) : Breeding σ Nat)
        fun k => k < population.length :=
      fun s => below_lt (List.length_pos_iff.mpr hsome) s.words
    refine hpick.bind fun k hk => ?_
    obtain ⟨seed, hseed, hparent⟩ := h _ (getD_mem hk)
    refine .bind (descendsFrom_mutate hparent) fun child hchild => ?_
    exact (descendsFrom_bounded hchild hparent _).mono fun m hm => ⟨seed, hseed, hm⟩
  crossed population pool hcross hpool h places := by
    obtain ⟨hcrosses, htwo⟩ := (Bool.and_eq_true _ _).mp hcross
    have hpicks : Yields (drawing (pair pool) : Breeding σ (Nat × Nat))
        fun picks => picks.1 < pool ∧ picks.2 < pool :=
      fun s => pair_lt (of_decide_eq_true htwo) s.words
    refine hpicks.bind fun picks ⟨hi, hj⟩ => ?_
    obtain ⟨seed₁, hseed₁, hfirst⟩ := h _ (getD_mem (hi.trans_le hpool))
    obtain ⟨seed₂, hseed₂, hsecond⟩ := h _ (getD_mem (hj.trans_le hpool))
    refine .bind (descendsFrom_crossover hcrosses hfirst hsecond) fun children ⟨h₁, h₂⟩ => ?_
    refine .bind (descendsFrom_bounded h₁ hfirst _) fun c₁ hc₁ => ?_
    split
    · refine .bind (descendsFrom_bounded h₂ hsecond _) fun c₂ hc₂ => .pure ?_
      simpa using ⟨⟨seed₁, hseed₁, hc₁⟩, ⟨seed₂, hseed₂, hc₂⟩⟩
    · exact .pure (by simpa using ⟨seed₁, hseed₁, hc₁⟩)
  unscored _ _ heq := fun ⟨seed, hseed, h⟩ => ⟨seed, hseed, h.of_unscored_eq heq⟩

/-- A seed test of a class whose methods have no separator in their names begins a lineage. -/
theorem ClassInfo.lineageRoot_seedTests {c : ClassInfo}
    (hnames : ∀ m ∈ c.methods, lineageSeparator ∉ m.name.toList) (className methodName : String)
    (ids : IdSource) :
    ∀ t ∈ (c.seedTests className methodName ids).1, lineageRoot t.id = t.id := by
  have hstem : ∀ m ∈ c.methods, lineageSeparator ∉ ("test_" ++ m.name).toList := by
    intro m hm hmem
    rw [String.toList_append] at hmem
    exact List.not_mem_append (by decide) (hnames m hm) hmem
  have hlonger : ∀ m ∈ c.methods, ∀ suffix : String, lineageSeparator ∉ suffix.toList →
      lineageSeparator ∉ ("test_" ++ m.name ++ suffix).toList := by
    intro m hm suffix hsuffix hmem
    rw [String.toList_append] at hmem
    exact List.not_mem_append (hstem m hm) hsuffix hmem
  refine forall_mem_seedTests (fun m hm ids => ?_) (fun m hm e _ ids => ?_) (fun m hm ids => ?_) ids
  · exact ids.lineageRoot_fresh (hstem m hm)
  · exact ids.lineageRoot_fresh (hlonger m hm "_boundary" (by decide))
  · exact ids.lineageRoot_fresh (hlonger m hm "_exception" (by decide))

/-- The root of the name of a test is the name of one seed test and of no other, and the test
descends from a seed test of that name. -/
structure TestCase.IsRooted (strategy : Strategy) (seeds : List TestCase) (t : TestCase) : Prop where
  once : (seeds.map TestCase.id).count (lineageRoot t.id) = 1
  descends : t.IsDescendant strategy seeds

theorem TestCase.IsDescendant.isRooted {seeds : List TestCase}
    (hnodup : (seeds.map TestCase.id).Nodup) (h : t.IsDescendant strategy seeds) :
    t.IsRooted strategy seeds := by
  obtain ⟨seed, hseed, hdescends⟩ := h
  refine ⟨?_, seed, hseed, hdescends⟩
  rw [hdescends.root]
  exact List.count_eq_one_of_mem hnodup (List.mem_map_of_mem hseed)

/-! ## Mutants from the beginning -/

theorem mem_padPopulation {c : Config} {population : List Chromosome} {m : Chromosome}
    (h : m ∈ population) (missing : Nat) (s : Supply σ) :
    m ∈ (padPopulation c missing population s).1 := by
  induction missing generalizing population s with
  | zero => exact h
  | succ missing ih => exact ih (List.mem_append_left _ h) _

namespace Engine

variable {c : ClassInfo} {e : Engine}

/-- A search with too few seed tests starts with a mutant. -/
theorem exists_newcomer_start {words : UInt64 → σ} (hseeds : 0 < e.seedCount)
    (hfew : e.seedCount < e.config.populationSize) :
    ∃ m ∈ (e.start words).population, m.IsNewcomer := by
  have hlength : ((e.generator.seeds e.generator.classInfo.name anyName {}).1.map
      fun t => ({ test := t } : Chromosome)).length = e.seedCount := List.length_map _
  obtain ⟨missing, hmissing⟩ := Nat.exists_eq_succ_of_ne_zero (Nat.sub_ne_zero_of_lt hfew)
  rw [start_eq]
  dsimp only
  rw [if_neg, hlength, hmissing]
  · exact ⟨_, mem_padPopulation (List.mem_append_right _ List.mem_cons_self) missing _,
      newcomer_breedMutant _ _ _⟩
  · rw [List.isEmpty_iff_length_eq_zero, hlength]
    omega

/-- **Roots are faithful.** In a search over a class whose methods have no separator in their names,
whatever its configuration, its targets and its random words are: each test in the population or in
the archive, in any state that the search comes to and when it returns, has as the root of its name
the name of exactly one seed test of the class, and exercises what that seed test does. Where tests
are only mutated, it also has as many assertions as that seed test. -/
theorem lineage_roots_faithful (words : UInt64 → σ) (h : e.generator = c.generator)
    (hnames : ∀ m ∈ c.methods, lineageSeparator ∉ m.name.toList) :
    let seeds := (c.seedTests c.name anyName {}).1
    (∀ r, e.Reaches words r → ∀ t ∈ r.tests, t.IsRooted e.config.strategy seeds) ∧
      ∀ r, e.run words = some r → ∀ t ∈ r.tests, t.IsRooted e.config.strategy seeds := by
  intro seeds
  have hseeds : e.seedTests = seeds := by
    rw [seedTests, h]
    rfl
  have hroots : ∀ t ∈ e.seedTests, t.IsDescendant e.config.strategy seeds := by
    intro t ht
    rw [hseeds] at ht
    exact ⟨t, ht, c.lineageRoot_seedTests hnames _ _ _ t ht, rfl, rfl, rfl, rfl, fun _ => rfl⟩
  have hnodup : (seeds.map TestCase.id).Nodup := (c.issued_seedTests c.name anyName {}).nodup
  have hkind : Hereditary σ e.config (TestCase.IsDescendant e.config.strategy seeds) :=
    hereditary_isDescendant e.config seeds
  exact ⟨fun r hr t ht => (hr.forall_tests hkind hroots t ht).isRooted hnodup,
    fun r hrun t ht => (forall_tests_of_run hkind hroots hrun t ht).isRooted hnodup⟩

/-- A class with a method that has a result. -/
def lampClass : ClassInfo where
  name := "Lamp"
  package := ""
  methods := [⟨"isLit", [], "boolean", none⟩]
  fields := []

/-- A search for three tests of `lampClass` by mutation alone. -/
def lampSearch : Engine where
  config := { populationSize := 3, eliteSize := 1, mutationRate := 1, strategy := .random }
  seed := 0
  generator := lampClass.generator
  targets := []

/-- It starts with a mutant, which has one assertion as the seed tests have. -/
theorem lampSearch_roots_faithful :
    create lampClass.generator lampSearch.config lampSearch.targets = .ok lampSearch ∧
      (∀ m ∈ lampClass.methods, lineageSeparator ∉ m.name.toList) ∧
      lampSearch.Reaches zeroWords (lampSearch.start zeroWords) ∧
      ∃ t ∈ (lampSearch.start zeroWords).tests, IsDerived t.id ∧
        t.IsRooted .random (lampClass.seedTests lampClass.name anyName {}).1 ∧
        t.assertions.length = 1 := by
  have hfault : lampSearch.config.fault? = none := by decide +kernel
  have hnames : ∀ m ∈ lampClass.methods, lineageSeparator ∉ m.name.toList := by decide
  have hcount : lampSearch.seedCount = 2 := by decide +kernel
  have hone : ∀ seed ∈ (lampClass.seedTests lampClass.name anyName {}).1,
      seed.assertions.length = 1 := by decide +kernel
  have hreaches : lampSearch.Reaches zeroWords (lampSearch.start zeroWords) :=
    .entering (enters_start (c := lampClass) rfl (List.cons_ne_nil _ _))
  have hmutant : ∃ m ∈ (lampSearch.start zeroWords).population, m.IsNewcomer :=
    exists_newcomer_start (by rw [hcount]; decide) (by rw [hcount]; decide)
  obtain ⟨m, hm, hnewcomer⟩ := hmutant
  have ht : m.test ∈ (lampSearch.start zeroWords).tests := mem_tests_iff.mpr (.inl ⟨m, hm, rfl⟩)
  have hroots := lineage_roots_faithful (c := lampClass) (e := lampSearch) zeroWords rfl hnames
  have hrooted := hroots.1 _ hreaches m.test ht
  obtain ⟨seed, hseed, hdescends⟩ := hrooted.descends
  refine ⟨?_, hnames, hreaches, m.test, ht, hnewcomer.derived, hrooted, ?_⟩
  · rw [create, Config.validate, hfault]
    rfl
  · rw [hdescends.assertions rfl, hone seed hseed]

end Engine

end Testwright
