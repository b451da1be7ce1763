import Testwright.Proofs.Ids
import Testwright.Search.Engine

/-!
# The names of new tests

Seed tests have fresh names, children derived ones, and the copies that stand in for children with
too many rows derived ones too. Main statements: the tests that fill a population were all named
while it was filled (`issued_fillPlaces`), and so were the seed tests (`issued_seedTests`), so each
of them has a name that no other test has.
-/

namespace Testwright

open Testwright.Random IdSource

-- what is drawn is never evaluated here
attribute [local irreducible] patience

/-! ## Tags -/

/-- No tag of a derived name ends in a digit. -/
theorem isDigit_getLast?_of_mem_tags {tag : String} (h : tag ∈ [mutantTag, crossTag, copyTag]) :
    ∀ c ∈ tag.toList.getLast?, c.isDigit = false := by
  have hlast : tag.toList.getLast?.any Char.isDigit = false := by
    simp only [List.mem_cons, List.not_mem_nil, or_false] at h
    rcases h with rfl | rfl | rfl <;> decide
  intro c hc
  rw [Option.mem_def.mp hc] at hlast
  exact hlast

/-! ## Seed tests -/

namespace ClassInfo

variable (c : ClassInfo) (m : MethodInfo)

theorem issued_normalTest (ids : IdSource) :
    Issued ids (c.normalTest m ids).2 [(c.normalTest m ids).1.id] := issued_fresh ids _

theorem issued_boundaryTest (p : TypedName) (arguments : List String) (ids : IdSource) :
    Issued ids (c.boundaryTest m p arguments ids).2 [(c.boundaryTest m p arguments ids).1.id] :=
  issued_fresh ids _

theorem issued_exceptionTest (ids : IdSource) :
    Issued ids (c.exceptionTest m ids).2 [(c.exceptionTest m ids).1.id] := issued_fresh ids _

theorem issued_boundaryTests (cases : List (TypedName × List String)) (ids : IdSource) :
    Issued ids (c.boundaryTests m cases ids).2 ((c.boundaryTests m cases ids).1.map TestCase.id) := by
  induction cases generalizing ids with
  | nil => exact .none (Nat.le_refl _)
  | cons p rest ih => exact (c.issued_boundaryTest m p.1 p.2 ids).append (ih _)

theorem issued_methodTests (ids : IdSource) :
    Issued ids (c.methodTests m ids).2 ((c.methodTests m ids).1.map TestCase.id) := by
  have hnormal := c.issued_normalTest m ids
  have hboundary := c.issued_boundaryTests m m.boundaryCases (c.normalTest m ids).2
  have hexception := c.issued_exceptionTest m
    (c.boundaryTests m m.boundaryCases (c.normalTest m ids).2).2
  have h := (hnormal.append hboundary).append hexception
  simpa [methodTests] using h

theorem issued_testsOf (methods : List MethodInfo) (ids : IdSource) :
    Issued ids (c.testsOf methods ids).2 ((c.testsOf methods ids).1.map TestCase.id) := by
  induction methods generalizing ids with
  | nil => exact .none (Nat.le_refl _)
  | cons m rest ih =>
      have h := (c.issued_methodTests m ids).append (ih (c.methodTests m ids).2)
      simpa [testsOf] using h

/-- The seed tests of a class are named one after another. -/
theorem issued_seedTests (className methodName : String) (ids : IdSource) :
    Issued ids (c.seedTests className methodName ids).2
      ((c.seedTests className methodName ids).1.map TestCase.id) := by
  rw [seedTests]
  split
  · exact .none (Nat.le_refl _)
  · exact c.issued_testsOf _ ids

end ClassInfo

/-! ## Children that are too long -/

/-- A child that gives way to a copy of its parent takes its name with it: the copy has one of its
own. -/
theorem issued_bounded {s s' : IdSource} {child : TestCase} {rest : List String}
    (h : Issued s s' (child.id :: rest)) (maxRows : Nat) (parent : Chromosome) :
    Issued s (bounded maxRows child parent s').2
      ((bounded maxRows child parent s').1.test.id :: rest) := by
  unfold bounded
  split
  · have hcopy := issued_derive s' parent.test.id copyTag
      (isDigit_getLast?_of_mem_tags (by simp))
    exact ((h.sublist (List.sublist_cons_self _ _)).append hcopy).perm List.perm_append_comm
  · exact h

/-! ## Computations that take numbers -/

namespace Breeding

variable {σ α β : Type}

theorem run_bind (x : Breeding σ α) (f : α → Breeding σ β) (s : Supply σ) :
    (x >>= f).run s = (f (x.run s).1).run (x.run s).2 := rfl

/-- A computation that takes no number. -/
def KeepsIds (x : Breeding σ α) : Prop := ∀ s, (x.run s).2.ids = s.ids

theorem KeepsIds.pure (a : α) : KeepsIds (Pure.pure a : Breeding σ α) := fun _ => rfl

theorem KeepsIds.drawing (f : σ → α × σ) : KeepsIds (drawing f) := fun _ => rfl

theorem KeepsIds.bind {x : Breeding σ α} {f : α → Breeding σ β} (hx : KeepsIds x)
    (hf : ∀ a, KeepsIds (f a)) : KeepsIds (x >>= f) := by
  intro s
  rw [run_bind, hf, hx]

/-- A computation that makes the names in its result. -/
def Issues (x : Breeding σ α) (names : α → List String) : Prop :=
  ∀ s, Issued s.ids (x.run s).2.ids (names (x.run s).1)

theorem Issues.pure {a : α} {names : α → List String} (h : names a = []) :
    Issues (Pure.pure a : Breeding σ α) names := by
  intro s
  show Issued s.ids s.ids (names a)
  rw [h]
  exact .none (Nat.le_refl _)

/-- The names are those of the first part and some that the second part makes. -/
theorem Issues.bind {x : Breeding σ α} {f : α → Breeding σ β} {first : α → List String}
    {names : β → List String} (hx : Issues x first)
    (hf : ∀ a s, ∃ more, names ((f a).run s).1 = first a ++ more ∧
      Issued s.ids ((f a).run s).2.ids more) : Issues (x >>= f) names := by
  intro s
  obtain ⟨more, heq, hmore⟩ := hf (x.run s).1 (x.run s).2
  rw [run_bind, heq]
  exact (hx s).append hmore

theorem Issues.bind_of_keepsIds {x : Breeding σ α} {f : α → Breeding σ β}
    {names : β → List String} (hx : KeepsIds x) (hf : ∀ a, Issues (f a) names) :
    Issues (x >>= f) names := by
  intro s
  rw [run_bind, ← hx s]
  exact hf _ _

/-- The names of two tests, and of what stands in for the first of them. -/
theorem Issues.bind_naming {x : Breeding σ α} {f : α → IdSource → β × IdSource}
    {first : α → List String} {names : β → List String} (hx : Issues x first)
    (hf : ∀ a s s', Issued s s' (first a) → Issued s (f a s').2 (names (f a s').1)) :
    Issues (x >>= fun a => naming (f a)) names := fun s => hf _ _ _ (hx s)

end Breeding

open Breeding

variable {σ : Type} [WordSource σ]

/-! ## Mutants and crossed tests -/

theorem keepsIds_perturbLiteral (cs : List Char) :
    KeepsIds (perturbLiteral cs : Breeding σ (List Char)) := by
  unfold perturbLiteral
  extract_lets found
  split
  · exact .pure _
  · refine (KeepsIds.drawing _).bind fun k => (KeepsIds.drawing _).bind fun shift => ?_
    split <;> exact .pure _

theorem keepsIds_mutateText (m : Mutation) (t : TestCase) :
    KeepsIds (mutateText m t : Breeding σ (List Char × List String)) := by
  cases m with
  | perturbLiteral => exact (keepsIds_perturbLiteral _).bind fun _ => .pure _
  | flipAssertion =>
      refine (KeepsIds.drawing _).bind fun flips => ?_
      split <;> exact .pure _
  | markBoundary => exact .pure _

theorem issues_mutate (t : TestCase) :
    Issues (mutate t : Breeding σ TestCase) fun child => [child.id] := by
  refine .bind_of_keepsIds (.drawing _) fun k =>
    .bind_of_keepsIds (keepsIds_mutateText _ t) fun text s => ?_
  exact issued_derive s.ids t.id mutantTag (isDigit_getLast?_of_mem_tags (by simp))

theorem issues_crossover (first second : TestCase) :
    Issues (crossover first second : Breeding σ (TestCase × TestCase))
      fun children => [children.1.id, children.2.id] := by
  have hcut : KeepsIds (drawCut (min first.rowCount second.rowCount) : Breeding σ Nat) := by
    unfold drawCut
    split
    · exact .drawing _
    · exact .pure _
  refine .bind_of_keepsIds hcut fun point s => ?_
  have h1 := issued_derive s.ids first.id crossTag
    (isDigit_getLast?_of_mem_tags (by simp))
  have h2 := issued_derive (s.ids.derive first.id crossTag).2 second.id crossTag
    (isDigit_getLast?_of_mem_tags (by simp))
  exact h1.append h2

/-- The names of some members of a population. -/
def namesOf (members : List Chromosome) : List String := members.map fun m => m.test.id

theorem namesOf_append (first second : List Chromosome) :
    namesOf (first ++ second) = namesOf first ++ namesOf second := List.map_append

theorem perm_namesOf {first second : List Chromosome} (h : first.Perm second) :
    (namesOf first).Perm (namesOf second) := h.map _

theorem issues_breedMutant (maxRows : Nat) (population : List Chromosome) :
    Issues (breedMutant maxRows population : Breeding σ Chromosome) fun m => [m.test.id] :=
  .bind_of_keepsIds (.drawing _) fun _ =>
    (issues_mutate _).bind_naming fun _ _ _ h => issued_bounded h maxRows _

theorem issues_breedCrossed (maxRows : Nat) (population : List Chromosome) (pool places : Nat) :
    Issues (breedCrossed maxRows population pool places : Breeding σ (List Chromosome))
      namesOf := by
  refine .bind_of_keepsIds (.drawing _) fun picks s => ?_
  obtain ⟨i, j⟩ := picks
  have hchildren := issues_crossover (population.getD i default).test
    (population.getD j default).test s
  have hfirst := issued_bounded hchildren maxRows (population.getD i default)
  by_cases hplaces : 1 < places
  · -- both children are taken; the second may give way too
    have hboth := issued_bounded (hfirst.perm (.swap _ _ _)) maxRows (population.getD j default)
    simp only [run_bind, if_pos hplaces]
    exact hboth.perm (.swap _ _ _)
  · simp only [run_bind, if_neg hplaces]
    exact hfirst.sublist ((List.nil_sublist _).cons_cons _)

/-! ## Filling a population -/

/-- A mutant joins the members that a pass has made so far, or nothing does. -/
theorem issued_withMutant (maxRows : Nat) (population crossed : List Chromosome) (mutates : Bool)
    (s : Supply σ) :
    let withMutant : Breeding σ (List Chromosome) :=
      if mutates then do
        let mutant ← breedMutant maxRows population
        return crossed ++ [mutant]
      else return crossed
    ∃ more, namesOf (withMutant.run s).1 = namesOf crossed ++ more ∧
      Issued s.ids (withMutant.run s).2.ids more := by
  intro withMutant
  cases mutates with
  | true =>
      have hrun : withMutant.run s = (crossed ++ [((breedMutant maxRows population).run s).1],
          ((breedMutant maxRows population).run s).2) := rfl
      rw [hrun]
      refine ⟨[((breedMutant maxRows population).run s).1.test.id], ?_,
        issues_breedMutant maxRows population s⟩
      exact namesOf_append _ _
  | false => exact ⟨[], (List.append_nil _).symm, .none (Nat.le_refl _)⟩

theorem issues_breedPass (c : Config) (population : List Chromosome) (places : Nat) :
    Issues (breedPass c population places : Breeding σ (List Chromosome)) namesOf := by
  unfold breedPass
  extract_lets pool afterCrossing
  have hafter : ∀ crossed s, ∃ more, namesOf ((afterCrossing crossed).run s).1 =
      namesOf crossed ++ more ∧ Issued s.ids ((afterCrossing crossed).run s).2.ids more := by
    intro crossed s
    by_cases hmust : c.mustMutate pool = true
    · simp only [afterCrossing, if_pos hmust]
      exact issued_withMutant c.maxTestLength population crossed true s
    · simp only [afterCrossing, if_neg hmust]
      exact issued_withMutant c.maxTestLength population crossed
        (chance c.mutationRate s.words).1 ⟨(chance c.mutationRate s.words).2, s.ids⟩
  have hnone : Issues (pure [] : Breeding σ (List Chromosome)) namesOf := .pure rfl
  split
  · refine .bind_of_keepsIds (.drawing _) fun crosses => ?_
    split
    · exact (issues_breedCrossed _ _ _ _).bind hafter
    · exact hnone.bind hafter
  · exact hnone.bind hafter

theorem fillPlaces_zero (c : Config) (population added : List Chromosome) (fuel : Nat)
    (s : Supply σ) : fillPlaces c population fuel 0 added s = some (added.reverse, s) := by
  cases fuel <;> rfl

/-- The members that fill a population are named while it is filled. -/
theorem issued_fillPlaces {c : Config} {population : List Chromosome} {fuel places : Nat}
    {added filled : List Chromosome} {s s' : Supply σ} {start : IdSource}
    (hadded : Issued start s.ids (namesOf added))
    (h : fillPlaces c population fuel places added s = some (filled, s')) :
    Issued start s'.ids (namesOf filled) := by
  fun_induction fillPlaces c population fuel places added s with
  | case1 fuel added s =>
      cases h
      exact hadded.perm (perm_namesOf (List.reverse_perm added).symm)
  | case2 => cases h
  | case3 fuel places added s hplaces new rest hpass ih =>
      refine ih ?_ h
      have hnew := hadded.append (issues_breedPass c population places s)
      rw [hpass, ← namesOf_append] at hnew
      -- the pass puts its members before the others, last first
      exact hnew.perm (perm_namesOf
        (List.perm_append_comm.trans ((List.reverse_perm new).symm.append_right added)))

/-- The mutants that pad a population are named after the others. -/
theorem issued_padPopulation (c : Config) (missing : Nat) (population : List Chromosome)
    (s : Supply σ) {start : IdSource} (h : Issued start s.ids (namesOf population)) :
    Issued start (padPopulation c missing population s).2.ids
      (namesOf (padPopulation c missing population s).1) := by
  fun_induction padPopulation c missing population s with
  | case1 population s => exact h
  | case2 missing population s mutant rest hmutant ih =>
      apply ih
      have hnew := h.append (issues_breedMutant c.maxTestLength population s)
      rw [hmutant] at hnew
      rw [namesOf_append]
      exact hnew

end Testwright
