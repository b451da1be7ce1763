import Testwright.Proofs.Search.Perturbation
import Testwright.Proofs.Search.Progress

/-!
# Assertions and their list

A test is in step when the assertion names of its code are those of its list of assertions, entry by
entry; entries without such a name may stand between them. Main statement:
`mutation_keeps_in_step`, which says that all mutants of such a test are in step, whatever is drawn,
and that two flips restore the code and the list.
-/

namespace Testwright

open Text Testwright.Random Breeding

-- what is drawn is never evaluated here
attribute [local irreducible] patience

variable {cs u v n o : List Char} {f : Found} {assertions : List String}

/-! ## The names of assertions -/

/-- The names of assertions with an opposite in a text, in their order. -/
def assertionNames (cs : List Char) : List (List Char) :=
  (assertionName.findAll cs).map Found.text

/-- The name of an assertion with an opposite. -/
def isFlippable (w : List Char) : Bool :=
  (oppositeAssertions.map (·.1)).contains (String.ofList w)

theorem readsWords_flippable :
    (Pattern.anyOf (oppositeAssertions.map (·.1))).ReadsWords isFlippable :=
  Pattern.readsWords_anyOf (by decide)

theorem assertionNames_eq (cs : List Char) :
    assertionNames cs = Pattern.selectedWords isFlippable cs :=
  readsWords_flippable.texts_findAll cs

theorem assertionNames_append (h : Parted u.getLast? v) :
    assertionNames (u ++ v) = assertionNames u ++ assertionNames v := by
  simp only [assertionNames_eq, Pattern.selectedWords_append h]

/-- The first name of a text stands alone, after a text without names. -/
theorem find_assertionName_iff : assertionName.find cs = some f ↔
    cs = f.skipped ++ (f.text ++ f.rest) ∧ isFlippable f.text = true ∧ f.captures = [] ∧
      assertionNames f.skipped = [] ∧ (∀ x ∈ f.skipped.getLast?, isWord x = false) ∧
        ∀ x ∈ f.rest.head?, isWord x = false := by
  rw [assertionNames_eq]
  exact readsWords_flippable.find_eq_some_iff

theorem assertionNames_of_find_eq_none (h : assertionName.find cs = none) :
    assertionNames cs = [] := by
  rw [assertionNames_eq]
  exact readsWords_flippable.find_eq_none_iff.mp h

theorem assertionNames_of_find (h : assertionName.find cs = some f) :
    assertionNames cs = f.text :: assertionNames f.rest := by
  obtain ⟨hcs, hname, -, hnone, hskipped, hrest⟩ := find_assertionName_iff.mp h
  rw [assertionNames_eq] at hnone ⊢
  rw [hcs, readsWords_flippable.selectedWords_around hname hskipped hrest, hnone,
    assertionNames_eq]
  rfl

/-- Where the first name of a text gives way to another one, that is the first name. -/
theorem find_assertionName_replaced (h : assertionName.find cs = some f)
    (ho : isFlippable o = true) :
    assertionName.find (f.skipped ++ o ++ f.rest) = some { f with text := o } := by
  obtain ⟨-, -, hcaptures, hstands⟩ := find_assertionName_iff.mp h
  exact find_assertionName_iff.mpr ⟨List.append_assoc _ _ _, ho, hcaptures, hstands⟩

/-! ## Opposites -/

/-- An assertion is the opposite of its opposite. -/
theorem opposite_opposite {name opposite : String} (h : oppositeAssertion name = some opposite) :
    oppositeAssertion opposite = some name := by
  have hall : ∀ p ∈ oppositeAssertions, oppositeAssertion p.2 = some p.1 := by decide
  obtain ⟨l, r, hl, -⟩ := List.lookup_eq_some_iff.mp h
  exact hall (name, opposite) (by rw [hl]; simp)

theorem isFlippable_of_opposite {name opposite : String}
    (h : oppositeAssertion name = some opposite) : isFlippable opposite.toList = true := by
  have hall : ∀ p ∈ oppositeAssertions, isFlippable p.2.toList = true := by decide
  obtain ⟨l, r, hl, -⟩ := List.lookup_eq_some_iff.mp h
  exact hall (name, opposite) (by rw [hl]; simp)

/-- Each of the names has an opposite. -/
theorem exists_opposite (h : isFlippable n = true) :
    ∃ opposite, oppositeAssertion (String.ofList n) = some opposite := by
  have hall : ∀ name ∈ oppositeAssertions.map (·.1), (oppositeAssertion name).isSome = true := by
    decide
  exact Option.isSome_iff_exists.mp (hall _ (List.contains_iff_mem.mp h))

/-! ## Entries of the list -/

/-- The first assertion name in an entry. -/
def entryName (entry : String) : Option (List Char) :=
  (assertionName.find entry.toList).map Found.text

theorem beginsWith_eq (name : List Char) (entry : String) :
    beginsWith name entry = (entryName entry).any (· == name) := by
  rw [beginsWith, entryName, Option.any_map]

/-- The entry with another name in the place of its first one. -/
def renamed (name : List Char) (entry : String) : String :=
  String.ofList (assertionName.replaceOne name entry.toList)

theorem entryName_renamed {entry : String} (h : entryName entry = some n)
    (ho : isFlippable o = true) : entryName (renamed o entry) = some o := by
  obtain ⟨f, hf, -⟩ := Option.map_eq_some_iff.mp h
  rw [entryName, renamed, String.toList_ofList, Pattern.replaceOne, hf]
  dsimp only
  rw [find_assertionName_replaced hf ho]
  rfl

/-- An entry that is renamed and gets its name back is as it was. -/
theorem renamed_renamed {entry : String} (h : entryName entry = some n)
    (ho : isFlippable o = true) : renamed n (renamed o entry) = entry := by
  obtain ⟨f, hf, rfl⟩ := Option.map_eq_some_iff.mp h
  have hback := find_assertionName_replaced hf ho
  have hcs := (find_assertionName_iff.mp hf).1
  simp only [renamed, String.toList_ofList, Pattern.replaceOne, hf, hback]
  rw [List.append_assoc, ← hcs, String.ofList_toList]

theorem replaceFirstEntry_append {α : Type} {p : α → Bool} {g : α → α} {l r : List α} {a : α}
    (hl : ∀ b ∈ l, p b = false) (ha : p a = true) :
    replaceFirstEntry p g (l ++ a :: r) = l ++ g a :: r := by
  induction l with
  | nil => rw [List.nil_append, replaceFirstEntry, if_pos ha, List.nil_append]
  | cons b l ih =>
      obtain ⟨hb, hl⟩ := List.forall_mem_cons.mp hl
      rw [List.cons_append, replaceFirstEntry, if_neg (Bool.eq_false_iff.mp hb), ih hl]
      rfl

/-! ## Tests in step -/

/-- The names in a code are the first names of the entries that have one, in the same order. -/
def NamesAgree (cs : List Char) (assertions : List String) : Prop :=
  assertionNames cs = assertions.filterMap entryName

/-- The code of a test and its list of assertions have the same names. -/
def TestCase.InStep (t : TestCase) : Prop := NamesAgree t.code.toList t.assertions

instance (t : TestCase) : Decidable t.InStep := inferInstanceAs (Decidable (_ = _))

/-! ## Turning an assertion into its opposite -/

/-- The second code and its list have the first name of the first ones replaced, at the same place
in the list as in the names of the code. -/
structure Turns (n o cs cs' : List Char) (assertions assertions' : List String) : Prop where
  code : ∃ f, assertionName.find cs = some f ∧ f.text = n ∧ cs' = f.skipped ++ o ++ f.rest
  list : ∃ l entry r, assertions = l ++ entry :: r ∧ (∀ e ∈ l, entryName e = none) ∧
    entryName entry = some n ∧ assertions' = l ++ renamed o entry :: r

namespace Turns

variable {cs' : List Char} {assertions' : List String}

theorem names (h : Turns n o cs cs' assertions assertions') (ho : isFlippable o = true) :
    ∃ rest, assertionNames cs = n :: rest ∧ assertionNames cs' = o :: rest := by
  obtain ⟨f, hf, rfl, rfl⟩ := h.code
  exact ⟨_, assertionNames_of_find hf,
    assertionNames_of_find (find_assertionName_replaced hf ho)⟩

theorem entryNames (h : Turns n o cs cs' assertions assertions') (ho : isFlippable o = true) :
    ∃ rest, assertions.filterMap entryName = n :: rest ∧
      assertions'.filterMap entryName = o :: rest := by
  obtain ⟨l, entry, r, rfl, hl, hentry, rfl⟩ := h.list
  refine ⟨r.filterMap entryName, ?_, ?_⟩
  · rw [List.filterMap_append, List.filterMap_eq_nil_iff.mpr hl, List.filterMap_cons_some hentry]
    rfl
  · rw [List.filterMap_append, List.filterMap_eq_nil_iff.mpr hl,
      List.filterMap_cons_some (entryName_renamed hentry ho)]
    rfl

/-- Both stay in step. -/
theorem namesAgree (h : Turns n o cs cs' assertions assertions') (ho : isFlippable o = true)
    (hagree : NamesAgree cs assertions) : NamesAgree cs' assertions' := by
  obtain ⟨rest, hcs, hcs'⟩ := h.names ho
  obtain ⟨rest', hlist, hlist'⟩ := h.entryNames ho
  rw [NamesAgree, hcs, hlist] at hagree
  rw [NamesAgree, hcs', hlist', (List.cons.inj hagree).2]

theorem length_eq (h : Turns n o cs cs' assertions assertions') :
    assertions'.length = assertions.length := by
  obtain ⟨l, entry, r, rfl, -, -, rfl⟩ := h.list
  simp

/-- What was turned can be turned back. -/
theorem symm (h : Turns n o cs cs' assertions assertions') (ho : isFlippable o = true) :
    Turns o n cs' cs assertions' assertions where
  code := by
    obtain ⟨f, hf, rfl, rfl⟩ := h.code
    refine ⟨_, find_assertionName_replaced hf ho, rfl, ?_⟩
    rw [(find_assertionName_iff.mp hf).1, List.append_assoc]
  list := by
    obtain ⟨l, entry, r, rfl, hl, hentry, rfl⟩ := h.list
    exact ⟨l, renamed o entry, r, rfl, hl, entryName_renamed hentry ho,
      by rw [renamed_renamed hentry ho]⟩

/-- The flip of an assertion is determined by its name. -/
theorem flipAssertion_eq (h : Turns n o cs cs' assertions assertions')
    (hopposite : oppositeAssertion (String.ofList n) = some (String.ofList o)) :
    flipAssertion cs assertions = (cs', assertions') := by
  obtain ⟨f, hf, rfl, rfl⟩ := h.code
  obtain ⟨l, entry, r, rfl, hl, hentry, rfl⟩ := h.list
  have hfirst : firstAssertion cs = some (f, o) := by
    rw [firstAssertion, hf, Option.bind_some, hopposite, Option.map_some, String.toList_ofList]
  have hnot : ∀ e ∈ l, beginsWith f.text e = false := fun e he => by
    rw [beginsWith_eq, hl e he]
    rfl
  have hbegins : beginsWith f.text entry = true := by
    rw [beginsWith_eq, hentry]
    exact beq_self_eq_true f.text
  rw [flipAssertion, hfirst]
  dsimp only
  rw [replaceFirstEntry_append hnot hbegins]
  rfl

end Turns

/-- A test in step has an entry for the first name of its code. -/
theorem exists_turns (hagree : NamesAgree cs assertions) (hf : assertionName.find cs = some f)
    (o : List Char) :
    ∃ assertions', Turns f.text o cs (f.skipped ++ o ++ f.rest) assertions assertions' := by
  rw [NamesAgree, assertionNames_of_find hf] at hagree
  obtain ⟨l, entry, r, hlist, hl, hentry, -⟩ := List.filterMap_eq_cons_iff.mp hagree.symm
  exact ⟨_, ⟨f, hf, rfl, rfl⟩, ⟨l, entry, r, hlist, hl, hentry, rfl⟩⟩

/-- In a test in step, a flip turns the first name into its opposite, in the code and in the entry
that belongs to it. -/
theorem flipAssertion_cases (hagree : NamesAgree cs assertions) :
    (assertionNames cs = [] ∧ flipAssertion cs assertions = (cs, assertions)) ∨
      ∃ n o, oppositeAssertion (String.ofList n) = some (String.ofList o) ∧
        isFlippable o = true ∧
          Turns n o cs (flipAssertion cs assertions).1 assertions
            (flipAssertion cs assertions).2 := by
  cases hf : assertionName.find cs with
  | none =>
      refine .inl ⟨assertionNames_of_find_eq_none hf, ?_⟩
      rw [flipAssertion, firstAssertion, hf]
      rfl
  | some f =>
      have hname := (find_assertionName_iff.mp hf).2.1
      obtain ⟨opposite, hopposite⟩ := exists_opposite hname
      have hname' := isFlippable_of_opposite hopposite
      rw [← String.ofList_toList (s := opposite)] at hopposite
      obtain ⟨assertions', hturns⟩ := exists_turns hagree hf opposite.toList
      refine .inr ⟨f.text, opposite.toList, hopposite, hname', ?_⟩
      rw [hturns.flipAssertion_eq hopposite]
      exact hturns

/-! ## The other mutations -/

/-- Numbers are no names of assertions. -/
theorem isFlippable_of_isNumber {w : List Char} (h : isNumber w = true) :
    isFlippable w = false := by
  have hall : ∀ name ∈ oppositeAssertions.map (·.1), isNumber name.toList = false := by decide
  refine Bool.eq_false_iff.mpr fun hname => ?_
  have hnot := hall _ (List.contains_iff_mem.mp hname)
  rw [String.toList_ofList, h] at hnot
  cases hnot

theorem ShiftsLiteral.assertionNames_eq {cs' d : List Char} {k : Int64} {shift : Int}
    (h : ShiftsLiteral cs cs' u d v k shift) : assertionNames cs' = assertionNames cs := by
  obtain ⟨hcs, hcs'⟩ := h.wordsOf_eq
  have hd := isFlippable_of_isNumber h.stands_alone.1
  have hd' := isFlippable_of_isNumber
    (isNumber_toDigits (saturate (k.toInt + shift)).natAbs)
  simp only [Testwright.assertionNames_eq, Pattern.selectedWords, hcs, hcs', List.filter_append,
    List.filter_cons, hd, hd', Bool.false_eq_true, if_false]

theorem assertionNames_markBoundary (cs : List Char) :
    assertionNames (markBoundary cs) = assertionNames cs := by
  rw [markBoundary]
  split
  · rfl
  rcases replaceFirst_cases actMarker.toList boundaryMarker.toList cs with
    hsame | ⟨u, v, rfl, hmarked⟩
  · rw [hsame]
  -- both texts can be cut before the last word of the marker
  have hcut : ∀ rest, Parted (u ++ "// ".toList).getLast? rest := fun rest => .inl fun x hx => by
    rw [List.getLast?_append] at hx
    cases hx
    decide
  have hcut' : ∀ rest, Parted "Act - boundary test\n    // ".toList.getLast? rest := fun rest =>
    .inl fun x hx => by
      cases hx
      decide
  have hcomment : assertionNames "Act - boundary test\n    // ".toList = [] := by decide
  calc assertionNames (replaceFirst actMarker.toList boundaryMarker.toList _)
    _ = assertionNames ((u ++ "// ".toList) ++
          ("Act - boundary test\n    // ".toList ++ ("Act".toList ++ v))) := by
        rw [hmarked, List.append_assoc]
        rfl
    _ = assertionNames ((u ++ "// ".toList) ++ ("Act".toList ++ v)) := by
        rw [assertionNames_append (hcut _), assertionNames_append (hcut' _), hcomment,
          assertionNames_append (hcut _)]
        rfl
    _ = assertionNames (u ++ (actMarker.toList ++ v)) := by
        rw [List.append_assoc]
        rfl

/-! ## All mutations -/

variable {σ : Type} [WordSource σ]

theorem run_mutateText_flip (t : TestCase) (s : Supply σ) :
    ((mutateText .flipAssertion t).run s).1 = (t.code.toList, t.assertions) ∨
      ((mutateText .flipAssertion t).run s).1 = flipAssertion t.code.toList t.assertions := by
  unfold mutateText
  dsimp only
  rw [run_bind]
  split
  · exact .inr rfl
  · exact .inl rfl

theorem namesAgree_mutateText (m : Mutation) {t : TestCase} (ht : t.InStep) (s : Supply σ) :
    let mutated := ((mutateText m t).run s).1
    NamesAgree mutated.1 mutated.2 ∧ mutated.2.length = t.assertions.length := by
  intro mutated
  cases m with
  | perturbLiteral =>
      refine ⟨?_, rfl⟩
      show assertionNames ((perturbLiteral t.code.toList).run s).1 = _
      rcases perturbLiteral_cases t.code.toList s with ⟨hsame, -⟩ | ⟨u, d, v, n, shift, hshifts⟩
      · rw [hsame]
        exact ht
      · rw [hshifts.assertionNames_eq]
        exact ht
  | flipAssertion =>
      rcases run_mutateText_flip t s with hsame | hflipped
      · rw [show mutated = _ from hsame]
        exact ⟨ht, rfl⟩
      · rw [show mutated = _ from hflipped]
        rcases flipAssertion_cases ht with ⟨-, hsame⟩ | ⟨n, o, -, ho, hturns⟩
        · rw [hsame]
          exact ⟨ht, rfl⟩
        · exact ⟨hturns.namesAgree ho ht, hturns.length_eq⟩
  | markBoundary => exact ⟨(assertionNames_markBoundary _).trans ht, rfl⟩

/-- **Mutation keeps code and assertions in step.** Whatever is drawn, a mutant of a test in step is
in step and has as many assertions. A flip turns the first name into its opposite, in the code and
in the list, leaves all other names, and is undone by a second one. -/
theorem mutation_keeps_in_step (t : TestCase) (ht : t.InStep) :
    (∀ (m : Mutation) (s : Supply σ), let mutant := ((mutateBy m t).run s).1
      mutant.InStep ∧ mutant.assertions.length = t.assertions.length) ∧
      let once := flipAssertion t.code.toList t.assertions
      flipAssertion once.1 once.2 = (t.code.toList, t.assertions) ∧
        ∀ n names, assertionNames t.code.toList = n :: names →
          ∃ o, oppositeAssertion (String.ofList n) = some (String.ofList o) ∧
            assertionNames once.1 = o :: names ∧ once.2.filterMap entryName = o :: names := by
  refine ⟨fun m s => ?_, ?_⟩
  · intro mutant
    obtain ⟨hagree, hlength⟩ := namesAgree_mutateText m ht s
    refine ⟨?_, hlength⟩
    show NamesAgree (String.ofList ((mutateText m t).run s).1.1).toList _
    rw [String.toList_ofList]
    exact hagree
  · intro once
    rcases flipAssertion_cases ht with ⟨hnone, hsame⟩ | ⟨n, o, hopposite, ho, hturns⟩
    · refine ⟨by rw [show once = _ from hsame, hsame], fun n names hnames => ?_⟩
      rw [hnone] at hnames
      cases hnames
    · have hback : oppositeAssertion (String.ofList o) = some (String.ofList n) :=
        opposite_opposite hopposite
      refine ⟨(hturns.symm ho).flipAssertion_eq hback, fun n' names hnames => ?_⟩
      obtain ⟨rest, hcs, honce⟩ := hturns.names ho
      rw [hcs] at hnames
      obtain ⟨rfl, rfl⟩ := List.cons.inj hnames
      exact ⟨o, hopposite, honce, (hturns.namesAgree ho ht).symm.trans honce⟩

/-- A test with two assertions, and an entry between them that is none. -/
def comparingTest : TestCase where
  id := "test_compare_1"
  kind := .methodCall
  code := "assertTrue(a.isEmpty());\n    assertNull(b);"
  targetMethod := "compare"
  targetClass := "Comparison"
  assertions := ["assertTrue(a.isEmpty())", "verify(c)", "assertNull(b)"]

theorem comparing_flips_back :
    let once := flipAssertion comparingTest.code.toList comparingTest.assertions
    once = ("assertFalse(a.isEmpty());\n    assertNull(b);".toList,
      ["assertFalse(a.isEmpty())", "verify(c)", "assertNull(b)"]) ∧
      flipAssertion once.1 once.2 = (comparingTest.code.toList, comparingTest.assertions) ∧
        ∀ (m : Mutation) (s : Supply Zeros), ((mutateBy m comparingTest).run s).1.InStep := by
  have hstep : comparingTest.InStep := by decide +kernel
  have hkept : (∀ (m : Mutation) (s : Supply Zeros), _) ∧ _ :=
    mutation_keeps_in_step comparingTest hstep
  exact ⟨by decide +kernel, hkept.2.1, fun m s => (hkept.1 m s).1⟩

end Testwright
