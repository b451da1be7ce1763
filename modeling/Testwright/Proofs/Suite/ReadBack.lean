import Testwright.Proofs.Search.Seeds
import Testwright.Proofs.Suite.Rendering

/-!
# Rendered tests read back

The test methods that are read off a rendered class are its tests, in their order: the class is
rendered with its tests indented, and a head is found in spite of that (`exists_finds_of_alike`).
Main statement: each seed test is read back under its name and with as many assertions as it has
(`HybridSuite.read_seedTests`).
-/

namespace Testwright

open Text Source

variable {t : TestCase} {l : List TestCase} {display body s r a b : List Char}

/-! ## The tests of a text -/

theorem namedTest_append (display title a r : List Char) :
    namedTest display title a ++ r = namedTest display title (a ++ r) := by
  simp [namedTest, displayHead, afterName]

/-- The body of a test is read up to the brace that closes it, and the assertions in it are
counted. -/
theorem TestCase.Shows.exists_unitOf (h : t.Shows display body)
    (hr : Alike (body ++ '\x7d' :: a) r) :
    ∃ u, unitOf ([t.id.toList], r) = some u ∧ u.name = t.id ∧
      u.assertionCount = t.assertions.length := by
  obtain ⟨body', a', rfl, hbody, -⟩ := hr.exists_split (by decide)
  have hnested := (Delimiters.nested_iff_of_alike hbody).mp h.isPiece.nested
  have hclose : closeAfter '\x7b' '\x7d' (body' ++ '\x7d' :: a') = some (body', a') :=
    (Delimiters.closeAfter_eq_some_iff (d := .braces)).mpr ⟨rfl, hnested⟩
  have hcount : (assertionCall.findAll body').length = t.assertions.length := by
    rw [length_assertionCalls, calledAssertions, ← callees_eq_of_alike hbody]
    exact h.assertions
  refine ⟨testUnit t.id.toList body', ?_, String.ofList_toList, hcount⟩
  rw [unitOf, hclose]
  rfl

/-- The head of a test is found after text without annotations, and then what is found after the
head. -/
theorem TestCase.Shows.exists_finds (h : t.Shows display body) (hs : '@' ∉ s)
    (hb : Alike (s ++ (t.code.toList ++ a)) b) :
    ∃ r, Alike (body ++ '\x7d' :: a) r ∧
      ∀ found, (∀ before, testHead.Finds before r found) →
        ∀ before, testHead.Finds before b (([t.id.toList], r) :: found) := by
  have hsign : isBlank '@' = false := by decide
  have hdisplay : ∀ x ∈ display, isBlank x = false := fun x hx => (h.display x hx).2.2
  have hclosed : ∀ x ∈ display, (x != ')') = true := fun x hx =>
    bne_iff_ne.mpr (h.display x hx).2.1
  have hcode : t.code.toList ++ a = namedTest display t.id.toList (body ++ '\x7d' :: a) := by
    rw [h.code, namedTest_append, List.append_assoc]
    rfl
  -- the texts are cut where the head begins
  obtain ⟨u, hu⟩ : ∃ u, namedTest display t.id.toList (body ++ '\x7d' :: a) = '@' :: u := ⟨_, rfl⟩
  rw [hcode, hu] at hb
  obtain ⟨s', u', rfl, hs', hu'⟩ := hb.exists_split hsign
  have hnamed := hu'.same '@'
  rw [← hu, namedTest_eq] at hnamed
  obtain ⟨g, r, heq, hg, hr⟩ := exists_spacedTest isGapped_namedTest hdisplay h.id hnamed
  refine ⟨r, hr, fun found hfound before => ?_⟩
  rw [heq]
  exact finds_testHead_append ((hs'.notMem_iff hsign).mp hs)
    (finds_spacedTest hg hclosed (isWordName_of_isPlainName h.id) hfound)

/-- The tests are found in their order, however the text is indented. -/
theorem exists_finds_of_alike (hl : ∀ t ∈ l, ∃ display body, t.Shows display body) (hs : '@' ∉ s)
    (hr : '@' ∉ r) (h : Alike (s ++ HybridSuite.joinedCodes l r) b) :
    ∃ found, (∀ before, testHead.Finds before b found) ∧
      (found.filterMap unitOf).map (fun u => (u.name, u.assertionCount)) =
        l.map fun t => (t.id, t.assertions.length) := by
  induction l generalizing s b with
  | nil =>
      have hnone : '@' ∉ s ++ r := List.not_mem_append hs hr
      exact ⟨[], fun _ => finds_testHead_of_notMem ((h.notMem_iff (by decide)).mp hnone), rfl⟩
  | cons t l ih =>
      obtain ⟨display, body, ht⟩ := hl t List.mem_cons_self
      have hbefore : '@' ∉ s ++ ['\n'] := List.not_mem_append hs (by decide)
      rw [HybridSuite.joinedCodes_cons, List.append_cons] at h
      obtain ⟨r', hr', hfirst⟩ := ht.exists_finds hbefore h
      obtain ⟨u, hu, hname, hcount⟩ := ht.exists_unitOf hr'
      -- the body stands before the tests that are left
      have hbody : '@' ∉ body ++ ['\x7d', '\n'] :=
        List.not_mem_append ht.isPiece.notMem (by decide)
      have hrest : Alike (body ++ ['\x7d', '\n'] ++ HybridSuite.joinedCodes l r) r' := by
        rwa [List.append_assoc]
      obtain ⟨found, hfound, hunits⟩ := ih (fun t ht => hl t (List.mem_cons_of_mem _ ht)) hbody hrest
      refine ⟨([t.id.toList], r') :: found, hfirst found hfound, ?_⟩
      rw [List.filterMap_cons_some hu, List.map_cons, List.map_cons, hunits, hname, hcount]

/-! ## The tests of a class -/

namespace ClassInfo

variable {c : ClassInfo}

theorem IsReadable.hasPlainNames (hc : c.IsReadable) : c.HasPlainNames where
  name := isWord_of_isPlainName hc.name
  package := hc.package

end ClassInfo

namespace HybridSuite

/-- The opening of a class holds one annotation, and not that of test methods. -/
theorem exists_opening_eq {s : HybridSuite} (h : s.classInfo.HasPlainNames) :
    ∃ a b, s.opening = a ++ "@B" ++ b ∧ '@' ∉ a.toList ∧ '@' ∉ b.toList := by
  have hsetUp : setUpHead = "\n\n    " ++ ("@B" ++ "eforeEach\n    void setUp() ") := by decide
  have hsign : '@' ∈ ClassInfo.callAndTag := by decide
  have hbefore : '@' ∉ (s.classInfo.classHead ++ "\x7b" ++ s.classInfo.targetField ++
      (";" ++ "\n\n    ")).toList :=
    ClassInfo.notMem_append (ClassInfo.notMem_append (ClassInfo.notMem_append
      (h.notMem_classHead hsign) (by decide)) (h.notMem_targetField hsign)) (by decide)
  have hbrace : '@' ∉ ("eforeEach\n    void setUp() " ++ "\x7b").toList := by simp
  have htarget : '@' ∉ ("\n        target " ++ "=").toList := by simp
  have hafter : '@' ∉ ("eforeEach\n    void setUp() " ++ "\x7b" ++ ("\n        target " ++ "=") ++
      s.classInfo.newTarget ++ (";" ++ "\n    ")).toList :=
    ClassInfo.notMem_append (ClassInfo.notMem_append (ClassInfo.notMem_append hbrace htarget)
      h.notMem_newTarget) (by decide)
  refine ⟨_, _, ?_, hbefore, hafter⟩
  rw [opening, hsetUp]
  simp only [String.append_assoc]

/-- **Rendered tests are read back.** -/
theorem units_render {s : HybridSuite} (h : s.classInfo.HasPlainNames)
    (hl : ∀ t ∈ l, ∃ display body, t.Shows display body) :
    (testUnits (s.render l)).map (fun u => (u.name, u.assertionCount)) =
      l.map fun t => (t.id, t.assertions.length) := by
  obtain ⟨a, b, hopening, ha, hb⟩ := exists_opening_eq h
  let before := 'B' :: (b.toList ++ ['\x7d', '\n'])
  let rest := before ++ ((renderTests l).toList ++ ['\x7d', '\n'])
  have htext : (s.render l).toList = a.toList ++ '@' :: rest := by
    simp [render_eq, hopening, rest, before]
  have hbefore : '@' ∉ before :=
    List.not_mem_cons_of_ne_of_not_mem (by decide) (List.not_mem_append hb (by decide))
  have halike : Alike (before ++ joinedCodes l ['\x7d', '\n']) rest :=
    (alike_renderTests l ['\x7d', '\n']).append_left before
  obtain ⟨found, hfound, hunits⟩ := exists_finds_of_alike hl hbefore (by decide) halike
  have hother : ¬ testTag.toList <+: '@' :: rest := by
    rintro ⟨u, hu⟩
    have hsecond : some 'T' = some 'B' := congrArg (fun cs => cs[1]?) hu
    exact absurd hsecond (by decide)
  have hall : testHead.Finds none (s.render l).toList found := by
    rw [htext]
    exact finds_testHead_append ha
      (.skip (fails_testHead_of_not_tag hother) (hfound (some '@')))
  rw [testUnits_of_finds hall, hunits]

variable (className methodName : String) (ids : IdSource)

/-- **Seed tests are read back.** The test methods of a class that is rendered with seed tests have
their names and as many assertions as they have, one after another, and the method that each was
written for is read off its code. -/
theorem read_seedTests {s : HybridSuite} (h : s.classInfo.IsReadable) :
    (testUnits (s.render (s.classInfo.seedTests className methodName ids).1)).map
        (fun u => (u.name, u.assertionCount)) =
      (s.classInfo.seedTests className methodName ids).1.map
        (fun t => (t.id, t.assertions.length)) ∧
    ∀ t ∈ (s.classInfo.seedTests className methodName ids).1,
      targetMethod t.code.toList = t.targetMethod := by
  have hshows := ClassInfo.exists_shows_of_mem_seedTests h className methodName ids
  refine ⟨units_render h.hasPlainNames hshows, fun t ht => ?_⟩
  obtain ⟨display, body, ht⟩ := hshows t ht
  exact ht.targetMethod_code

/-- A class with a method whose arguments hold braces and quotes, and one without a result. -/
def shelf : ClassInfo where
  name := "Shelf"
  package := "shop.stock"
  methods :=
    [{ name := "label"
       parameters := [⟨"mark", "char"⟩, ⟨"sizes", "int[]"⟩, ⟨"notes", "List<String>"⟩]
       returnType := "String"
       body := none },
     { name := "clear", parameters := [], returnType := "void", body := none }]
  fields := []

theorem isReadable_shelf : shelf.IsReadable where
  name := by decide
  not_assertion := by decide
  package := by decide
  methods := by
    have hlabel : MethodInfo.IsReadable
        { name := "label"
          parameters := [⟨"mark", "char"⟩, ⟨"sizes", "int[]"⟩, ⟨"notes", "List<String>"⟩]
          returnType := "String"
          body := none } :=
      ⟨by decide, by decide, by decide, by decide, by decide +kernel⟩
    have hclear : MethodInfo.IsReadable
        { name := "clear", parameters := [], returnType := "void", body := none } :=
      ⟨by decide, by decide, by decide, by decide, by decide⟩
    exact List.forall_mem_cons.mpr ⟨hlabel, List.forall_mem_singleton.mpr hclear⟩

/-- The suite of this class. -/
def shelfSuite : HybridSuite where
  classInfo := shelf
  config := { seed := some 1 }
  external := []

theorem shelfSuite_reads_back :
    (testUnits (shelfSuite.render (shelf.seedTests "Shelf" anyName ⟨1⟩).1)).map
        (fun u => (u.name, u.assertionCount)) =
      [("test_label_1", 1), ("test_label_boundary_2", 1), ("test_label_boundary_3", 1),
        ("test_label_boundary_4", 1), ("test_label_boundary_5", 1), ("test_label_exception_6", 1),
        ("test_clear_7", 0), ("test_clear_exception_8", 1)] ∧
    ∀ t ∈ (shelf.seedTests "Shelf" anyName ⟨1⟩).1, targetMethod t.code.toList = t.targetMethod := by
  have hread := read_seedTests "Shelf" anyName ⟨1⟩ (s := shelfSuite) isReadable_shelf
  refine ⟨hread.1.trans ?_, hread.2⟩
  decide +kernel

end HybridSuite

end Testwright
