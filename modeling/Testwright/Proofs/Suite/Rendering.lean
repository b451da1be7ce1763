import Testwright.Proofs.Search.Stopping
import Testwright.Proofs.Source.Declarations
import Testwright.Proofs.Suite.Assembly

/-!
# The methods of a rendered suite

A test is rendered with its code indented, which changes the white space only. So a test class
declares what the class without tests declares, and then what the codes of its tests declare, one
after another (`declaredNames_render`). The filter of a suite compares signatures, and these leave
out the names of methods: main statement `names_distinct_iff`, when the methods of the class have
different names.
-/

namespace Testwright

open Text Source

/-! ## Indented code -/

namespace HybridSuite

variable {s : HybridSuite} {l : List TestCase} {u u' : List Char}

theorem alike_indentRow (row : List Char) (hu : beginsBlank u = true) (h : Alike u u') :
    Alike ('\n' :: (row ++ u)) ('\n' :: (indentRow row ++ u')) := by
  rw [indentRow]
  split
  · rename_i hblank
    exact .same '\n' (h.append_blank (List.all_eq_true.mp hblank) hu)
  · rw [List.append_assoc]
    exact @Alike.gap ['\n'] ('\n' :: "    ".toList) _ _ (by decide)
      (List.all_eq_true.mp (by decide)) (by decide) (List.all_eq_true.mp (by decide))
      (h.append_left row)

theorem alike_indentRow_dropReturn (row : List Char) (hu : beginsBlank u = true)
    (h : Alike u u') : Alike ('\n' :: (row ++ u)) ('\n' :: (indentRow (dropReturn row) ++ u')) := by
  rcases dropReturn_cases row with heq | heq
  · rw [heq]
    exact alike_indentRow row hu h
  · -- the carriage return is one more white space before the line feed
    have hreturn : row ++ u = dropReturn row ++ '\r' :: u := by
      nth_rewrite 1 [← heq]
      simp
    rw [hreturn]
    exact alike_indentRow _ rfl (h.cons_blank (by decide) hu)

theorem alike_indentRows (rs : List (List Char)) (hu : beginsBlank u = true) (h : Alike u u') :
    Alike (feedRows rs ++ u) (feedRows (rs.map fun r => indentRow (dropReturn r)) ++ u') := by
  induction rs with
  | nil => exact h
  | cons r rest ih =>
      have hrest : beginsBlank (feedRows rest ++ u) = true := by
        cases rest with
        | nil => exact hu
        | cons _ _ => rfl
      have hall := alike_indentRow_dropReturn r hrest ih
      simpa [feedRows] using hall

/-- Between line feeds, indented code differs from the code in its white space only. -/
theorem alike_indent (code : String) {r r' : List Char} (hr : Alike r r') :
    Alike ('\n' :: (code.toList ++ '\n' :: r)) ('\n' :: ((indent code).toList ++ '\n' :: r')) := by
  obtain ⟨init, last, hrows⟩ : ∃ init last, rows code.toList = init ++ [last] :=
    ⟨_, _, (List.dropLast_append_getLast (splitRows_ne_nil [] code.toList)).symm⟩
  have hcode : '\n' :: code.toList = feedRows init ++ '\n' :: last := by
    rw [← joinRows_rows code.toList, hrows, feed_joinRows (by simp)]
    simp [feedRows]
  have hindent : (indent code).toList = joinRows
      ((init.map dropReturn ++ if last = [] then [] else [last]).map indentRow) := by
    rw [indent, String.toList_ofList, lines, hrows]
    simp
  have hrow : ∀ rs : List (List Char), rs ≠ [] →
      '\n' :: (joinRows rs ++ '\n' :: r') = feedRows rs ++ '\n' :: r' := by
    intro rs hrs
    rw [← List.cons_append, feed_joinRows hrs]
  have hfeed : Alike ('\n' :: r) ('\n' :: r') := .same '\n' hr
  rw [← List.cons_append, hcode, List.append_assoc, List.cons_append, hindent]
  by_cases hlast : last = []
  · rw [if_pos hlast, List.append_nil, List.map_map, hlast, List.nil_append]
    have hfeeds : Alike ('\n' :: '\n' :: r) ('\n' :: r') := hfeed.cons_blank (by decide) rfl
    by_cases hinit : init = []
    · rw [hinit]
      exact .same '\n' hfeed
    · rw [hrow _ (by simpa using hinit)]
      exact alike_indentRows init rfl hfeeds
  · rw [if_neg hlast, hrow _ (by simp)]
    have hall := alike_indentRows init rfl (alike_indentRow last rfl hfeed)
    simpa [feedRows, Function.comp_def] using hall

/-! ## The text of the class -/

end HybridSuite

namespace ClassInfo

/-- The package of the test class, if the class has one. -/
def packageClause (c : ClassInfo) : String :=
  if c.package.isEmpty then "" else "package " ++ c.package ++ ";\n\n"

/-- What stands before the brace of the test class. -/
def classHead (c : ClassInfo) : String :=
  c.packageClause ++ HybridSuite.imports ++ "public class " ++ c.name ++ "Test "

/-- The field of the test class. -/
def targetField (c : ClassInfo) : String := "\n\n    private " ++ c.name ++ " target"

/-- What the field is set to. -/
def newTarget (c : ClassInfo) : String := " new " ++ c.name ++ "()"

end ClassInfo

namespace HybridSuite

variable {s : HybridSuite} {l : List TestCase}

/-- The tests of the class, each between line feeds. -/
def renderTests (l : List TestCase) : String :=
  String.join (l.map fun t => "\n" ++ indent t.code ++ "\n")

theorem toList_renderTests_cons (t : TestCase) (l : List TestCase) (r : List Char) :
    (renderTests (t :: l)).toList ++ r =
      '\n' :: ((indent t.code).toList ++ '\n' :: ((renderTests l).toList ++ r)) := by
  simp [renderTests, String.join_cons]

/-- The codes of the tests, each between line feeds. -/
def joinedCodes (l : List TestCase) (r : List Char) : List Char :=
  l.flatMap (fun t => '\n' :: (t.code.toList ++ ['\n'])) ++ r

theorem joinedCodes_cons (t : TestCase) (l : List TestCase) (r : List Char) :
    joinedCodes (t :: l) r = '\n' :: (t.code.toList ++ '\n' :: joinedCodes l r) := by
  simp [joinedCodes]

/-- The tests of the class differ from their codes in their white space only. -/
theorem alike_renderTests (l : List TestCase) (r : List Char) :
    Alike (joinedCodes l r) ((renderTests l).toList ++ r) := by
  induction l with
  | nil => exact .refl r
  | cons t l ih =>
      rw [joinedCodes_cons, toList_renderTests_cons]
      exact alike_indent t.code ih

/-- The head of the method that is called before each test, with the annotation before it. -/
def setUpHead : String := "\n\n    @BeforeEach\n    void setUp() "

/-- The class up to the closing brace before its first test, divided at characters that no
declaration holds. -/
def opening (s : HybridSuite) : String :=
  s.classInfo.classHead ++ "\x7b" ++ s.classInfo.targetField ++ ";" ++ setUpHead ++ "\x7b" ++
    "\n        target " ++ "=" ++ s.classInfo.newTarget ++ ";" ++ "\n    "

/-- The tests stand between two closing braces. -/
theorem render_eq (s : HybridSuite) (l : List TestCase) :
    s.render l = s.opening ++ "\x7d\n" ++ renderTests l ++ "\x7d\n" := by
  have hclass : "Test \x7b\n\n    private " = "Test " ++ ("\x7b" ++ "\n\n    private ") := by decide
  have hfield : " target;\n\n" = " target" ++ (";" ++ "\n\n") := by decide
  have hmethod : "    @BeforeEach\n    void setUp() \x7b\n        target = new " =
      "    @BeforeEach\n    void setUp() " ++
        ("\x7b" ++ ("\n        target " ++ ("=" ++ " new "))) := by
    decide
  have hbody : "();\n    \x7d\n" = "()" ++ (";" ++ ("\n    " ++ "\x7d\n")) := by decide
  have hsetUp : setUpHead = "\n\n" ++ "    @BeforeEach\n    void setUp() " := by decide
  delta render opening renderTests ClassInfo.classHead ClassInfo.packageClause
    ClassInfo.targetField ClassInfo.newTarget
  rw [hclass, hfield, hmethod, hbody, hsetUp]
  simp only [String.append_assoc]

/-! ## The methods of the class -/

/-- An indented test declares what its code declares. -/
theorem declaredNames_indent {t : TestCase} (h : Closes t.code.toList) (r : List Char) :
    declaredNames ('\n' :: ((indent t.code).toList ++ '\n' :: r)) =
      declaredNames t.code.toList ++ declaredNames r := by
  rw [← declaredNames_eq_of_alike (alike_indent t.code (.refl r)), declaredNames_cons (by decide),
    h.declaredNames_append fun x hx => ?_, declaredNames_cons (by decide)]
  cases hx
  decide

theorem declaredNames_tests (h : ∀ t ∈ l, Closes t.code.toList) (r : List Char) :
    declaredNames ((renderTests l).toList ++ r) =
      (l.flatMap fun t => declaredNames t.code.toList) ++ declaredNames r := by
  induction l with
  | nil => rfl
  | cons t rest ih =>
      rw [toList_renderTests_cons, declaredNames_indent (h t List.mem_cons_self),
        ih fun u hu => h u (List.mem_cons_of_mem t hu), List.flatMap_cons, List.append_assoc]

theorem declaredNames_render_eq (h : ∀ t ∈ l, Closes t.code.toList) :
    declaredNames (s.render l).toList =
      declaredNames s.opening.toList ++ l.flatMap fun t => declaredNames t.code.toList := by
  have htext : (s.render l).toList = s.opening.toList ++ '\x7d' :: '\n' ::
      ((renderTests l).toList ++ '\x7d' :: ['\n']) := by
    simp [render_eq]
  have hlast : declaredNames ('\x7d' :: ['\n']) = [] := declaredNames_of_paren_notMem (by decide)
  rw [htext, declaredNames_append_of_stop isDeclarationChar_brace, declaredNames_cons (by decide),
    declaredNames_tests h, hlast, List.append_nil]

/-- Without tests the class declares what its opening does. -/
theorem declaredNames_render_nil_eq (s : HybridSuite) :
    declaredNames (s.render []).toList = declaredNames s.opening.toList := by
  have hnone : ∀ t ∈ ([] : List TestCase), Closes t.code.toList := by simp
  rw [declaredNames_render_eq hnone, List.flatMap_nil, List.append_nil]

/-- The class declares what it declares without tests, and then what the codes of the tests
declare. -/
theorem declaredNames_render (h : ∀ t ∈ l, Closes t.code.toList) :
    declaredNames (s.render l).toList =
      declaredNames (s.render []).toList ++ l.flatMap fun t => declaredNames t.code.toList := by
  rw [declaredNames_render_eq h, declaredNames_render_nil_eq]

end HybridSuite

/-! ## The class without tests -/

namespace ClassInfo

/-- The name of the class is a word, and that of its package consists of words with dots between
them. -/
structure HasPlainNames (c : ClassInfo) : Prop where
  name : ∀ x ∈ c.name.toList, isWord x = true
  package : ∀ x ∈ c.package.toList, isWord x = true ∨ x = '.'

variable {c : ClassInfo}

/-- Characters that stand in no name: the parenthesis of calls and the sign of annotations. -/
def callAndTag : List Char := ['(', '@']

variable {x : Char}

theorem isWord_of_mem_callAndTag : ∀ x ∈ callAndTag, isWord x = false := by decide

theorem HasPlainNames.notMem_name (h : c.HasPlainNames) (hx : x ∈ callAndTag) :
    x ∉ c.name.toList := by
  intro hmem
  have hword := h.name x hmem
  rw [isWord_of_mem_callAndTag x hx] at hword
  cases hword

theorem notMem_append {a b : String} (ha : x ∉ a.toList) (hb : x ∉ b.toList) :
    x ∉ (a ++ b).toList := by
  rw [String.toList_append, List.mem_append, not_or]
  exact ⟨ha, hb⟩

theorem HasPlainNames.notMem_packageClause (h : c.HasPlainNames) (hx : x ∈ callAndTag) :
    x ∉ c.packageClause.toList := by
  have hbefore : ∀ x ∈ callAndTag, x ∉ "package ".toList := by decide
  have hafter : ∀ x ∈ callAndTag, x ∉ ";\n\n".toList := by decide
  have hpackage : x ∉ c.package.toList := by
    intro hmem
    rcases h.package x hmem with hword | rfl
    · rw [isWord_of_mem_callAndTag x hx] at hword
      cases hword
    · exact absurd hx (by decide)
  rw [packageClause]
  split
  · exact List.not_mem_nil
  · exact notMem_append (notMem_append (hbefore x hx) hpackage) (hafter x hx)

theorem notMem_imports (hx : x ∈ callAndTag) : x ∉ HybridSuite.imports.toList := by
  have hall : ∀ x ∈ callAndTag, x ∉ HybridSuite.imports.toList := by
    delta HybridSuite.imports
    simp only [String.toList_append, List.mem_append, not_or]
    simp [callAndTag]
  exact hall x hx

theorem HasPlainNames.notMem_classHead (h : c.HasPlainNames) (hx : x ∈ callAndTag) :
    x ∉ c.classHead.toList := by
  have hclass : ∀ x ∈ callAndTag, x ∉ "public class ".toList := by decide
  have hend : ∀ x ∈ callAndTag, x ∉ "Test ".toList := by decide
  exact notMem_append (notMem_append (notMem_append (notMem_append (h.notMem_packageClause hx)
    (notMem_imports hx)) (hclass x hx)) (h.notMem_name hx)) (hend x hx)

theorem HasPlainNames.notMem_targetField (h : c.HasPlainNames) (hx : x ∈ callAndTag) :
    x ∉ c.targetField.toList := by
  have hbefore : ∀ x ∈ callAndTag, x ∉ "\n\n    private ".toList := by decide
  have hafter : ∀ x ∈ callAndTag, x ∉ " target".toList := by decide
  exact notMem_append (notMem_append (hbefore x hx) (h.notMem_name hx)) (hafter x hx)

theorem HasPlainNames.notMem_newTarget (h : c.HasPlainNames) : '@' ∉ c.newTarget.toList :=
  notMem_append (notMem_append (by decide) (h.notMem_name (by decide))) (by decide)

theorem HasPlainNames.declaredNames_classHead (h : c.HasPlainNames) :
    declaredNames c.classHead.toList = [] :=
  declaredNames_of_paren_notMem (h.notMem_classHead (by decide))

theorem HasPlainNames.declaredNames_targetField (h : c.HasPlainNames) :
    declaredNames c.targetField.toList = [] :=
  declaredNames_of_paren_notMem (h.notMem_targetField (by decide))

theorem HasPlainNames.declaredNames_newTarget (h : c.HasPlainNames) :
    declaredNames c.newTarget.toList = [] := by
  have hnew : c.newTarget.toList =
      ' ' :: 'n' :: 'e' :: 'w' :: ' ' :: (c.name.toList ++ ['(', ')']) := by
    simp [newTarget]
  rw [hnew]
  iterate 5 rw [declaredNames_cons (by decide)]
  -- a declaration has white space after its type
  refine declaredNames_of_forall_not_blank fun x hx => ?_
  rcases List.mem_append.mp hx with hx | hx
  · exact isBlank_of_isWord (h.name x hx)
  · rcases List.mem_pair.mp hx with rfl | rfl <;> decide

end ClassInfo

namespace HybridSuite

variable {s : HybridSuite} {l : List TestCase}

set_option maxRecDepth 8000 in
theorem declaredNames_setUpHead : declaredNames setUpHead.toList = ["setUp"] := by decide

/-- Without tests a class declares the method that is called before each test. -/
theorem declaredNames_render_nil (h : s.classInfo.HasPlainNames) :
    declaredNames (s.render []).toList = ["setUp"] := by
  have htarget : declaredNames "\n        target ".toList = [] :=
    declaredNames_of_paren_notMem (by decide)
  have hend : declaredNames "\n    ".toList = [] := declaredNames_of_paren_notMem (by decide)
  have hbrace : isDeclarationChar '\x7b' = false := by decide
  have hsemicolon : isDeclarationChar ';' = false := by decide
  have hequals : isDeclarationChar '=' = false := by decide
  rw [declaredNames_render_nil_eq, opening, declaredNames_append_stop hsemicolon rfl,
    declaredNames_append_stop hequals rfl, declaredNames_append_stop hbrace rfl,
    declaredNames_append_stop hsemicolon rfl, declaredNames_append_stop hbrace rfl,
    h.declaredNames_classHead, h.declaredNames_targetField, declaredNames_setUpHead, htarget,
    h.declaredNames_newTarget, hend]
  rfl

end HybridSuite

/-- The code of a test declares one method, and comes to an end with it. -/
structure TestCase.Declares (t : TestCase) (n : String) : Prop where
  names : declaredNames t.code.toList = [n]
  closes : Closes t.code.toList

namespace HybridSuite

variable {s : HybridSuite} {l : List TestCase} {name : TestCase → String}

/-- The class declares the methods of its tests in their order. -/
theorem declaredNames_render_of_declares (h : ∀ t ∈ l, t.Declares (name t)) :
    declaredNames (s.render l).toList = declaredNames (s.render []).toList ++ l.map name := by
  have hnames : ∀ rest : List TestCase, (∀ t ∈ rest, t.Declares (name t)) →
      (rest.flatMap fun t => declaredNames t.code.toList) = rest.map name := by
    intro rest hrest
    induction rest with
    | nil => rfl
    | cons t rest ih =>
        rw [List.flatMap_cons, List.map_cons, (hrest t List.mem_cons_self).names,
          ih fun u hu => hrest u (List.mem_cons_of_mem t hu)]
        rfl
  rw [declaredNames_render fun t ht => (h t ht).closes, hnames l h]

/-- Among tests with different signatures, names are different when each belongs to one of
them. -/
theorem nodup_names_iff (hsignatures : (l.map TestCase.signature).Nodup) :
    (l.map name).Nodup ↔ ∀ t ∈ l, ∀ u ∈ l, name t = name u → t.signature = u.signature := by
  constructor
  · intro hnames t ht u hu heq
    rw [List.inj_on_of_nodup_map hnames ht hu heq]
  · intro hsame
    have htests : l.Nodup := hsignatures.of_map
    refine htests.map_on fun t ht u hu heq => ?_
    exact List.inj_on_of_nodup_map hsignatures ht hu (hsame t ht u hu heq)

/-- **When the methods of a test class have different names.** Let each of the tests that are
returned declare one method. Then the class declares their methods, in this order, after what it
declares without them. Those names are pairwise different exactly when no two returned tests with
different signatures declare the same one: the filter does not see to it, since a signature does not
hold the name. Unless the name of the class could be taken for a declaration, all names in the class
are different exactly when, besides, no test declares the method that is called before each test. -/
theorem names_distinct_iff (h : s.tests = .ok (some l)) (hname : ∀ t ∈ l, t.Declares (name t)) :
    declaredNames (s.render l).toList = declaredNames (s.render []).toList ++ l.map name ∧
      ((l.map name).Nodup ↔
        ∀ t ∈ l, ∀ u ∈ l, name t = name u → t.signature = u.signature) ∧
      (s.classInfo.HasPlainNames → ((declaredNames (s.render l).toList).Nodup ↔
        (∀ t ∈ l, name t ≠ "setUp") ∧
          ∀ t ∈ l, ∀ u ∈ l, name t = name u → t.signature = u.signature)) := by
  obtain ⟨e, r, -, -, rfl⟩ := exists_run_of_tests h
  have hsignatures := nodup_keys_distinctFrom TestCase.signature {}
    (r.archive.tests ++ s.externalTests)
  have hrender := declaredNames_render_of_declares (s := s) hname
  have hiff := @nodup_names_iff _ name hsignatures
  refine ⟨hrender, hiff, fun hplain => ?_⟩
  rw [hrender, declaredNames_render_nil hplain, List.singleton_append, List.nodup_cons]
  exact and_congr (by simp) hiff

/-! ## Two tests of one name -/

/-- A search over a class without methods adds no test to those that were written elsewhere. -/
theorem tests_of_methods_eq_nil (hmethods : s.classInfo.methods = [])
    (hvalid : s.config.validate = .ok ()) :
    s.tests = .ok (some (dropRedundant s.externalTests)) := by
  obtain ⟨e, hclass⟩ : ∃ e, Engine.ofClass s.classInfo s.config = .ok e := by
    rw [Engine.ofClass, Engine.create, hvalid]
    exact ⟨_, rfl⟩
  have hgenerator : e.generator = s.classInfo.generator := by
    obtain ⟨-, rfl⟩ := Engine.ofClass_eq_ok hclass
    rfl
  have hempty : (e.start (Random.Stream.ofStage e.seed)).population = [] :=
    (Engine.population_start_eq_nil_iff hgenerator).mpr hmethods
  have hevolve : e.evolve = some ((e.start (Random.Stream.ofStage e.seed)).stop .empty) := by
    rw [Engine.evolve, Engine.run_eq_ite, hempty]
    rfl
  rw [tests, hclass]
  show Except.ok (Option.map _ e.evolve) = _
  rw [hevolve, Option.map_some]
  show Except.ok (some (dropRedundant ((e.start _).archive.tests ++ _))) = _
  rw [Engine.archive_start]
  rfl

theorem signature_externalTest (s : HybridSuite) (code : String) (ids : IdSource) :
    (s.externalTest code ids).1.signature =
      targetMethod code.toList ++ ":" ++ String.ofList (normalCode code.toList) := rfl

/-- A test that adds two numbers. -/
def addingTest (name second : String) : String :=
  "@Test\nvoid " ++ name ++ "() \x7b\n    target.add(1, " ++ second ++ ");\n" ++ "\x7d"

/-- A suite over a class without methods, with two tests that were written elsewhere. -/
def addingSuite (first second : String) : HybridSuite where
  classInfo := { name := "Counter", package := "", methods := [], fields := [] }
  config := { seed := some 1 }
  external := [addingTest first "2", addingTest second "3"]

/-- Both tests are returned when their codes differ in more than their names. -/
theorem tests_addingSuite {first second : String}
    (hcode : normalCode (addingTest first "2").toList ≠ normalCode (addingTest second "3").toList)
    (hcalls : firstCaptures methodCall (addingTest first "2").toList =
      firstCaptures methodCall (addingTest second "3").toList) :
    (addingSuite first second).tests = .ok (some (addingSuite first second).externalTests) := by
  have hvalid : (addingSuite first second).config.validate = .ok () := by
    have hfault : Config.fault? { seed := some 1 } = none := by decide +kernel
    rw [addingSuite, Config.validate, hfault]
  let s := addingSuite first second
  have hdifferent : ∀ ids ids', (s.externalTest (addingTest first "2") ids).1.signature ≠
      (s.externalTest (addingTest second "3") ids').1.signature := by
    intro ids ids'
    rw [signature_externalTest, signature_externalTest, targetMethod, targetMethod, methodCalls,
      methodCalls, hcalls]
    exact fun heq => hcode (String.ofList_injective ((String.append_right_inj _).mp heq))
  rw [tests_of_methods_eq_nil rfl hvalid, dropRedundant, distinct_eq_self]
  exact List.nodup_cons.mpr ⟨fun hmem => hdifferent _ _ (List.mem_singleton.mp hmem),
    List.nodup_singleton _⟩

/-- Two tests with the same name and different codes are both written into the class. -/
theorem addingSuite_declares_twice :
    ∃ l, (addingSuite "adds" "adds").tests = .ok (some l) ∧ (∀ t ∈ l, t.Declares "adds") ∧
      ¬ (declaredNames ((addingSuite "adds" "adds").render l).toList).Nodup := by
  have hdeclares : ∀ t ∈ (addingSuite "adds" "adds").externalTests, t.Declares "adds" := by
    have hfirst : declaredNames (addingTest "adds" "2").toList = ["adds"] := by decide +kernel
    have hsecond : declaredNames (addingTest "adds" "3").toList = ["adds"] := by decide +kernel
    intro t ht
    rcases List.mem_pair.mp ht with rfl | rfl
    · exact ⟨hfirst, closes_append_brace _⟩
    · exact ⟨hsecond, closes_append_brace _⟩
  refine ⟨_, tests_addingSuite (by decide +kernel) (by decide +kernel), hdeclares, ?_⟩
  rw [declaredNames_render_of_declares hdeclares, List.nodup_append]
  rintro ⟨-, hnames, -⟩
  exact absurd hnames (by decide)

/-- Under different names they leave the class without a clash. -/
theorem addingSuite_declares_once :
    ∃ l, (addingSuite "addsTwo" "addsThree").tests = .ok (some l) ∧
      (declaredNames ((addingSuite "addsTwo" "addsThree").render l).toList).Nodup := by
  let name : TestCase → String := fun t => (declaredNames t.code.toList).headD ""
  have htests : (addingSuite "addsTwo" "addsThree").tests =
      .ok (some (addingSuite "addsTwo" "addsThree").externalTests) :=
    tests_addingSuite (by decide +kernel) (by decide +kernel)
  have hdeclares : ∀ t ∈ (addingSuite "addsTwo" "addsThree").externalTests,
      t.Declares (name t) := by
    have hnames : ∀ t ∈ (addingSuite "addsTwo" "addsThree").externalTests,
        declaredNames t.code.toList = [name t] := by decide +kernel
    intro t ht
    refine ⟨hnames t ht, ?_⟩
    rcases List.mem_pair.mp ht with rfl | rfl
    · exact closes_append_brace _
    · exact closes_append_brace _
  have hnodup : ((addingSuite "addsTwo" "addsThree").externalTests.map name).Nodup := by
    decide +kernel
  have hother : ∀ t ∈ (addingSuite "addsTwo" "addsThree").externalTests, name t ≠ "setUp" := by
    decide +kernel
  have hplain : (addingSuite "addsTwo" "addsThree").classInfo.HasPlainNames :=
    ⟨List.all_eq_true.mp (by decide), fun _ hx => absurd hx List.not_mem_nil⟩
  obtain ⟨-, hsame, hclass⟩ := names_distinct_iff htests hdeclares
  exact ⟨_, htests, (hclass hplain).mpr ⟨hother, hsame.mp hnodup⟩⟩

end HybridSuite

end Testwright
