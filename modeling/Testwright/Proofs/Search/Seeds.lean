import Testwright.Proofs.Distinct
import Testwright.Proofs.Ids
import Testwright.Proofs.Source.Arguments
import Testwright.Proofs.Source.TestHead
import Testwright.Search.Seeds

/-!
# The texts of seed tests

A seed test is a named test method. Its body makes the object under test, calls the method, and
asserts what the test says that it asserts (`TestCase.Shows`). Main statements: this is so for all
seed tests of a class with plain names (`exists_shows_of_mem_seedTests`), and the method that is
read off the code of a test is the one that it was written for
(`TestCase.Shows.targetMethod_code`).
-/

namespace Testwright

open Text Source

/-! ## The kinds of seed tests -/

namespace ClassInfo

variable {c : ClassInfo} {className methodName : String} {P : TestCase → Prop}

theorem forall_mem_boundaryTests {m : MethodInfo} {cases : List (TypedName × List String)}
    (h : ∀ e ∈ cases, ∀ ids, P (c.boundaryTest m e.1 e.2 ids).1) (ids : IdSource) :
    ∀ t ∈ (c.boundaryTests m cases ids).1, P t := by
  induction cases generalizing ids with
  | nil => exact fun t ht => absurd ht List.not_mem_nil
  | cons e rest ih =>
      intro t ht
      rcases List.mem_cons.mp ht with rfl | ht
      · exact h e List.mem_cons_self ids
      · exact ih (fun e he => h e (List.mem_cons_of_mem _ he)) _ t ht

theorem forall_mem_testsOf {methods : List MethodInfo}
    (hnormal : ∀ m ∈ methods, ∀ ids, P (c.normalTest m ids).1)
    (hboundary : ∀ m ∈ methods, ∀ e ∈ m.boundaryCases, ∀ ids, P (c.boundaryTest m e.1 e.2 ids).1)
    (hexception : ∀ m ∈ methods, ∀ ids, P (c.exceptionTest m ids).1) (ids : IdSource) :
    ∀ t ∈ (c.testsOf methods ids).1, P t := by
  induction methods generalizing ids with
  | nil => exact fun t ht => absurd ht List.not_mem_nil
  | cons m rest ih =>
      have hm : m ∈ m :: rest := List.mem_cons_self
      intro t ht
      rcases List.mem_append.mp ht with ht | ht
      · rcases List.mem_append.mp ht with ht | ht
        · rcases List.mem_cons.mp ht with rfl | ht
          · exact hnormal m hm ids
          · exact forall_mem_boundaryTests (hboundary m hm) _ t ht
        · cases List.mem_singleton.mp ht
          exact hexception m hm _
      · exact ih (fun m hm => hnormal m (List.mem_cons_of_mem _ hm))
          (fun m hm => hboundary m (List.mem_cons_of_mem _ hm))
          (fun m hm => hexception m (List.mem_cons_of_mem _ hm)) _ t ht

/-- Every seed test is of one of three kinds. -/
theorem forall_mem_seedTests (hnormal : ∀ m ∈ c.methods, ∀ ids, P (c.normalTest m ids).1)
    (hboundary : ∀ m ∈ c.methods, ∀ e ∈ m.boundaryCases, ∀ ids,
      P (c.boundaryTest m e.1 e.2 ids).1)
    (hexception : ∀ m ∈ c.methods, ∀ ids, P (c.exceptionTest m ids).1) (ids : IdSource) :
    ∀ t ∈ (c.seedTests className methodName ids).1, P t := by
  rw [seedTests]
  split
  · exact fun t ht => absurd ht List.not_mem_nil
  · exact forall_mem_testsOf (fun m hm => hnormal m (List.mem_of_mem_filter hm))
      (fun m hm => hboundary m (List.mem_of_mem_filter hm))
      (fun m hm => hexception m (List.mem_of_mem_filter hm)) ids

end ClassInfo

/-! ## Names that can be read back -/

/-- The names of a method are plain, its types are written without parentheses, and it cannot be
taken for a call of the test itself. Plain names are made of word characters: a name with a dollar
sign is left out, since the patterns by which tests are read do not match it. -/
structure MethodInfo.IsReadable (m : MethodInfo) : Prop where
  name : isPlainName m.name.toList = true
  not_framework : isFrameworkCall m.name = false
  not_assertion : beginsInAnyCase assertLetters m.name.toList = false
  returnType : ∀ x ∈ m.returnType.toList, isSignatureChar x = true
  parameters : ∀ p ∈ m.parameters,
    isPlainName p.name.toList = true ∧ ∀ x ∈ p.type.toList, isSignatureChar x = true

/-- The names of a class are plain, and neither it nor its methods can be taken for assertions. Names
with a dollar sign are left out, as for methods. -/
structure ClassInfo.IsReadable (c : ClassInfo) : Prop where
  name : isPlainName c.name.toList = true
  not_assertion : beginsInAnyCase assertLetters c.name.toList = false
  package : ∀ x ∈ c.package.toList, isWord x = true ∨ x = '.'
  methods : ∀ m ∈ c.methods, m.IsReadable

/-- The code of a test is a test method with this display name and this body, and the test says what
the body calls. -/
structure TestCase.Shows (t : TestCase) (display body : List Char) : Prop where
  code : t.code.toList = namedTest display t.id.toList (body ++ ['\x7d'])
  display : ∀ x ∈ display, x ≠ '(' ∧ x ≠ ')' ∧ isBlank x = false
  id : isPlainName t.id.toList = true
  isPiece : IsPiece body
  assertions : (calledAssertions body).length = t.assertions.length
  target : ∃ before after, callees body = before ++ ⟨t.targetMethod.toList, true⟩ :: after ∧
    ∀ k ∈ before, k.dotted = false
  target_name : isFrameworkCall t.targetMethod = false

/-! ## The method that is called -/

namespace MethodInfo

variable {m : MethodInfo} {args : List String} {u r cs : List Char}

/-- A call of the method is found, and then what its arguments call. -/
theorem IsReadable.callees_call (hm : m.IsReadable) (hu : '(' ∉ u) (args : List String)
    (r : List Char) :
    callees (u ++ ((m.call args).toList ++ r)) =
      ⟨m.name.toList, true⟩ :: (callees (", ".intercalate args).toList ++ callees r) := by
  have htext : u ++ ((m.call args).toList ++ r) = (u ++ "target.".toList) ++
      (m.name.toList ++ '(' :: ((", ".intercalate args).toList ++ ')' :: r)) := by
    simp [call]
  have hbefore : '(' ∉ u ++ "target.".toList := List.not_mem_append hu (by decide)
  have hlast : (u ++ "target.".toList).getLast? = some '.' := by
    rw [List.getLast?_append]
    rfl
  rw [htext, callees_append_name hbefore hlast (by decide) hm.name,
    callees_append_stop (by decide)]
  rfl

theorem IsReadable.not_isAssertionName (hm : m.IsReadable) :
    isAssertionName m.name.toList = false := by
  rw [isAssertionName, hm.not_assertion]
  rfl

theorem IsReadable.calledAssertions_call (hm : m.IsReadable) (hu : '(' ∉ u)
    (hargs : ∀ v ∈ args, IsArgument v.toList) (r : List Char) :
    calledAssertions (u ++ ((m.call args).toList ++ r)) = calledAssertions r := by
  have harguments := (isArgument_intercalate hargs).calls
  rw [calledAssertions] at harguments
  rw [calledAssertions, hm.callees_call hu, List.filter_cons, hm.not_isAssertionName,
    if_neg Bool.false_ne_true, List.filter_append, harguments]
  rfl

theorem IsReadable.isPiece_call (hm : m.IsReadable) (hargs : ∀ v ∈ args, IsArgument v.toList) :
    IsPiece (m.call args).toList := by
  have hname : IsPiece m.name.toList := isPiece_of_isPlainName hm.name
  have htarget : IsPiece "target.".toList := by decide
  have hopen : IsPiece "(".toList := by decide
  have hclose : IsPiece ")".toList := by decide
  have harguments := (isArgument_intercalate hargs).toIsPiece
  simp only [call, String.toList_append]
  exact (((htarget.append hname).append hopen).append harguments).append hclose

theorem IsReadable.isArgument_defaults (hm : m.IsReadable) :
    ∀ v ∈ m.defaultArguments, IsArgument v.toList := by
  intro v hv
  obtain ⟨p, hp, rfl⟩ := List.mem_map.mp hv
  exact isArgument_defaultValue (hm.parameters p hp).2

theorem IsReadable.isArgument_nulls (hm : m.IsReadable) :
    ∀ v ∈ m.nullArguments, IsArgument v.toList := by
  intro v hv
  obtain ⟨p, hp, rfl⟩ := List.mem_map.mp hv
  split
  · exact isArgument_defaultValue (hm.parameters p hp).2
  · decide

theorem IsReadable.isArgument_boundary (hm : m.IsReadable) {e : TypedName × List String}
    (he : e ∈ m.boundaryCases) : e.1 ∈ m.parameters ∧ ∀ v ∈ e.2, IsArgument v.toList := by
  obtain ⟨⟨p, i⟩, hp, he⟩ := List.mem_flatMap.mp he
  obtain ⟨v, hv, rfl⟩ := List.mem_map.mp he
  refine ⟨(List.mem_zipIdx' hp).2 ▸ List.getElem_mem _, fun w hw => ?_⟩
  rcases List.mem_or_eq_of_mem_set hw with hw | rfl
  · exact hm.isArgument_defaults w hw
  · exact isArgument_of_mem_boundaryValues (List.mem_of_mem_take hv)

/-- What stands in a test of the method after the object under test was made: the method is called
first, and `n` assertions are. -/
structure IsAct (m : MethodInfo) (n : Nat) (cs : List Char) : Prop extends IsPiece cs where
  calls : ∃ before after, callees cs = before ++ ⟨m.name.toList, true⟩ :: after ∧
    ∀ k ∈ before, k.dotted = false
  assertions : (calledAssertions cs).length = n

/-- What stands before the assertion that is given the call of the method. -/
def actAndAssert : String := "    // Act & Assert\n    "

/-- An assertion that is given the call of the method. -/
def wrapped (w before : String) (call : String) : String :=
  actAndAssert ++ w ++ "(" ++ before ++ "() -> " ++ call ++ ");\n"

theorem toList_wrapped (w before call : String) :
    (wrapped w before call).toList = actAndAssert.toList ++ (w.toList ++ '(' ::
      (before.toList ++ '(' :: (") -> ".toList ++ (call.toList ++ ");\n".toList)))) := by
  have hopen : "(".toList = ['('] := rfl
  have hlambda : "() -> ".toList = '(' :: ") -> ".toList := rfl
  simp only [wrapped, String.toList_append, hopen, hlambda, List.append_assoc, List.cons_append,
    List.nil_append]

theorem IsReadable.isAct_wrapped (hm : m.IsReadable) (hargs : ∀ v ∈ args, IsArgument v.toList)
    (w before : String) (hname : isPlainName w.toList = true)
    (hassertion : isAssertionName w.toList = true) (hbefore : IsPiece before.toList)
    (hnone : '(' ∉ before.toList) (hcallee : calleeOf before.toList.reverse = none) :
    m.IsAct 1 (wrapped w before (m.call args)).toList := by
  have hhead : '(' ∉ actAndAssert.toList := by decide +kernel
  have hlast : actAndAssert.toList.getLast? = some ' ' := by decide +kernel
  have harrow : '(' ∉ ") -> ".toList := by decide
  have hend : calledAssertions ");\n".toList = [] := by decide
  have hcallees : callees (wrapped w before (m.call args)).toList =
      ⟨w.toList, false⟩ :: callees (") -> ".toList ++ ((m.call args).toList ++ ");\n".toList)) := by
    rw [toList_wrapped, callees_append_name hhead hlast (by decide) hname,
      callees_append_paren hnone, hcallee, Option.toList_none, List.nil_append]
    rfl
  have hpiece : IsPiece (wrapped w before (m.call args)).toList := by
    have hname : IsPiece w.toList := isPiece_of_isPlainName hname
    have hact : IsPiece actAndAssert.toList := by decide +kernel
    have hopen : IsPiece "(".toList := by decide
    have hlambda : IsPiece "() -> ".toList := by decide
    have hclose : IsPiece ");\n".toList := by decide
    simp only [wrapped, String.toList_append]
    exact (((((hact.append hname).append hopen).append hbefore).append hlambda).append
      (hm.isPiece_call hargs)).append hclose
  refine { toIsPiece := hpiece, calls := ?_, assertions := ?_ }
  · rw [hcallees, hm.callees_call harrow]
    exact ⟨[⟨w.toList, false⟩], _, rfl, fun k hk => by rw [List.mem_singleton.mp hk]⟩
  · have hrest := hm.calledAssertions_call harrow hargs ");\n".toList
    rw [hend, calledAssertions] at hrest
    rw [calledAssertions, hcallees, List.filter_cons, hassertion, if_pos rfl, hrest,
      List.length_singleton]

/-- What stands before the call in the statement that keeps its result. -/
theorem IsReadable.exists_actStatement (hm : m.IsReadable) :
    ∃ u, m.actStatement.toList = u ++ ((m.call m.defaultArguments).toList ++ [';']) ∧
      IsPiece u ∧ '(' ∉ u := by
  have hblank : IsPiece "    ".toList := by decide
  have hresult : IsPiece " result = ".toList := by decide
  have htype : IsPiece m.returnType.toList := isPiece_of_isSignatureChar hm.returnType
  have hparen : '(' ∉ m.returnType.toList := paren_notMem_of_isSignatureChar hm.returnType
  rw [actStatement]
  split
  · exact ⟨"    ".toList, by simp, hblank, by decide⟩
  · refine ⟨"    ".toList ++ (m.returnType.toList ++ " result = ".toList), by simp,
      hblank.append (htype.append hresult), ?_⟩
    simp [hparen]

/-- What follows the call in the test with the usual arguments. -/
def checks (m : MethodInfo) : String :=
  if (resultAssertion m.returnType).toList.isEmpty then ""
  else "\n    // Assert\n" ++
    String.join ((resultAssertion m.returnType).toList.map fun a => "    " ++ a ++ ";\n")

/-- As many assertions are called as the test says. -/
theorem IsReadable.checks (hm : m.IsReadable) : IsPiece m.checks.toList ∧
    (calledAssertions m.checks.toList).length = (resultAssertion m.returnType).toList.length := by
  cases hresult : resultAssertion m.returnType with
  | none =>
      have hchecks : m.checks = "" := by
        rw [MethodInfo.checks, hresult]
        rfl
      rw [hchecks]
      decide
  | some a =>
      have hcheck := isCheck_of_resultAssertion hm.returnType hresult
      obtain ⟨w, r, ha, hname, hassertion, hcalls⟩ := hcheck.call
      have hchecks : m.checks.toList =
          "\n    // Assert\n    ".toList ++ (a.toList ++ ";\n".toList) := by
        rw [MethodInfo.checks, hresult]
        simp
      have hhead : IsPiece "\n    // Assert\n    ".toList := by decide +kernel
      have hend : IsPiece ";\n".toList := by decide
      refine ⟨hchecks ▸ hhead.append (hcheck.toIsPiece.append hend), ?_⟩
      have hparen : '(' ∉ "\n    // Assert\n    ".toList := by decide +kernel
      have hlast : "\n    // Assert\n    ".toList.getLast? = some ' ' := by decide +kernel
      have hrest : calledAssertions (r ++ ";\n".toList) = [] := by
        show calledAssertions (r ++ ';' :: ['\n']) = []
        rw [calledAssertions_append_stop (by decide), hcalls]
        rfl
      rw [hchecks, ha, List.append_assoc, List.cons_append, calledAssertions,
        callees_append_name hparen hlast (by decide) hname, List.filter_cons, hassertion, if_pos rfl, ← calledAssertions, hrest]
      rfl

theorem IsReadable.isAct_normal (hm : m.IsReadable) :
    m.IsAct (resultAssertion m.returnType).toList.length
      ("    // Act\n" ++ m.actStatement ++ "\n" ++ m.checks).toList := by
  obtain ⟨u, hstatement, hu, hparen⟩ := hm.exists_actStatement
  obtain ⟨hpiece, hcount⟩ := hm.checks
  have hhead : IsPiece "    // Act\n".toList := by decide
  have hend : IsPiece [';'] := by decide
  have hfeed : IsPiece "\n".toList := by decide
  have hbefore : '(' ∉ "    // Act\n".toList ++ u := List.not_mem_append (by decide) hparen
  have htext : ("    // Act\n" ++ m.actStatement ++ "\n" ++ m.checks).toList =
      ("    // Act\n".toList ++ u) ++ ((m.call m.defaultArguments).toList ++
        (';' :: (['\n'] ++ m.checks.toList))) := by
    simp [hstatement]
  refine { toIsPiece := ?_, calls := ?_, assertions := ?_ }
  · simp only [String.toList_append, hstatement]
    exact ((hhead.append (hu.append ((hm.isPiece_call hm.isArgument_defaults).append
      hend))).append hfeed).append hpiece
  · rw [htext, hm.callees_call hbefore]
    exact ⟨[], _, rfl, fun k hk => absurd hk List.not_mem_nil⟩
  · rw [htext, hm.calledAssertions_call hbefore hm.isArgument_defaults,
      calledAssertions_cons_stop (by decide), calledAssertions_append_blank isGap_feed.blank,
      hcount]

end MethodInfo

/-! ## The text of a test -/

theorem isPlainName_fresh {stem : String} (h : isPlainName stem.toList = true) (ids : IdSource) :
    isPlainName (ids.fresh stem).1.toList = true := by
  have hdigits : ∀ x ∈ Nat.toDigits 10 ids.next, isWord x = true := fun x hx =>
    isWord_of_isDigit (isDigit_of_isAsciiDigit (isDigit_of_mem_toDigits hx))
  rw [IdSource.toList_fresh]
  exact isPlainName_append h (List.forall_mem_cons.mpr ⟨by decide, hdigits⟩)

namespace ClassInfo

variable {c : ClassInfo} {m : MethodInfo} {id displayName act : String} {assertions : List String}

/-- The comment that the body of a test begins with. -/
def arrangeTag : String := "\n    // Arrange\n    "

/-- What stands between the type of the object under test and the call that makes it. -/
def newTargetTag : String := " target = new "

/-- What stands in the body of a test before the method is called. -/
def arrangement (c : ClassInfo) : List Char :=
  arrangeTag.toList ++ (c.name.toList ++ (newTargetTag.toList ++ (c.name.toList ++
    '(' :: ')' :: ';' :: ['\n', '\n'])))

theorem toList_testHead (c : ClassInfo) (id displayName rest : String) :
    (c.testHead id displayName ++ rest).toList =
      namedTest ('"' :: (displayName.toList ++ ['"'])) id.toList
        (c.arrangement ++ rest.toList) := by
  have htags : "@Test\n@DisplayName(\"".toList =
      testTag.toList ++ '\n' :: (displayTag.toList ++ ['(', '"']) := rfl
  have htype : "\")\nvoid ".toList = '"' :: ')' :: '\n' :: (voidType.toList ++ [' ']) := rfl
  have hbrace : "() \x7b\n    // Arrange\n    ".toList =
      '(' :: ')' :: ' ' :: '\x7b' :: arrangeTag.toList := rfl
  have hend : "();\n\n".toList = '(' :: ')' :: ';' :: ['\n', '\n'] := rfl
  delta testHead
  simp only [arrangement, newTargetTag, namedTest, displayHead, afterName, String.toList_append,
    htags, htype, hbrace, hend, List.append_assoc, List.cons_append, List.nil_append]

theorem IsReadable.isPiece_arrangement (hc : c.IsReadable) : IsPiece c.arrangement := by
  have hname : IsPiece c.name.toList := isPiece_of_isPlainName hc.name
  have hhead : IsPiece arrangeTag.toList := by decide +kernel
  have hnew : IsPiece newTargetTag.toList := by decide +kernel
  have hend : IsPiece ('(' :: ')' :: ';' :: ['\n', '\n']) := by decide
  exact hhead.append (hname.append (hnew.append (hname.append hend)))

theorem IsReadable.callees_arrangement (hc : c.IsReadable) (cs : List Char) :
    callees (c.arrangement ++ cs) = ⟨c.name.toList, false⟩ :: callees cs := by
  have hname := isWord_of_isPlainName hc.name
  obtain ⟨u, hu⟩ : ∃ u, u = arrangeTag.toList ++ (c.name.toList ++ newTargetTag.toList) := ⟨_, rfl⟩
  have hlast : u.getLast? = some ' ' := by
    rw [hu, List.getLast?_append, List.getLast?_append]
    rfl
  have hparen : '(' ∉ u := by
    simp only [hu, List.mem_append, not_or]
    exact ⟨by decide +kernel, fun hmem => absurd (hname _ hmem) (by decide), by decide +kernel⟩
  have htext : c.arrangement ++ cs =
      u ++ (c.name.toList ++ '(' :: (')' :: ';' :: (['\n', '\n'] ++ cs))) := by
    simp only [arrangement, hu, List.append_assoc, List.cons_append, List.nil_append]
  rw [htext, callees_append_name hparen hlast (by decide) hc.name, callees_cons_stop (by decide),
    callees_cons_stop (by decide), callees_append_blank (by decide)]
  rfl

theorem IsReadable.shows (hc : c.IsReadable) (hm : m.IsReadable)
    (hid : isPlainName id.toList = true) (hdisplay : ∀ x ∈ displayName.toList, isWord x = true)
    (hact : m.IsAct assertions.length act.toList) :
    (c.testOf m id (c.testHead id displayName ++ (act ++ "\x7d")) assertions).Shows
      ('"' :: (displayName.toList ++ ['"'])) (c.arrangement ++ act.toList) where
  code := by
    show (c.testHead id displayName ++ (act ++ "\x7d")).toList = _
    rw [toList_testHead]
    simp [testOf]
  display := by
    have hquote : ∀ x ∈ ['"'], x ≠ '(' ∧ x ≠ ')' ∧ isBlank x = false := by decide
    have hword : ∀ x ∈ displayName.toList, x ≠ '(' ∧ x ≠ ')' ∧ isBlank x = false := by
      intro x hx
      have hx := hdisplay x hx
      refine ⟨?_, ?_, isBlank_of_isWord hx⟩
      · rintro rfl
        exact absurd hx (by decide)
      · rintro rfl
        exact absurd hx (by decide)
    exact List.forall_mem_append.mpr
      ⟨hquote, List.forall_mem_append.mpr ⟨hword, hquote⟩⟩
  id := hid
  isPiece := hc.isPiece_arrangement.append hact.toIsPiece
  assertions := by
    have hnot : isAssertionName c.name.toList = false := by
      rw [isAssertionName, hc.not_assertion]
      rfl
    rw [calledAssertions, hc.callees_arrangement, List.filter_cons, hnot,
      if_neg Bool.false_ne_true]
    exact hact.assertions
  target := by
    obtain ⟨before, after, hcallees, hbefore⟩ := hact.calls
    refine ⟨⟨c.name.toList, false⟩ :: before, after, ?_, ?_⟩
    · rw [hc.callees_arrangement, hcallees]
      rfl
    · exact List.forall_mem_cons.mpr ⟨rfl, hbefore⟩
  target_name := hm.not_framework

theorem normalTest_eq (c : ClassInfo) (m : MethodInfo) (ids : IdSource) :
    (c.normalTest m ids).1 =
      c.testOf m (ids.fresh ("test_" ++ m.name)).1
        (c.testHead (ids.fresh ("test_" ++ m.name)).1 ("test" ++ m.name ++ "Normal") ++
          (("    // Act\n" ++ m.actStatement ++ "\n" ++ m.checks) ++ "\x7d"))
        (resultAssertion m.returnType).toList := by
  simp only [← String.append_assoc]
  rfl

theorem boundaryTest_eq (c : ClassInfo) (m : MethodInfo) (p : TypedName) (arguments : List String)
    (ids : IdSource) :
    (c.boundaryTest m p arguments ids).1 =
      c.testOf m (ids.fresh ("test_" ++ m.name ++ "_boundary")).1
        (c.testHead (ids.fresh ("test_" ++ m.name ++ "_boundary")).1
          ("test" ++ m.name ++ "Boundary_" ++ p.name) ++
          (MethodInfo.wrapped "assertDoesNotThrow" "" (m.call arguments) ++ "\x7d"))
        ["assertDoesNotThrow"] := by
  have hbegin : "    // Act & Assert\n    assertDoesNotThrow(() -> " =
      MethodInfo.actAndAssert ++ "assertDoesNotThrow" ++ "(" ++ "" ++ "() -> " := by decide
  have hend : ");\n\x7d" = ");\n" ++ "\x7d" := by decide
  rw [boundaryTest, hbegin, hend, MethodInfo.wrapped]
  simp only [String.append_assoc]

theorem exceptionTest_eq (c : ClassInfo) (m : MethodInfo) (ids : IdSource) :
    (c.exceptionTest m ids).1 =
      c.testOf m (ids.fresh ("test_" ++ m.name ++ "_exception")).1
        (c.testHead (ids.fresh ("test_" ++ m.name ++ "_exception")).1
          ("test" ++ m.name ++ "Exception") ++
          (MethodInfo.wrapped "assertThrows" "Exception.class, " (m.call m.nullArguments) ++
            "\x7d"))
        ["assertThrows"] := by
  have hbegin : "    // Act & Assert\n    assertThrows(Exception.class, () -> " =
      MethodInfo.actAndAssert ++ "assertThrows" ++ "(" ++ "Exception.class, " ++ "() -> " := by
    decide
  have hend : ");\n\x7d" = ");\n" ++ "\x7d" := by decide
  rw [exceptionTest, hbegin, hend, MethodInfo.wrapped]
  simp only [String.append_assoc]

/-- **The texts of seed tests.** Each seed test of a class with plain names is a named test method
that calls the method first and asserts what the test says that it asserts. -/
theorem exists_shows_of_mem_seedTests (hc : c.IsReadable) (className methodName : String)
    (ids : IdSource) :
    ∀ t ∈ (c.seedTests className methodName ids).1, ∃ display body, t.Shows display body := by
  have hword : ∀ {a b : String}, (∀ x ∈ a.toList, isWord x = true) →
      (∀ x ∈ b.toList, isWord x = true) → ∀ x ∈ (a ++ b).toList, isWord x = true := by
    intro a b ha hb
    rw [String.toList_append]
    exact List.forall_mem_append.mpr ⟨ha, hb⟩
  have hstem : ∀ {a b : String}, isPlainName a.toList = true →
      (∀ x ∈ b.toList, isWord x = true) → isPlainName (a ++ b).toList = true := by
    intro a b ha hb
    rw [String.toList_append]
    exact isPlainName_append ha hb
  refine forall_mem_seedTests (fun m hm ids => ?_) (fun m hm e he ids => ?_)
    (fun m hm ids => ?_) ids
  all_goals
    have hm := hc.methods m hm
    have hname := isWord_of_isPlainName hm.name
    have hid : isPlainName ("test_" ++ m.name).toList = true := hstem (by decide) hname
    have htitle : ∀ x ∈ ("test" ++ m.name).toList, isWord x = true := hword (by decide) hname
  · rw [normalTest_eq]
    exact ⟨_, _, hc.shows hm (isPlainName_fresh hid ids) (hword htitle (by decide))
      hm.isAct_normal⟩
  · obtain ⟨hp, hargs⟩ := hm.isArgument_boundary he
    have hparameter := isWord_of_isPlainName (hm.parameters e.1 hp).1
    have hact := hm.isAct_wrapped hargs "assertDoesNotThrow" "" (by decide) (by decide)
      (by decide) (by decide) (by decide)
    rw [boundaryTest_eq]
    exact ⟨_, _, hc.shows hm (isPlainName_fresh (hstem hid (by decide)) ids)
      (hword (hword htitle (by decide)) hparameter) hact⟩
  · have hact := hm.isAct_wrapped hm.isArgument_nulls "assertThrows" "Exception.class, "
      (by decide) (by decide) (by decide) (by decide) (by decide)
    rw [exceptionTest_eq]
    exact ⟨_, _, hc.shows hm (isPlainName_fresh (hstem hid (by decide)) ids)
      (hword htitle (by decide)) hact⟩

end ClassInfo

/-! ## What is read off the code -/

theorem targetMethod_of_callees {cs : List Char} {k : Callee} {before after : List Callee}
    (hcallees : callees cs = before ++ k :: after) (hbefore : ∀ k ∈ before, k.dotted = false)
    (hk : k.dotted = true) (hname : isFrameworkCall (String.ofList k.name) = false) :
    targetMethod cs = String.ofList k.name := by
  have hdotted : (callees cs).filter (·.dotted) = k :: after.filter (·.dotted) := by
    have hnone : before.filter (·.dotted) = [] :=
      List.filter_eq_nil_iff.mpr fun k hk => by simp [hbefore k hk]
    rw [hcallees, List.filter_append, hnone, List.filter_cons, hk, if_pos rfl]
    rfl
  obtain ⟨rest, hrest⟩ : ∃ rest, methodCalls cs = String.ofList k.name :: rest := by
    rw [methodCalls, firstCaptures_methodCall, hdotted]
    exact ⟨_, List.eq_cons_of_mem_head? (head?_distinct id _ _)⟩
  rw [targetMethod, hrest, List.find?_cons, hname]
  rfl

/-- The display name and the name of a test method are called before what follows its head. -/
theorem callees_namedTest {display title : List Char} (hdisplay : '(' ∉ display)
    (htitle : isPlainName title = true) (r : List Char) :
    callees (namedTest display title r) =
      ⟨"DisplayName".toList, false⟩ :: ⟨title, false⟩ :: callees r := by
  have htags : '(' ∉ testTag.toList ++ '\n' :: displayTag.toList := by decide +kernel
  have hcallee : calleeOf (testTag.toList ++ '\n' :: displayTag.toList).reverse =
      some ⟨"DisplayName".toList, false⟩ := by decide +kernel
  have htype : '(' ∉ '\n' :: (voidType.toList ++ [' ']) := by decide
  have hlast : ('\n' :: (voidType.toList ++ [' '])).getLast? = some ' ' := rfl
  have htext : namedTest display title r = (testTag.toList ++ '\n' :: displayTag.toList) ++
      '(' :: (display ++ ')' :: ('\n' :: (voidType.toList ++ [' ']) ++
        (title ++ '(' :: (')' :: ([' '] ++ '\x7b' :: r))))) := by
    simp only [namedTest, displayHead, afterName, List.append_assoc, List.cons_append,
      List.nil_append]
  rw [htext, callees_append_paren htags, hcallee, callees_append_stop (by decide),
    callees_of_notMem hdisplay,
    callees_append_name htype hlast (by decide) htitle, callees_cons_stop (by decide),
    callees_append_blank isGap_space.blank, callees_cons_stop (by decide)]
  rfl

namespace TestCase.Shows

variable {t : TestCase} {display body : List Char}

/-- The display name and the name of the test are called before the body. -/
theorem callees_code (h : t.Shows display body) :
    callees t.code.toList =
      ⟨"DisplayName".toList, false⟩ :: ⟨t.id.toList, false⟩ :: callees body := by
  have hdisplay : '(' ∉ display := fun hmem => (h.display _ hmem).1 rfl
  have hend : callees (body ++ '\x7d' :: []) = callees body := by
    rw [callees_append_stop (by decide), callees_of_notMem List.not_mem_nil, List.append_nil]
  rw [h.code, callees_namedTest hdisplay h.id, hend]

/-- **The method that a test was written for** is read off its code. -/
theorem targetMethod_code (h : t.Shows display body) :
    Source.targetMethod t.code.toList = t.targetMethod := by
  obtain ⟨before, after, hcallees, hbefore⟩ := h.target
  have hall : callees t.code.toList =
      (⟨"DisplayName".toList, false⟩ :: ⟨t.id.toList, false⟩ :: before) ++
        ⟨t.targetMethod.toList, true⟩ :: after := by
    rw [h.callees_code, hcallees]
    rfl
  have hundotted : ∀ k ∈ ⟨"DisplayName".toList, false⟩ :: ⟨t.id.toList, false⟩ :: before,
      k.dotted = false :=
    List.forall_mem_cons.mpr ⟨rfl, List.forall_mem_cons.mpr ⟨rfl, hbefore⟩⟩
  have htarget := targetMethod_of_callees hall hundotted rfl (by
    rw [String.ofList_toList]
    exact h.target_name)
  rwa [String.ofList_toList] at htarget

end TestCase.Shows

end Testwright
