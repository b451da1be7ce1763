import Testwright.Proofs.Source.Heads

/-!
# Display names of test methods

The arguments of an annotation end with the first closing parenthesis, also when it stands inside a
string literal. Main statement: the first test method of a text with one titled test has its name and
its body if no closing parenthesis occurs in the display name, and otherwise not, as long as neither
an annotation nor an opening brace begins in the display name (`first_testUnit_titledTest`).
-/

namespace Testwright.Source

open Text Pattern Cursor

variable {c : Cursor} {u v : List Char} {x y : Char}

/-! ## After a parenthesis in a display name -/

/-- Of two characters, each the first after a part of the same text, one stands in the other part. -/
theorem mem_or_mem_of_append_cons {a b s t : List Char} (h : a ++ x :: s = b ++ y :: t)
    (hne : x ≠ y) : y ∈ a ∨ x ∈ b := by
  rcases append_eq_append_cons_iff.mp h with ⟨m, rfl, hm⟩ | ⟨m, rfl, -⟩
  · cases m with
    | nil => exact absurd (List.cons.inj hm).1 hne
    | cons z m =>
        obtain ⟨rfl, -⟩ := List.cons.inj hm
        exact .inr (List.mem_append_right a List.mem_cons_self)
  · exact .inl (List.mem_append_right b List.mem_cons_self)

/-- A quote does not stand between the parameters of a method and its body. -/
theorem fails_bodyStart_of_quote (hc : c.rest = u ++ '"' :: v) (hu : '\x7b' ∉ u) :
    bodyStart.Fails c := by
  refine Each.fails ((each_spells bodyStart c).mono ?_)
  rintro c' ⟨s, k, hs, hto⟩
  obtain ⟨g, rfl, hg⟩ := exists_of_spells_bodyStart hs
  have hrest := hto.1
  rw [hc, List.append_assoc] at hrest
  rcases mem_or_mem_of_append_cons hrest (by decide) with hbrace | hquote
  · exact hu hbrace
  · exact hg '"' (by decide) hquote

/-- What stands before the parameters of a method. -/
def signature : Pattern :=
  .optional (.anyOf ["public", "protected", "private"] ++ .gap) ++
    .optional (.word "void" ++ .gap) ++ .capture name ++ .blank

theorem omits_signature : signature.Omits '"' := by
  have hmodifier : (Pattern.optional (.anyOf ["public", "protected", "private"] ++ .gap)).Omits '"' :=
    ((omits_anyOf (by decide)).seq (omits_whole (by decide))).optional
  have hvoid : (Pattern.optional (.word "void" ++ .gap)).Omits '"' :=
    ((omits_word (by decide)).seq (omits_whole (by decide))).optional
  exact ((hmodifier.seq hvoid).seq (omits_whole (by decide)).capture).seq (omits_all (by decide))

/-- The places before the parameters stand before the quote. -/
theorem each_signature (hc : c.rest = u ++ '"' :: v) :
    signature.Each c fun c' => ∃ w, w <:+ u ∧ c'.rest = w ++ '"' :: v := by
  refine (each_spells signature c).mono ?_
  rintro c' ⟨s, k, hs, hto⟩
  have hquote := omits_signature s k hs
  have hrest : s ++ c'.rest = u ++ '"' :: v := hto.1.symm.trans hc
  rcases append_eq_append_cons_iff.mp hrest with ⟨m, rfl, hm⟩ | ⟨m, rfl, -⟩
  · exact ⟨m, List.suffix_append s m, hm⟩
  · exact absurd (List.mem_append_right u List.mem_cons_self) hquote

/-- Parameters that begin before the quote end before it, or with the parenthesis after it. -/
theorem each_plainParens_of_quote (hc : c.rest = u ++ '"' :: ')' :: v) :
    plainParens.Each c fun c' => (∃ w, w <:+ u ∧ c'.rest = w ++ '"' :: ')' :: v) ∨ c'.rest = v := by
  refine (each_spells plainParens c).mono ?_
  rintro c' ⟨s, k, ⟨_, _, _, _, rfl, -, ⟨_, p, _, _, rfl, -, hopen, hp, -⟩, hclose⟩, hto⟩
  have hparen : ')' ∉ p := fun hmem => absurd (hp ')' hmem) (by decide)
  have hrest : '(' :: (p ++ ')' :: c'.rest) = u ++ '"' :: ')' :: v := by
    rw [← hc, hto.1, (spells_char.mp hopen).1, (spells_char.mp hclose).1]
    simp
  cases u with
  | nil => cases hrest
  | cons y u =>
      obtain ⟨-, hinside⟩ := List.cons.inj hrest
      rcases append_eq_append_cons_iff.mp hinside with ⟨m, rfl, hm⟩ | ⟨m, rfl, hm⟩
      · -- the parenthesis stands in the display name
        cases m with
        | nil => cases hm
        | cons z m =>
            exact .inl ⟨m, ⟨y :: (p ++ [z]), by simp⟩, (List.cons.inj hm).2⟩
      · -- the display name belongs to the parameters
        cases m with
        | nil => exact .inr (List.cons.inj hm).2.symm
        | cons z m =>
            obtain ⟨rfl, -⟩ := List.cons.inj hm
            exact absurd (List.mem_append_right u (List.mem_cons_of_mem '"' List.mem_cons_self))
              hparen

/-- A declaration does not begin in a display name before its last quote. -/
theorem fails_declaration_of_quote (hc : c.rest = u ++ '"' :: ')' :: v) (hu : '\x7b' ∉ u)
    (hv : ∀ c' : Cursor, c'.rest = v → bodyStart.Fails c') : declaration.Fails c := by
  have hparens : (signature ++ plainParens).Each c fun c' =>
      (∃ w, '\x7b' ∉ w ∧ c'.rest = w ++ '"' :: ')' :: v) ∨ c'.rest = v := by
    refine (each_signature hc).seq ?_
    rintro c₁ ⟨w₁, hw₁, hrest⟩
    refine (each_plainParens_of_quote hrest).mono fun c₂ hc₂ => hc₂.imp_left ?_
    rintro ⟨w₂, hw₂, hrest₂⟩
    exact ⟨w₂, fun hmem => hu (hw₁.subset (hw₂.subset hmem)), hrest₂⟩
  refine hparens.seq_fails ?_
  rintro c' (⟨w, hw, hrest⟩ | hrest)
  · exact fails_bodyStart_of_quote hrest hw
  · exact hv c' hrest

/-! ## Titled tests -/

/-- A test method with a display name, in a text of its own. -/
def titledTest (display name body : String) : String :=
  "@Test\n@DisplayName(\"" ++ display ++ "\")\nvoid " ++ name ++ "() \x7b" ++ body ++ "\x7d"

theorem toList_titledTest (display name body : String) :
    (titledTest display name body).toList =
      namedTest ('"' :: (display.toList ++ ['"'])) name.toList (body.toList ++ ['\x7d']) := by
  delta titledTest
  simp [namedTest, displayHead, afterName, testTag, displayTag, voidType]

/-- There is no head where a closing parenthesis stands in the display name. -/
theorem fails_testHead_of_display {display name r : List Char}
    (hc : c.rest = namedTest ('"' :: (display ++ ['"'])) name r) (hquote : '"' ∉ display)
    (hparen : ')' ∈ display) (hat : '@' ∉ display) (hbrace : '\x7b' ∉ display) :
    testHead.Fails c := by
  obtain ⟨a, b, rfl, ha⟩ := List.eq_append_cons_of_mem hparen
  obtain ⟨g, b, rfl, hg, hb⟩ := exists_split isBlank b
  let v := '\n' :: (voidType.toList ++ ' ' :: (name ++ afterName r))
  have hbody : ∀ c' : Cursor, c'.rest = v → bodyStart.Fails c' := fun c' hc' =>
    fails_bodyStart (g := ['\n']) (x := 'v') hc' (List.all_eq_true.mp (by decide)) (by decide)
      (by decide) (by decide)
  have hbraceb : '\x7b' ∉ g ++ b := fun hmem =>
    hbrace (List.mem_append_right a (List.mem_cons_of_mem ')' hmem))
  -- what follows the white space after the parenthesis
  obtain ⟨x, t, htail, hblank, hx⟩ : ∃ x t, b ++ '"' :: ')' :: v = x :: t ∧ isBlank x = false ∧
      x ≠ '@' := by
    cases b with
    | nil => exact ⟨'"', _, rfl, by decide, by decide⟩
    | cons x b =>
        refine ⟨x, _, rfl, hb x rfl, ?_⟩
        rintro rfl
        exact hat (List.mem_append_right a (List.mem_cons_of_mem ')'
          (List.mem_append_right g List.mem_cons_self)))
  have htext : c.rest = testTag.toList ++ '\n' ::
      (displayTag.toList ++ '(' :: ('"' :: a ++ ')' :: (g ++ x :: t))) := by
    rw [hc, ← htail]
    simp [namedTest, displayHead, v]
  refine fails_testHead_of_bodyStart htext ?_ hg hblank hx (fun c' hc' => ?_) fun c' hc' => ?_
  · refine List.forall_mem_cons.mpr ⟨by decide, fun y hy => bne_iff_ne.mpr ?_⟩
    rintro rfl
    exact ha hy
  · refine fails_bodyStart_of_quote (u := g ++ b) (v := ')' :: v) ?_ hbraceb
    rw [hc', ← htail, List.append_assoc]
  · refine fails_declaration_of_quote (hc'.trans htail.symm) ?_ hbody
    exact fun hmem => hbraceb (List.mem_append_right g hmem)

/-- A display name in its quotes is an argument as a whole. -/
theorem forall_mem_quoted {display : List Char} (h : ')' ∉ display) :
    ∀ x ∈ '"' :: (display ++ ['"']), (x != ')') = true := by
  intro x hx
  rw [bne_iff_ne]
  rintro rfl
  rcases List.mem_cons.mp hx with hopen | hx
  · cases hopen
  · rcases List.mem_append.mp hx with hinside | hclose
    · exact h hinside
    · exact absurd (List.mem_singleton.mp hclose) (by decide)

/-- The head of a titled test is found if no closing parenthesis stands in the display name. -/
theorem finds_titledTest {display name body : String} {l : List (List (List Char) × List Char)}
    (hname : IsWordName name.toList) (hparen : ')' ∉ display.toList)
    (hl : ∀ b, testHead.Finds b (body.toList ++ ['\x7d']) l) :
    testHead.Finds none (titledTest display name body).toList
      (([name.toList], body.toList ++ ['\x7d']) :: l) := by
  rw [toList_titledTest, namedTest_eq]
  exact finds_spacedTest isGapped_namedTest (forall_mem_quoted hparen) hname hl

/-- With a closing parenthesis in the display name, only heads in the body are found. -/
theorem finds_titledTest_of_paren {display name body : String}
    {l : List (List (List Char) × List Char)} (hname : IsWordName name.toList)
    (hquote : '"' ∉ display.toList) (hparen : ')' ∈ display.toList) (hat : '@' ∉ display.toList)
    (hbrace : '\x7b' ∉ display.toList) (hl : ∀ b, testHead.Finds b (body.toList ++ ['\x7d']) l) :
    testHead.Finds none (titledTest display name body).toList l := by
  let quoted := '"' :: (display.toList ++ ['"'])
  let e := '(' :: (quoted ++ ')' :: '\n' :: (voidType.toList ++ ' ' ::
    (name.toList ++ '(' :: ')' :: ' ' :: ['\x7b'])))
  have hcs : (titledTest display name body).toList =
      testTag.toList ++ '\n' :: (displayTag.toList ++ (e ++ (body.toList ++ ['\x7d']))) := by
    rw [toList_titledTest]
    simp [namedTest, displayHead, afterName, e, quoted]
  have he : '@' ∉ e := by
    have htitle : '@' ∉ name.toList := fun h => absurd (hname.word '@' h) (by decide)
    simp [e, quoted, voidType, hat, htitle]
  exact finds_of_fails hcs
    (fails_testHead_of_display (toList_titledTest display name body) hquote hparen hat hbrace) he hl

/-- The body of a test method found in a text is shorter than the text. -/
theorem length_body_lt {cs : List Char} {before : Option Char}
    {l : List (List (List Char) × List Char)} {t : TestUnit} (h : testHead.Finds before cs l)
    (ht : t ∈ l.filterMap unitOf) : t.body.toList.length + 1 < cs.length := by
  obtain ⟨f, hf, hunit⟩ := List.mem_filterMap.mp ht
  obtain ⟨-, -, rest, hrest, -⟩ := exists_of_unitOf hunit
  have hlength := congrArg List.length hrest
  have hshorter := h.length_rest_lt f hf
  rw [List.length_append, List.length_cons] at hlength
  omega

/-- A test method is the first of a text that begins with it, if its display name has no closing
parenthesis and its body is nested. -/
theorem exists_first_testUnit {display name body : String} (hname : IsWordName name.toList)
    (hparen : ')' ∉ display.toList) (hbody : Delimiters.braces.marks.Nested body.toList) :
    ∃ t others, testUnits (titledTest display name body) = t :: others ∧ t.name = name ∧
      t.body = body := by
  have hclose : closeAfter '\x7b' '\x7d' (body.toList ++ ['\x7d']) = some (body.toList, []) :=
    (Delimiters.closeAfter_eq_some_iff (d := .braces)).mpr ⟨rfl, hbody⟩
  obtain ⟨others, hunits⟩ := exists_testUnits_eq_cons (forall_mem_quoted hparen) hname hclose
    (toList_titledTest display name body)
  exact ⟨_, others, hunits, String.ofList_toList, String.ofList_toList⟩

/-- **A test method is found under its display name** with its name and its body, if no closing
parenthesis occurs in the display name. If in addition neither an at sign nor an opening brace occurs
in it, it is found only if no closing parenthesis occurs and the body is nested. -/
theorem first_testUnit_titledTest {display name body : String} (hname : IsWordName name.toList)
    (hquote : '"' ∉ display.toList) :
    (')' ∉ display.toList → Delimiters.braces.marks.Nested body.toList →
      ∃ t others, testUnits (titledTest display name body) = t :: others ∧ t.name = name ∧
        t.body = body) ∧
    ('@' ∉ display.toList → '\x7b' ∉ display.toList →
      ((∃ t others, testUnits (titledTest display name body) = t :: others ∧ t.name = name ∧
          t.body = body) ↔
        ')' ∉ display.toList ∧ Delimiters.braces.marks.Nested body.toList)) := by
  refine ⟨exists_first_testUnit hname, fun hat hbrace =>
    ⟨?_, fun h => exists_first_testUnit hname h.1 h.2⟩⟩
  rintro ⟨t, others, hunits, -, hbody⟩
  obtain ⟨l, hl⟩ := exists_testHead_finds (body.toList ++ ['\x7d'])
  -- a later test method has a shorter body
  have hlater : t ∉ l.filterMap unitOf := by
    intro hmem
    have hlength := length_body_lt (hl none) hmem
    rw [hbody, List.length_append, List.length_singleton] at hlength
    omega
  by_cases hparen : ')' ∈ display.toList
  · have hrest := testUnits_of_finds (finds_titledTest_of_paren hname hquote hparen hat hbrace hl)
    rw [← hrest, hunits] at hlater
    exact absurd List.mem_cons_self hlater
  · have hfirst := testUnits_of_finds (finds_titledTest hname hparen hl)
    rw [hunits] at hfirst
    cases hunit : unitOf ([name.toList], body.toList ++ ['\x7d']) with
    | none =>
        rw [List.filterMap_cons_none hunit] at hfirst
        exact absurd (hfirst ▸ List.mem_cons_self) hlater
    | some u =>
        rw [List.filterMap_cons_some hunit] at hfirst
        obtain ⟨rfl, -⟩ := List.cons.inj hfirst
        obtain ⟨-, -, -, -, hnested⟩ := exists_of_unitOf hunit
        exact ⟨hparen, hbody ▸ hnested⟩

/-- A test whose display name is in plain words. -/
theorem first_testUnit_of_words :
    (IsWordName "adds".toList ∧ '"' ∉ "adds two".toList) ∧
      ∃ t others, testUnits (titledTest "adds two" "adds" "f();") = t :: others ∧ t.name = "adds" ∧
        t.body = "f();" := by
  have hname : IsWordName "adds".toList := ⟨by decide, by decide⟩
  have hquote : '"' ∉ "adds two".toList := by decide
  have hnested : Delimiters.braces.marks.Nested "f();".toList := by decide
  exact ⟨⟨hname, hquote⟩, (first_testUnit_titledTest hname hquote).1 (by decide) hnested⟩

/-- **A display name that repeats a call hides its test**, also when the name of the test is plain,
its body is nested, and no quote, escape or line break stands in the display name. -/
theorem testUnits_of_call_in_title :
    isPlainName "adds".toList = true ∧
      (∀ x ∈ "add() returns the sum".toList, x ≠ '"' ∧ x ≠ '\\' ∧ x ≠ '\n') ∧
      Delimiters.braces.marks.Nested "".toList ∧
      testUnits (titledTest "add() returns the sum" "adds" "") = [] := by
  decide +kernel

end Testwright.Source
