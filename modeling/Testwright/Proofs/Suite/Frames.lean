import Testwright.Proofs.Path.Constraint
import Testwright.Proofs.Source.TestHead
import Testwright.Proofs.Text.Nesting
import Testwright.Suite.Validation

/-!
# Frames read back

The frame of a suggested test is read as a test source. It is found under its name with the values
that it arranges, when its goal can stand in a display name and in a comment of the body
(`exists_unit_of_testFrame`). Otherwise no test is found in it (`testUnits_testFrame_eq_nil`).
-/

namespace Testwright

open Text Source

/-! ## The text of a frame -/

variable {title method goal : String} {inputs : Bindings}

/-- A variable that a frame arranges in a row of its own, with a value that is read back. -/
structure IsArranged (e : String × Value) : Prop extends IsArrangeable e where
  identifier : isIdentifier e.1 = true

/-- The row of a value is the one that is read back, but for the line feeds around it. -/
theorem toList_arrangeRow {e : String × Value} (he : IsArranged e) :
    '\n' :: (arrangeRow e.1 e.2).toList = arrangedRow e ++ ['\n'] := by
  rw [arrangeRow, he.identifier]
  cases hnull : e.2.isNull with
  | true =>
      have hrender : e.2.render = "null" := by
        cases hv : e.2 with
        | null => rfl
        | _ =>
            rw [hv] at hnull
            cases hnull
      simp [arrangedRow, indentation, rowKeyword, assignment, hnull, hrender]
  | false => simp [arrangedRow, indentation, rowKeyword, assignment, hnull]

theorem toList_rows {rows : List (String × Value)} (hrows : ∀ e ∈ rows, IsArranged e) :
    '\n' :: (String.join (rows.map fun e => arrangeRow e.1 e.2)).toList =
      rows.flatMap arrangedRow ++ ['\n'] := by
  induction rows with
  | nil => rfl
  | cons e rows ih =>
      have hrest := ih fun e he => hrows e (List.mem_cons_of_mem _ he)
      have hfirst := toList_arrangeRow (hrows e List.mem_cons_self)
      rw [String.toList_join] at hrest ⊢
      rw [List.map_cons, List.flatMap_cons, ← List.cons_append, hfirst, List.append_assoc,
        List.singleton_append, hrest, List.flatMap_cons, List.append_assoc]

/-- The text between the parentheses of a display name. -/
def displayText (method goal : String) : List Char :=
  '"' :: (method.toList ++ ':' :: ' ' :: ((withApostrophes goal).toList ++ ['"']))

/-- What stands before the rows in a frame. -/
def beforeRows : String := "\n    // Arrange"

/-- What follows the rows, up to the name of the method. -/
def afterRows : String := "\n\n    // Act\n    // call "

/-- What stands between the name of the method and the goal. -/
def beforeGoal : String := " so that "

/-- What follows the goal, up to the closing brace. -/
def afterGoal : String := "\n\n    // Assert\n"

/-- The text of a frame after its opening brace. -/
def frameBody (method goal : String) (inputs : Bindings) : List Char :=
  beforeRows.toList ++ (inputs.entries.flatMap arrangedRow ++ (afterRows.toList ++
    (method.toList ++ (beforeGoal.toList ++ (goal.toList ++ (afterGoal.toList ++ ['\x7d']))))))

/-- A frame is a named test method with rows of values. -/
theorem toList_testFrame (hinputs : ∀ e ∈ inputs.entries, IsArranged e) :
    (testFrame title method goal inputs).toList =
      namedTest (displayText method goal) title.toList (frameBody method goal inputs) := by
  have hrows := toList_rows hinputs
  delta testFrame
  rw [frameBody]
  generalize String.join (inputs.entries.map fun e => arrangeRow e.1 e.2) = rows at hrows ⊢
  generalize inputs.entries.flatMap arrangedRow = found at hrows ⊢
  have happend (r : List Char) : found ++ '\n' :: r = '\n' :: (rows.toList ++ r) := by
    rw [← List.cons_append, hrows, List.append_assoc, List.singleton_append]
  simp [namedTest, testTag, displayHead, displayTag, voidType, displayText,
    afterName, beforeRows, afterRows, beforeGoal, afterGoal, happend]

/-! ## The characters of a frame -/

/-- What a frame is written with, but for its goal and the parentheses and braces around it. -/
def isFrameChar (c : Char) : Bool :=
  isWord c || ['\n', ' ', '/', ':', '=', ';', '-', '$'].contains c

theorem of_isFrameChar {c : Char} (h : isFrameChar c = true) :
    isPlainBetween '\x7b' '\x7d' c = true ∧ c ≠ ')' ∧ c ≠ '@' := by
  have hnone : ∀ d ∈ ['"', '\'', '\x7b', '\x7d', ')', '@'], isFrameChar d = false :=
    forall_mem_of_any_eq_false (by decide)
  have hother : ∀ d ∈ ['"', '\'', '\x7b', '\x7d', ')', '@'], c ≠ d := by
    rintro d hd rfl
    rw [hnone c hd] at h
    cases h
  refine ⟨?_, hother _ (by decide), hother _ (by decide)⟩
  simp only [isPlainBetween, isQuote, Bool.and_eq_true, Bool.not_eq_true', Bool.or_eq_false_iff,
    decide_eq_false_iff_not, bne_iff_ne]
  exact ⟨⟨⟨hother _ (by decide), hother _ (by decide)⟩, hother _ (by decide)⟩, hother _ (by decide)⟩

theorem isPlain_of_isFrameChar {c : Char} (h : isFrameChar c = true) :
    Delimiters.braces.marks.IsPlain c :=
  Delimiters.isPlain_of_isPlainBetween (d := .braces) (of_isFrameChar h).1

theorem isFrameChar_of_isWord {c : Char} (h : isWord c = true) : isFrameChar c = true := by
  rw [isFrameChar, h, Bool.true_or]

theorem isFrameChar_of_mem_render {v : Value} (hv : v.isOneWord = true) :
    ∀ c ∈ v.render.toList, isFrameChar c = true := by
  cases v with
  | int n =>
      intro c hc
      have hrender : (Value.int n).render.toList = writeInt n.toInt := String.toList_ofList
      rw [hrender] at hc
      rcases isIntegerChar_cases (isIntegerChar_of_mem_writeInt hc) with rfl | hdigit
      · decide
      · exact isFrameChar_of_isWord (isWord_of_isDigit (isDigit_of_isAsciiDigit hdigit))
  | null => exact List.all_eq_true.mp (by decide)
  | bool b => cases b <;> exact List.all_eq_true.mp (by decide)
  | _ => cases hv

theorem isFrameChar_of_mem_row {e : String × Value} (he : IsArrangeable e) :
    ∀ c ∈ arrangedRow e, isFrameChar c = true := by
  intro c hc
  rw [arrangedRow, assignment] at hc
  simp only [List.mem_append, List.mem_cons, List.not_mem_nil, or_false] at hc
  rcases hc with hc | hc | rfl | hc | rfl | rfl | rfl | hc | rfl
  · exact List.all_eq_true.mp (by decide) c hc
  · exact isFrameChar_of_isWord (isWord_of_mem_rowKeyword _ c hc)
  · decide
  · exact isFrameChar_of_isWord (isWord_of_isPlainName he.name c hc)
  · decide
  · decide
  · decide
  · exact isFrameChar_of_mem_render he.value c hc
  · decide

/-- The body of a frame up to its goal. -/
def beforeGoalOf (method : String) (inputs : Bindings) : List Char :=
  beforeRows.toList ++ (inputs.entries.flatMap arrangedRow ++
    (afterRows.toList ++ (method.toList ++ beforeGoal.toList)))

theorem frameBody_eq (method goal : String) (inputs : Bindings) :
    frameBody method goal inputs =
      beforeGoalOf method inputs ++ (goal.toList ++ (afterGoal.toList ++ ['\x7d'])) := by
  simp [frameBody, beforeGoalOf]

theorem isFrameChar_of_mem_beforeGoalOf (hmethod : ∀ c ∈ method.toList, isFrameChar c = true)
    (hinputs : ∀ e ∈ inputs.entries, IsArranged e) :
    ∀ c ∈ beforeGoalOf method inputs, isFrameChar c = true := by
  intro c hc
  simp only [beforeGoalOf, List.mem_append, List.mem_flatMap] at hc
  rcases hc with hc | ⟨e, he, hc⟩ | hc | hc | hc
  · exact List.all_eq_true.mp (by decide) c hc
  · exact isFrameChar_of_mem_row (hinputs e he).toIsArrangeable c hc
  · exact List.all_eq_true.mp (by decide) c hc
  · exact hmethod c hc
  · exact List.all_eq_true.mp (by decide) c hc

/-! ## The body of a frame -/

/-- What a frame must be made of to be read back. -/
structure IsFramable (method goal : String) (inputs : Bindings) : Prop where
  method : ∀ c ∈ method.toList, isWord c = true
  inputs : ∀ e ∈ inputs.entries, IsArranged e
  /-- The display name is over at the first closing parenthesis. -/
  display : ')' ∉ goal.toList
  /-- The comment with the goal leaves nothing open. -/
  comment : (closeAfter '\x7b' '\x7d' (goal.toList ++ ['\x7d'])).isSome = true

/-- Only the goal decides whether the body of a frame is closed. -/
theorem isSome_closeAfter_frameBody (hmethod : ∀ c ∈ method.toList, isFrameChar c = true)
    (hinputs : ∀ e ∈ inputs.entries, IsArranged e) :
    (closeAfter '\x7b' '\x7d' (frameBody method goal inputs)).isSome =
      (closeAfter '\x7b' '\x7d' (goal.toList ++ ['\x7d'])).isSome := by
  have hbefore : ∀ c ∈ beforeGoalOf method inputs, Delimiters.braces.marks.IsPlain c := fun c hc =>
    isPlain_of_isFrameChar (isFrameChar_of_mem_beforeGoalOf hmethod hinputs c hc)
  have hafter : ∀ c ∈ afterGoal.toList, Delimiters.braces.marks.IsPlain c := fun c hc =>
    isPlain_of_isFrameChar (List.all_eq_true.mp (by decide) c hc)
  rw [frameBody_eq]
  exact Delimiters.isSome_closeAfter_append (d := .braces) hbefore hafter

/-- A body that is closed has all the rows. -/
theorem exists_closed_frameBody (h : IsFramable method goal inputs) :
    ∃ r rest, closeAfter '\x7b' '\x7d' (frameBody method goal inputs) =
      some (beforeRows.toList ++ (inputs.entries.flatMap arrangedRow ++ r), rest) := by
  have hmethod := fun c hc => isFrameChar_of_isWord (h.method c hc)
  have hclosed := h.comment
  rw [← isSome_closeAfter_frameBody hmethod h.inputs] at hclosed
  obtain ⟨⟨body, rest⟩, hfound⟩ := Option.isSome_iff_exists.mp hclosed
  -- no brace is closed before the goal
  have hbefore : '\x7d' ∉ beforeGoalOf method inputs := fun hmem =>
    (isPlain_of_isFrameChar (isFrameChar_of_mem_beforeGoalOf hmethod h.inputs _ hmem)).2.1 rfl
  have hbody := (Delimiters.closeAfter_eq_some_iff (d := .braces)).mp hfound
  rw [frameBody_eq] at hbody
  obtain ⟨r, hr, -⟩ | ⟨r, hr, -⟩ := append_eq_append_cons_iff.mp hbody.1
  · exact ⟨_, rest, by rw [hfound, hr, beforeGoalOf, List.append_assoc, List.append_assoc]⟩
  · exact absurd (hr ▸ List.mem_append_right body List.mem_cons_self) hbefore

/-! ## The test in a frame -/

/-- A word that is no name of an assignment leads to the rows after it. -/
theorem leadsToRow_append {s w : List Char} (hs : ∀ x ∈ s, isNameStart x = false)
    (hw : ∀ x ∈ w, isWord x = true) : LeadsToRow (s ++ w) := by
  intro e _ r skipped before
  let t := (rowKeyword e.2).toList ++ ' ' :: (assignment e ++ r)
  have hrow : arrangedRow e ++ r = indentation ++ t := by simp [arrangedRow, t]
  have hkeyword : ∀ y ∈ t.head?, isBlank y = false ∧ (y == '=') = false := by
    simp only [t, rowKeyword]
    cases e.2.isNull <;>
    · intro y hy
      cases hy
      decide
  rw [List.append_assoc, findFrom_plain hs, hrow,
    findFrom_word hw (head?_cons (by decide)) (List.all_eq_true.mp (by decide)) hkeyword]
  exact ⟨_, _, rfl⟩

theorem leadsToRow_beforeRows : LeadsToRow beforeRows.toList :=
  leadsToRow_append (s := "\n    // ".toList) (w := "Arrange".toList)
    (forall_mem_of_any_eq_false (by decide)) (List.all_eq_true.mp (by decide))

/-- The characters of a display name are those of its parts. -/
theorem mem_displayText {c : Char} (hmethod : ∀ c ∈ method.toList, isFrameChar c = true)
    (hc : c ∈ displayText method goal) :
    isFrameChar c = true ∨ c = '"' ∨ c = '\'' ∨ c ∈ goal.toList := by
  rw [displayText, withApostrophes, String.toList_ofList] at hc
  simp only [List.mem_cons, List.mem_append, List.mem_map, List.not_mem_nil, or_false] at hc
  rcases hc with rfl | hc | rfl | rfl | ⟨d, hd, rfl⟩ | rfl
  · exact .inr (.inl rfl)
  · exact .inl (hmethod c hc)
  · exact .inl (by decide)
  · exact .inl (by decide)
  · split
    · exact .inr (.inr (.inl rfl))
    · exact .inr (.inr (.inr hd))
  · exact .inr (.inl rfl)

theorem ne_of_mem_displayText {x : Char} (hmethod : ∀ c ∈ method.toList, isFrameChar c = true)
    (hx : x = ')' ∨ x = '@') (hgoal : x ∉ goal.toList) :
    ∀ c ∈ displayText method goal, c ≠ x := by
  rintro c hc rfl
  rcases mem_displayText hmethod hc with hframe | rfl | rfl | hmem
  · obtain ⟨-, hparen, hat⟩ := of_isFrameChar hframe
    exact hx.elim hparen hat
  · revert hx
    decide
  · revert hx
    decide
  · exact hgoal hmem

/-- **A frame is read back.** One of the tests in it has its name, and a literal for each of the
values that it arranges. -/
theorem exists_unit_of_testFrame (h : IsFramable method goal inputs)
    (htitle : isPlainName title.toList = true) :
    ∃ t ∈ testUnits (testFrame title method goal inputs), t.name = title ∧
      ∀ e ∈ inputs.entries, ∃ vs, t.inputs.find? e.1 = some vs ∧ e.2 ∈ vs := by
  obtain ⟨r, rest, hclosed⟩ := exists_closed_frameBody h
  have hdisplay : ∀ c ∈ displayText method goal, (c != ')') = true := fun c hc =>
    bne_iff_ne.mpr (ne_of_mem_displayText (fun c hc => isFrameChar_of_isWord (h.method c hc))
      (.inl rfl) h.display c hc)
  obtain ⟨others, hunits⟩ :=
    exists_testUnits_eq_cons hdisplay (isWordName_of_isPlainName htitle) hclosed
      (toList_testFrame h.inputs)
  refine ⟨_, by rw [hunits]; exact List.mem_cons_self, String.ofList_toList, ?_⟩
  exact exists_literals_of_rows (fun e he => (h.inputs e he).toIsArrangeable) leadsToRow_beforeRows r

/-! ## Frames without a test -/

/-- The text of a frame after the two annotations. -/
def afterAnnotations (title method goal : String) (inputs : Bindings) : List Char :=
  '(' :: (displayText method goal ++ ')' :: '\n' ::
    (voidType.toList ++ ' ' :: (title.toList ++ afterName (frameBody method goal inputs))))

theorem at_notMem_frameBody (hmethod : ∀ c ∈ method.toList, isFrameChar c = true)
    (hinputs : ∀ e ∈ inputs.entries, IsArranged e) (hgoal : '@' ∉ goal.toList) :
    '@' ∉ frameBody method goal inputs := by
  rw [frameBody_eq]
  simp only [List.mem_append, not_or]
  refine ⟨fun h => ?_, hgoal, by decide, by decide⟩
  exact (of_isFrameChar (isFrameChar_of_mem_beforeGoalOf hmethod hinputs '@' h)).2.2 rfl

theorem at_notMem_afterAnnotations (hmethod : ∀ c ∈ method.toList, isFrameChar c = true)
    (hinputs : ∀ e ∈ inputs.entries, IsArranged e) (hgoal : '@' ∉ goal.toList)
    (htitle : ∀ c ∈ title.toList, isFrameChar c = true) :
    '@' ∉ afterAnnotations title method goal inputs := by
  have hdisplay : '@' ∉ displayText method goal := fun h =>
    ne_of_mem_displayText hmethod (.inr rfl) hgoal '@' h rfl
  have hname : '@' ∉ title.toList := fun h => (of_isFrameChar (htitle '@' h)).2.2 rfl
  have hbody := at_notMem_frameBody hmethod hinputs hgoal
  simp only [afterAnnotations, afterName, List.mem_cons, List.mem_append, not_or]
  refine ⟨by decide, hdisplay, by decide, by decide, by decide, by decide, hname, by decide,
    by decide, by decide, by decide, hbody⟩

/-- A closing parenthesis in the goal ends the arguments of the annotation, and no declaration
follows. -/
theorem fails_testHead_of_paren {c : Cursor}
    (hc : c.rest = testTag.toList ++ '\n' ::
      (displayTag.toList ++ afterAnnotations title method goal inputs))
    (hmethod : ∀ c ∈ method.toList, isFrameChar c = true)
    (hcloses : closesConditions goal.toList = true) (hparen : ')' ∈ goal.toList) :
    testHead.Fails c := by
  obtain ⟨a, b, hgoal, ha, hb⟩ := exists_of_closesConditions hcloses hparen
  let f : Char → Char := fun c => if c = '"' then '\'' else c
  let rest := ')' :: '\n' ::
    (voidType.toList ++ ' ' :: (title.toList ++ afterName (frameBody method goal inputs)))
  let a' := '"' :: (method.toList ++ ':' :: ' ' :: a.map f)
  have htext : afterAnnotations title method goal inputs =
      '(' :: (a' ++ ')' :: (b.map f ++ '"' :: rest)) := by
    have hmap : (withApostrophes goal).toList = a.map f ++ ')' :: b.map f := by
      rw [withApostrophes, String.toList_ofList, hgoal, List.map_append, List.map_cons]
      rfl
    rw [afterAnnotations, displayText, hmap]
    simp [a', rest]
  have ha' : ∀ y ∈ a', (y != ')') = true := by
    intro y hy
    rw [bne_iff_ne]
    rintro rfl
    simp only [a', List.mem_cons, List.mem_append, List.mem_map] at hy
    rcases hy with h | h | h | h | ⟨d, hd, h⟩
    · cases h
    · exact (of_isFrameChar (hmethod _ h)).2.1 rfl
    · cases h
    · cases h
    · change (if d = '"' then '\'' else d) = ')' at h
      split at h
      · cases h
      · exact ha (h ▸ hd)
  rw [htext] at hc
  rcases hb with rfl | ⟨r, rfl⟩
  · refine fails_testHead_of_tail (g := []) (x := '"') (t := rest) hc ha'
      (fun y hy => absurd hy List.not_mem_nil) (by decide) (by decide) fun c' hc' => ?_
    exact fails_declaration_of_start hc' (by decide)
  · refine fails_testHead_of_tail (g := [' ']) (x := '&') (t := r.map f ++ '"' :: rest) hc ha'
      (List.all_eq_true.mp (by decide)) (by decide) (by decide) fun c' hc' => ?_
    exact fails_declaration_of_start hc' (by decide)

/-- A dollar sign cannot be part of the name of a test. -/
theorem fails_testHead_of_dollar {c : Cursor} {w t : List Char}
    (hc : c.rest = testTag.toList ++ '\n' ::
      (displayTag.toList ++ afterAnnotations title method goal inputs))
    (hmethod : ∀ c ∈ method.toList, isFrameChar c = true) (hdisplay : ')' ∉ goal.toList)
    (htitle : title.toList = w ++ '$' :: t) (hw : ∀ y ∈ w, isWord y = true) (hne : w ≠ []) :
    testHead.Fails c := by
  have hparens : ∀ y ∈ displayText method goal, (y != ')') = true := fun y hy =>
    bne_iff_ne.mpr (ne_of_mem_displayText hmethod (.inl rfl) hdisplay y hy)
  refine fails_testHead_of_tail (g := ['\n']) (x := 'v') hc hparens
    (List.all_eq_true.mp (by decide)) (by decide) (by decide) fun c' hc' => ?_
  refine fails_declaration_of_title (w := w) (x := '$')
    (t := t ++ afterName (frameBody method goal inputs)) ?_ hw hne (by decide) (by decide) (by decide)
  have hname : w ++ '$' :: (t ++ afterName (frameBody method goal inputs)) =
      title.toList ++ afterName (frameBody method goal inputs) := by
    rw [htitle, List.append_assoc, List.cons_append]
  rw [hname]
  exact hc'

/-- The name of a test, with word characters around the name of the method. -/
theorem isPlainName_of_title {suffix : List Char} (hmethod : ∀ c ∈ method.toList, isWord c = true)
    (htitle : title.toList = "test_".toList ++ (method.toList ++ suffix))
    (hsuffix : ∀ c ∈ suffix, isWord c = true) : isPlainName title.toList = true := by
  rw [htitle]
  refine isPlainName_append (by decide) fun c hc => ?_
  exact (List.mem_append.mp hc).elim (hmethod c) (hsuffix c)

theorem isFrameChar_of_mem_title {suffix : List Char}
    (hmethod : ∀ c ∈ method.toList, isFrameChar c = true)
    (htitle : title.toList = "test_".toList ++ (method.toList ++ suffix))
    (hsuffix : ∀ c ∈ suffix, isWord c = true) : ∀ c ∈ title.toList, isFrameChar c = true := by
  intro c hc
  rw [htitle] at hc
  simp only [List.mem_append] at hc
  rcases hc with hc | hc | hc
  · exact List.all_eq_true.mp (by decide) c hc
  · exact hmethod c hc
  · exact isFrameChar_of_isWord (hsuffix c hc)

/-- The name of a test has a first dollar sign where the name of its method has one. -/
theorem exists_dollar_of_title {suffix : List Char}
    (hmethod : ∀ c ∈ method.toList, isWord c = true ∨ c = '$')
    (htitle : title.toList = "test_".toList ++ (method.toList ++ suffix))
    (hword : ¬ ∀ c ∈ method.toList, isWord c = true) :
    ∃ w t, title.toList = w ++ '$' :: t ∧ (∀ y ∈ w, isWord y = true) ∧ w ≠ [] := by
  have hdollar : '$' ∈ method.toList := Decidable.byContradiction fun hnone =>
    hword fun c hc => (hmethod c hc).resolve_right fun h => hnone (h ▸ hc)
  obtain ⟨w, t, hsplit, hfirst⟩ := List.eq_append_cons_of_mem hdollar
  refine ⟨"test_".toList ++ w, t ++ suffix, ?_, fun y hy => ?_,
    List.append_ne_nil_of_left_ne_nil (by decide) w⟩
  · rw [htitle, hsplit]
    simp only [List.append_assoc, List.cons_append]
  · rcases List.mem_append.mp hy with hy | hy
    · exact List.all_eq_true.mp (by decide) y hy
    · have hmem : y ∈ method.toList := hsplit ▸ List.mem_append_left _ hy
      exact (hmethod y hmem).resolve_right fun h => hfirst (h ▸ hy)

/-- **A frame that is not read back holds no test** at all, when every closing parenthesis of the
goal ends a condition. -/
theorem testUnits_testFrame_eq_nil {suffix : List Char}
    (hmethod : ∀ c ∈ method.toList, isWord c = true ∨ c = '$')
    (hinputs : ∀ e ∈ inputs.entries, IsArranged e)
    (hcloses : closesConditions goal.toList = true) (hat : '@' ∉ goal.toList)
    (htitle : title.toList = "test_".toList ++ (method.toList ++ suffix))
    (hsuffix : ∀ c ∈ suffix, isWord c = true) (hnot : ¬ IsFramable method goal inputs) :
    testUnits (testFrame title method goal inputs) = [] := by
  have hframe : ∀ c ∈ method.toList, isFrameChar c = true := by
    intro c hc
    rcases hmethod c hc with hword | rfl
    · exact isFrameChar_of_isWord hword
    · decide
  have hnamed : (testFrame title method goal inputs).toList =
      namedTest (displayText method goal) title.toList (frameBody method goal inputs) :=
    toList_testFrame hinputs
  generalize testFrame title method goal inputs = source at hnamed ⊢
  have htext : source.toList = testTag.toList ++ '\n' ::
      (displayTag.toList ++ afterAnnotations title method goal inputs) := hnamed
  have hrest := at_notMem_afterAnnotations hframe hinputs hat
    (isFrameChar_of_mem_title hframe htitle hsuffix)
  by_cases hparen : ')' ∈ goal.toList
  · exact testUnits_eq_nil htext (fails_testHead_of_paren htext hframe hcloses hparen) hrest
  by_cases hword : ∀ c ∈ method.toList, isWord c = true
  · -- the test has a head, but its body is open
    have hopen : closeAfter '\x7b' '\x7d' (frameBody method goal inputs) = none := by
      rw [← Option.not_isSome_iff_eq_none, isSome_closeAfter_frameBody hframe hinputs]
      exact fun hclosed => hnot ⟨hword, hinputs, hparen, hclosed⟩
    exact testUnits_eq_nil_of_open
      (fun c hc => bne_iff_ne.mpr (ne_of_mem_displayText hframe (.inl rfl) hparen c hc))
      (isWordName_of_isPlainName (isPlainName_of_title hword htitle hsuffix)) hopen
      (at_notMem_frameBody hframe hinputs hat)
      hnamed
  · obtain ⟨w, t, hsplit, hw, hne⟩ := exists_dollar_of_title hmethod htitle hword
    exact testUnits_eq_nil htext (fails_testHead_of_dollar htext hframe hparen hsplit hw hne) hrest

end Testwright
