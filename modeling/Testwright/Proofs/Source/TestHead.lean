import Testwright.Proofs.Source.Bindings
import Testwright.Proofs.Text.Finding
import Testwright.Proofs.Text.Spacing

/-!
# Named test methods read back

A test method with a display name is found under its name, with the text between its braces as its
body, when no closing parenthesis occurs in the display name (`exists_testUnits_eq_cons`). The white
space around its parts may be any (`finds_spacedTest`).
-/

namespace Testwright.Source

open Text Pattern

variable {c : Cursor} {r : List Char}

/-- A name of word characters. -/
structure IsWordName (cs : List Char) : Prop where
  ne_nil : cs ≠ []
  word : ∀ x ∈ cs, isWord x = true

theorem isWordName_of_isPlainName {cs : List Char} (h : isPlainName cs = true) : IsWordName cs :=
  ⟨ne_nil_of_isPlainName h, isWord_of_isPlainName h⟩

/-! ## The parts of a head -/

theorem only_plainParens {cs : List Char} (hc : c.rest = '(' :: (cs ++ ')' :: r))
    (hcs : ∀ x ∈ cs, (x != ')') = true) : plainParens.Only c (c.past ('(' :: (cs ++ [')'])) r) := by
  have hopen : (Pattern.char '(').Only c (c.past ['('] (cs ++ ')' :: r)) :=
    only_one (x := '(') hc rfl
  have hinside : (Pattern.all (· != ')')).Only (c.past ['('] (cs ++ ')' :: r))
      ((c.past ['('] (cs ++ ')' :: r)).past cs (')' :: r)) :=
    only_all rfl hcs (head?_cons rfl)
  have hclose : (Pattern.char ')').Only ((c.past ['('] (cs ++ ')' :: r)).past cs (')' :: r)) _ :=
    only_one (x := ')') rfl rfl
  rw [Cursor.past_past, Cursor.past_past] at hclose
  rw [Cursor.past_past] at hinside
  exact (hopen.seq hinside).seq hclose

theorem fails_plainParens {x : Char} (hc : c.rest = x :: r) (hx : (x == '(') = false) :
    plainParens.Fails c :=
  ((fails_one (head?_of_rest hc hx)).seq _).seq _

/-- An annotation with arguments, and the white space after it. -/
theorem reads_furtherAnnotation {w cs g : List Char} {x : Char}
    (hc : c.rest = '@' :: (x :: w ++ '(' :: (cs ++ ')' :: (g ++ r))))
    (hw : ∀ y ∈ x :: w, isWord y = true) (hcs : ∀ y ∈ cs, (y != ')') = true)
    (hgap : ∀ y ∈ g, isBlank y = true) (hr : ∀ y ∈ r.head?, isBlank y = false) :
    ∃ c', furtherAnnotation.Reads c c' ∧ c'.rest = r ∧ c'.spans = c.spans := by
  let c₁ := c.past ['@'] (x :: w ++ '(' :: (cs ++ ')' :: (g ++ r)))
  let c₂ := c₁.past (x :: w) ('(' :: (cs ++ ')' :: (g ++ r)))
  let c₃ := c₂.past ('(' :: (cs ++ [')'])) (g ++ r)
  let c₄ := c₃.past g r
  have hat : (Pattern.char '@').Only c c₁ := only_one (x := '@') hc rfl
  have hname : (Pattern.oneOrMore isWord).Reads c₁ c₂ :=
    reads_oneOrMore rfl hw (head?_cons (by decide))
  have hnone : Pattern.blank.Only c₂ c₂ := only_all_nil (head?_cons (by decide))
  have harguments : annotationArguments.Reads c₂ c₃ :=
    (hnone.seq (only_plainParens rfl hcs)).reads.optional
  have hblank : Pattern.blank.Only c₃ c₄ := only_all rfl hgap hr
  exact ⟨c₄, ((hat.reads.seq hname).seq harguments).seq hblank.reads, rfl, rfl⟩

/-- There are no arguments where no parenthesis follows the white space. -/
theorem only_annotationArguments {g : List Char} {x : Char} (hc : c.rest = g ++ x :: r)
    (hgap : ∀ y ∈ g, isBlank y = true) (hblank : isBlank x = false) (hx : (x == '(') = false) :
    annotationArguments.Only c c := by
  have hpass : Pattern.blank.Only c (c.past g (x :: r)) := only_all hc hgap (head?_cons hblank)
  exact (hpass.seq_fails (fails_plainParens rfl hx)).optional

theorem reads_bodyStart {g : List Char} (hc : c.rest = g ++ '\x7b' :: r)
    (hg : ∀ x ∈ g, isBlank x = true) : bodyStart.Reads c (c.past (g ++ ['\x7b']) r) := by
  have hblank : Pattern.blank.Only c (c.past g ('\x7b' :: r)) :=
    only_all hc hg (head?_cons (by decide))
  have hthrows : (Pattern.optional throwsClause).Only (c.past g ('\x7b' :: r)) _ :=
    ((fails_ofList (fun y hy => by cases hy; decide) _).seq _ |>.seq _).optional
  have hbrace : (Pattern.char '\x7b').Only (c.past g ('\x7b' :: r)) _ :=
    only_one (x := '\x7b') rfl rfl
  rw [Cursor.past_past] at hbrace
  exact ((hblank.seq hthrows).seq hbrace).reads

/-! ## Heads with a display name -/

/-- What stands after the name in the head of a test method. -/
def afterName (r : List Char) : List Char := '(' :: ')' :: ' ' :: '\x7b' :: r

/-- The annotation of test methods. -/
def testTag : String := "@Test"

/-- The annotation of display names. -/
def displayTag : String := "@DisplayName"

/-- The type of test methods. -/
def voidType : String := "void"

/-- What stands before the name, from the annotation with the display name on. -/
def displayHead (display t : List Char) : List Char :=
  displayTag.toList ++ '(' :: (display ++ ')' :: '\n' :: (voidType.toList ++ ' ' :: t))

/-- The text of a test method with a display name, up to the opening brace, which `r` follows. -/
def namedTest (display title r : List Char) : List Char :=
  testTag.toList ++ '\n' :: displayHead display (title ++ afterName r)

/-- The white space in the text of a test method: after the annotations, before the name, and before
the opening brace. -/
structure Spacing where
  tag : List Char
  display : List Char
  type : List Char
  brace : List Char

/-- There is white space everywhere. -/
structure Spacing.IsGapped (g : Spacing) : Prop where
  tag : IsGap g.tag
  display : IsGap g.display
  type : IsGap g.type
  brace : IsGap g.brace

/-- The text of a test method with the white space that is given. -/
def spacedTest (g : Spacing) (display title r : List Char) : List Char :=
  testTag.toList ++ (g.tag ++ (displayTag.toList ++ '(' :: (display ++ ')' :: (g.display ++
    (voidType.toList ++ (g.type ++ (title ++ '(' :: ')' :: (g.brace ++ '\x7b' :: r))))))))

theorem namedTest_eq (display title r : List Char) :
    namedTest display title r = spacedTest ⟨['\n'], ['\n'], [' '], [' ']⟩ display title r := rfl

theorem isGapped_namedTest : Spacing.IsGapped ⟨['\n'], ['\n'], [' '], [' ']⟩ :=
  ⟨isGap_feed, isGap_feed, isGap_space, isGap_space⟩

/-- A text that differs from a test method in its white space only is a test method. -/
theorem exists_spacedTest {g : Spacing} {display title b : List Char} (hg : g.IsGapped)
    (hdisplay : ∀ x ∈ display, isBlank x = false) (htitle : isPlainName title = true)
    (h : Alike (spacedTest g display title r) b) :
    ∃ g' r', b = spacedTest g' display title r' ∧ g'.IsGapped ∧ Alike r r' := by
  obtain ⟨y, s, rfl, hy, hs⟩ := exists_of_isPlainName htitle
  have htag : ∀ x ∈ testTag.toList, isBlank x = false := by decide
  have hbracket : ∀ x ∈ displayTag.toList ++ '(' :: (display ++ [')']), isBlank x = false := by
    have hopen : ∀ x ∈ displayTag.toList ++ ['('], isBlank x = false := by decide
    have hclose : ∀ x ∈ [')'], isBlank x = false := by decide
    rw [List.append_cons]
    exact List.forall_mem_append.mpr ⟨hopen, List.forall_mem_append.mpr ⟨hdisplay, hclose⟩⟩
  have htype : ∀ x ∈ voidType.toList, isBlank x = false := by decide
  have hname : ∀ x ∈ y :: s ++ ['(', ')'], isBlank x = false :=
    List.forall_mem_append.mpr
      ⟨fun x hx => isBlank_of_isWord (isWord_of_isPlainName htitle x hx), by decide⟩
  let a₄ := '\x7b' :: r
  let a₃ := y :: s ++ ['(', ')'] ++ (g.brace ++ a₄)
  let a₂ := voidType.toList ++ (g.type ++ a₃)
  let a₁ := displayTag.toList ++ '(' :: (display ++ [')']) ++ (g.display ++ a₂)
  have htext : spacedTest g display (y :: s) r = testTag.toList ++ (g.tag ++ a₁) := by
    simp [spacedTest, a₁, a₂, a₃, a₄]
  rw [htext] at h
  obtain ⟨g₁, b₁, rfl, hg₁, h₁⟩ := h.exists_append_gap htag hg.tag (head?_cons (by decide))
  obtain ⟨g₂, b₂, rfl, hg₂, h₂⟩ := h₁.exists_append_gap hbracket hg.display (head?_cons (by decide))
  obtain ⟨g₃, b₃, rfl, hg₃, h₃⟩ := h₂.exists_append_gap htype hg.type
    (head?_cons (of_isNameStart hy).2.1)
  obtain ⟨g₄, b₄, rfl, hg₄, h₄⟩ := h₃.exists_append_gap hname hg.brace (head?_cons (by decide))
  obtain ⟨r', rfl, hr⟩ := h₄.exists_cons (by decide)
  exact ⟨⟨g₁, g₂, g₃, g₄⟩, r', by simp [spacedTest], ⟨hg₁, hg₂, hg₃, hg₄⟩, hr⟩

theorem fails_modifier (h : ∀ y ∈ c.rest.head?, y ≠ 'p') :
    (anyOf ["public", "protected", "private"]).Fails c :=
  (fails_ofList h _).either ((fails_ofList h _).either (fails_ofList h _))

/-- A method without a modifier has none of these words. -/
theorem only_modifier (hc : c.rest = 'v' :: r) :
    (Pattern.optional (anyOf ["public", "protected", "private"] ++ gap)).Only c c := by
  refine ((fails_modifier fun y hy => ?_).seq _).optional
  rw [hc] at hy
  cases hy
  decide

theorem reads_void {g : List Char} {x : Char} (hc : c.rest = voidType.toList ++ (g ++ x :: r))
    (hg : IsGap g) (hx : isBlank x = false) :
    (Pattern.optional (.word "void" ++ .gap)).Reads c
      (c.past (voidType.toList ++ g) (x :: r)) := by
  obtain ⟨y, g, rfl⟩ := List.exists_cons_of_ne_nil hg.ne_nil
  have hvoid : (Pattern.word "void").Only c (c.past voidType.toList (y :: g ++ x :: r)) :=
    only_word hc
  have hgap : Pattern.gap.Only (c.past voidType.toList (y :: g ++ x :: r)) _ :=
    only_whole rfl hg.blank (head?_cons hx)
  rw [Cursor.past_past] at hgap
  exact (hvoid.seq hgap).reads.optional

/-- The annotation that a head begins with, and the white space after it. -/
theorem only_testTag {g : List Char} {x : Char} (hc : c.rest = testTag.toList ++ (g ++ x :: r))
    (hg : IsGap g) (hblank : isBlank x = false) (hparen : (x == '(') = false) :
    (.word "@Test" ++ .edge ++ annotationArguments ++ .blank : Pattern).Only c
      ((c.past testTag.toList (g ++ x :: r)).past g (x :: r)) := by
  obtain ⟨y, g, rfl⟩ := List.exists_cons_of_ne_nil hg.ne_nil
  let c₁ := c.past testTag.toList (y :: g ++ x :: r)
  have htest : (Pattern.word "@Test").Only c c₁ := only_word hc
  have hedge : Pattern.edge.Only c₁ c₁ := only_edge (by
    show (isWord 't' != isWord y) = true
    rw [isWord_of_isBlank (hg.blank y List.mem_cons_self)]
    decide)
  have hnone : annotationArguments.Only c₁ c₁ :=
    only_annotationArguments (g := y :: g) rfl hg.blank hblank hparen
  have hpass : Pattern.blank.Only c₁ (c₁.past (y :: g) (x :: r)) :=
    only_all rfl hg.blank (head?_cons hblank)
  exact ((htest.seq hedge).seq hnone).seq hpass

/-- The head of a test method with a display name is read up to its opening brace. -/
theorem reads_testHead {g : Spacing} {display title : List Char} (hg : g.IsGapped)
    (hdisplay : ∀ x ∈ display, (x != ')') = true) (htitle : IsWordName title)
    (hc : c.rest = spacedTest g display title r) :
    ∃ c', testHead.Reads c c' ∧ c'.rest = r ∧
      c'.spans.map Span.text = title :: c.spans.map Span.text := by
  obtain ⟨x, s, rfl⟩ := List.exists_cons_of_ne_nil htitle.ne_nil
  have hnotBlank : isBlank x = false := isBlank_of_isWord (htitle.word x List.mem_cons_self)
  let r₁ := '(' :: ')' :: (g.brace ++ '\x7b' :: r)
  let t := displayTag.toList ++ '(' :: (display ++ ')' :: (g.display ++
    (voidType.toList ++ (g.type ++ (x :: s ++ r₁)))))
  let c₂ := (c.past testTag.toList (g.tag ++ t)).past g.tag t
  have hbegin : (.word "@Test" ++ .edge ++ annotationArguments ++ .blank : Pattern).Only c c₂ :=
    only_testTag (x := '@') hc hg.tag (by decide) (by decide)
  -- the display name is an annotation, after which there is no other
  obtain ⟨c₃, hannotation, hrest₃, hspans₃⟩ := reads_furtherAnnotation (c := c₂) (x := 'D')
    (w := "isplayName".toList) (g := g.display) rfl (List.all_eq_true.mp (by decide)) hdisplay
    hg.display.blank (head?_cons (by decide))
  have hlast : furtherAnnotation.Fails c₃ :=
    (((fails_one (head?_of_rest hrest₃ rfl)).seq _).seq _).seq _
  have hannotations := hannotation.many (List.cons_ne_nil _ _) hlast
  -- neither a modifier nor anything else stands before the type
  have hmodifier := only_modifier hrest₃
  have hvoid := reads_void (r := s ++ r₁) hrest₃ hg.type hnotBlank
  let c₄ := c₃.past (voidType.toList ++ g.type) (x :: s ++ r₁)
  let c₅ := c₄.capture (c₄.past (x :: s) r₁)
  let c₆ := c₅.past ['(', ')'] (g.brace ++ '\x7b' :: r)
  have hname : (Pattern.capture name).Only c₄ c₅ :=
    (only_whole rfl htitle.word (head?_cons (by decide))).capture
  have hnoBlank : Pattern.blank.Only c₅ c₅ := only_all_nil (head?_cons (by decide))
  have hrest₅ : c₅.rest = '(' :: ([] ++ ')' :: (g.brace ++ '\x7b' :: r)) := rfl
  have hparens : plainParens.Only c₅ c₆ :=
    only_plainParens hrest₅ fun y hy => absurd hy List.not_mem_nil
  have hbody : bodyStart.Reads c₆ (c₆.past (g.brace ++ ['\x7b']) r) :=
    reads_bodyStart rfl hg.brace.blank
  have hannotated := hbegin.reads.seq hannotations
  have hnamed := ((hannotated.seq hmodifier.reads).seq hvoid).seq hname.reads
  refine ⟨_, ((hnamed.seq hnoBlank.reads).seq hparens.reads).seq hbody, rfl, ?_⟩
  have hspans := text_capture (c := c₄) (s := x :: s) (r := r₁) rfl
  show c₅.spans.map Span.text = _
  rw [hspans]
  exact congrArg (fun spans => (x :: s) :: spans.map Span.text) hspans₃

/-- The first match in the text of a named test method is its head. -/
theorem exists_findAll_namedTest {display title : List Char}
    (hdisplay : ∀ x ∈ display, (x != ')') = true) (htitle : IsWordName title)
    (r : List Char) :
    ∃ f fuel before, testHead.findAll (namedTest display title r) =
        f :: testHead.findAllFrom fuel before r ∧
      unitAt f = (closeAfter '\x7b' '\x7d' r).map fun c => testUnit title c.1 := by
  obtain ⟨c', hreads, hrest, hspans⟩ :=
    reads_testHead (c := ⟨none, namedTest display title r, 0, []⟩)
      isGapped_namedTest hdisplay htitle (namedTest_eq _ _ _)
  obtain ⟨x, more, hcs⟩ : ∃ x more, namedTest display title r = x :: more := ⟨_, _, rfl⟩
  rw [hcs] at hreads
  let f : Found := ⟨[], (x :: more).take c'.read, c'.spans.reverse.map Span.text, c'.rest⟩
  refine ⟨f, more, lastOf f none, ?_, ?_⟩
  · rw [hcs, findAll, findAllFrom, findFrom_of_reads hreads, ← hrest]
    rfl
  · have hcaptures : f.captures = [title] := by
      show c'.spans.reverse.map Span.text = [title]
      rw [List.map_reverse, hspans]
      rfl
    rw [unitAt, hcaptures, ← hrest]
    rfl

/-- **A named test method is found.** It has its name, and as its body the text up to the closing
brace that belongs to the opening one. -/
theorem exists_testUnits_eq_cons {display title r body rest : List Char}
    (hdisplay : ∀ x ∈ display, (x != ')') = true) (htitle : IsWordName title)
    (hbody : closeAfter '\x7b' '\x7d' r = some (body, rest)) {source : String}
    (hsource : source.toList = namedTest display title r) :
    ∃ others, testUnits source = testUnit title body :: others := by
  obtain ⟨f, fuel, before, hfound, hunit⟩ := exists_findAll_namedTest hdisplay htitle r
  rw [hbody] at hunit
  rw [testUnits, hsource, hfound]
  exact ⟨_, List.filterMap_cons_some hunit⟩

/-! ## Where there is no head -/

/-- The annotations that a head begins with. -/
def annotations : Pattern :=
  .word "@Test" ++ .edge ++ annotationArguments ++ .blank ++ .many furtherAnnotation

/-- What follows the annotations in a head. -/
def declaration : Pattern :=
  .optional (.anyOf ["public", "protected", "private"] ++ .gap) ++
    .optional (.word "void" ++ .gap) ++ .capture name ++ .blank ++ plainParens ++ bodyStart

theorem ends_testHead : ∀ c, testHead.ends c = (annotations ++ declaration).ends c :=
  ends_seq_of_ends_eq (ends_seq_of_ends_eq (ends_seq_of_ends_eq (ends_seq_of_ends_eq
    (ends_seq_of_ends_eq (fun _ => rfl) _) _) _) _) _

/-- There is no head where no declaration follows the annotations, however far these are read. -/
theorem fails_testHead {Q : Cursor → Prop} (hannotations : annotations.Each c Q)
    (hdeclaration : ∀ c', Q c' → declaration.Fails c') : testHead.Fails c := by
  show testHead.ends c = []
  rw [ends_testHead]
  exact hannotations.seq_fails hdeclaration

theorem fails_name {x : Char} (hc : c.rest = x :: r) (hx : isWord x = false) :
    (Pattern.capture name).Fails c :=
  ((fails_one (head?_of_rest hc hx)).seq _).capture

/-- A declaration begins with a word. -/
theorem fails_declaration_of_start {x : Char} (hc : c.rest = x :: r) (hx : isWord x = false) :
    declaration.Fails c := by
  have hother : ∀ {y : Char}, isWord y = true → ∀ z ∈ c.rest.head?, z ≠ y := by
    rintro y hy z hz rfl
    rw [hc] at hz
    cases hz
    rw [hx] at hy
    cases hy
  have hmodifier := fails_modifier (hother (y := 'p') (by decide))
  have hvoid : (Pattern.word "void").Fails c := fails_ofList (hother (y := 'v') (by decide)) _
  have hbefore := (hmodifier.seq .gap).optional.seq (hvoid.seq .gap).optional
  exact (((hbefore.seq_fails (fails_name hc hx)).seq _).seq _).seq _

/-- White space does not follow a word of a text that goes on with a parenthesis. -/
theorem fails_words_gap {words : List String} {w : List Char}
    (hwords : ∀ v ∈ words, '(' ∉ v.toList) (hc : c.rest = w ++ '(' :: r)
    (hw : ∀ y ∈ w, isWord y = true) : (anyOf words ++ gap).Fails c := by
  refine (each_anyOf words c).seq_fails fun c' hc' => ?_
  obtain ⟨v, hv, hrest⟩ := hc'
  rw [hc] at hrest
  -- what is left of the word and the parenthesis begins with no blank
  have hblank : ∀ y ∈ c'.rest.head?, isBlank y = false := by
    rcases append_eq_append_cons_iff.mp hrest.symm with ⟨m, hm, hr⟩ | ⟨m, hm, -⟩
    · rw [hr]
      cases m with
      | nil => exact head?_cons (by decide)
      | cons x m =>
          refine head?_cons (isBlank_of_isWord (hw x ?_))
          rw [hm]
          exact List.mem_append_right _ List.mem_cons_self
    · exact absurd (hm ▸ List.mem_append_right w List.mem_cons_self) (hwords v hv)
  exact (fails_one hblank).seq _

/-- What stands before a body with something else than an opening brace. -/
theorem fails_bodyStart {g t : List Char} {x : Char} (hc : c.rest = g ++ x :: t)
    (hgap : ∀ y ∈ g, isBlank y = true) (hblank : isBlank x = false) (hthrows : x ≠ 't')
    (hbrace : x ≠ '\x7b') : bodyStart.Fails c := by
  have hpass : Pattern.blank.Only c (c.past g (x :: t)) := only_all hc hgap (head?_cons hblank)
  have hclause : throwsClause.Fails (c.past g (x :: t)) := by
    refine (((fails_ofList (fun y hy => ?_) _).seq _).seq _)
    cases hy
    exact hthrows
  exact (hpass.seq hclause.optional).seq_fails
    (fails_one (head?_cons (beq_eq_false_iff_ne.mpr hbrace)))

/-- A name with something in parentheses is no declaration without a body. -/
theorem fails_declaration_of_call {w a b : List Char} (hc : c.rest = w ++ '(' :: (a ++ ')' :: b))
    (hw : ∀ y ∈ w, isWord y = true) (ha : ∀ y ∈ a, (y != ')') = true)
    (hbody : ∀ c' : Cursor, c'.rest = b → bodyStart.Fails c') : declaration.Fails c := by
  cases w with
  | nil => exact fails_declaration_of_start hc (by decide)
  | cons x s =>
      have hmodifier : (anyOf ["public", "protected", "private"] ++ gap).Fails c :=
        fails_words_gap (by decide) hc hw
      have hvoid : (anyOf ["void"] ++ gap).Fails c := fails_words_gap (by decide) hc hw
      let c₁ := c.capture (c.past (x :: s) ('(' :: (a ++ ')' :: b)))
      have hname : (Pattern.capture name).Only c c₁ :=
        (only_whole hc hw (head?_cons (by decide))).capture
      have hnoBlank : Pattern.blank.Only c₁ c₁ := only_all_nil (head?_cons (by decide))
      have hparens : plainParens.Only c₁ (c₁.past ('(' :: (a ++ [')'])) b) :=
        only_plainParens rfl ha
      have hbefore := hmodifier.optional.seq hvoid.optional
      exact (((hbefore.seq hname).seq hnoBlank).seq hparens).seq_fails (hbody _ rfl)

/-- No parentheses follow the name, whether or not its type is taken for the name. -/
theorem fails_declaration_of_title {w t : List Char} {x : Char}
    (hc : c.rest = voidType.toList ++ ' ' :: (w ++ x :: t)) (hw : ∀ y ∈ w, isWord y = true)
    (hne : w ≠ []) (hword : isWord x = false) (hblank : isBlank x = false) (hparen : x ≠ '(') :
    declaration.Fails c := by
  obtain ⟨z, s, rfl⟩ := List.exists_cons_of_ne_nil hne
  have hz : isWord z = true := hw z List.mem_cons_self
  have hmodifier := only_modifier hc
  -- the type may be passed over, or be left to be the name
  have hvoid : (Pattern.optional (.word "void" ++ .gap)).Each c fun c' =>
      c'.rest = z :: s ++ x :: t ∨ c'.rest = voidType.toList ++ ([' '] ++ z :: (s ++ x :: t)) := by
    have htype : (Pattern.word "void" ++ .gap).Only c
        ((c.past voidType.toList _).past [' '] (z :: s ++ x :: t)) :=
      (only_word (w := "void") hc).seq (only_whole (x := ' ') (s := []) rfl
        (List.all_eq_true.mp (by decide)) (head?_cons (isBlank_of_isWord hz)))
    exact (htype.each (.inl rfl)).optional (.inr hc)
  have hname : ∀ c' : Cursor, c'.rest = z :: s ++ x :: t ∨
      c'.rest = voidType.toList ++ ([' '] ++ z :: (s ++ x :: t)) →
      (Pattern.capture name).Each c' fun c₁ =>
        c₁.rest = x :: t ∨ c₁.rest = [' '] ++ z :: (s ++ x :: t) := by
    rintro c' (hrest | hrest)
    · exact (only_whole hrest hw (head?_cons hword)).capture.each (.inl rfl)
    · exact (only_whole (x := 'v') (s := ['o', 'i', 'd']) hrest (List.all_eq_true.mp (by decide))
        (head?_cons (by decide))).capture.each (.inr rfl)
  have hgap : ∀ c₁ : Cursor, c₁.rest = x :: t ∨ c₁.rest = [' '] ++ z :: (s ++ x :: t) →
      Pattern.blank.Each c₁ fun c₂ => ∃ y u, c₂.rest = y :: u ∧ y ≠ '(' := by
    rintro c₁ (hrest | hrest)
    · exact (only_all_nil (head?_of_rest hrest hblank)).each ⟨x, t, hrest, hparen⟩
    · refine (only_all hrest (List.all_eq_true.mp (by decide))
        (head?_cons (isBlank_of_isWord hz))).each ⟨z, _, rfl, ?_⟩
      rintro rfl
      exact absurd hz (by decide)
  refine Fails.seq (Each.seq_fails ((((hmodifier.each rfl).seq ?_).seq hname).seq hgap) ?_) _
  · rintro c' rfl
    exact hvoid
  · rintro c₂ ⟨y, u, hrest, hy⟩
    exact fails_plainParens hrest (beq_eq_false_iff_ne.mpr hy)

/-! ## What may follow the annotations -/

/-- The places after some of the annotations of a test with a display name: before the display
name, in its annotation, or before what follows it. -/
def StopsAt (a b tail : List Char) (c : Cursor) : Prop :=
  c.rest = displayTag.toList ++ '(' :: (a ++ ')' :: b) ∨
    (∃ w, (∀ y ∈ w, isWord y = true) ∧ c.rest = w ++ '(' :: (a ++ ')' :: b)) ∨ c.rest = tail

variable {a g t : List Char} {x : Char}

theorem each_annotationArguments {w b : List Char} (hc : c.rest = w ++ '(' :: (a ++ ')' :: b))
    (hw : ∀ y ∈ w, isWord y = true) (ha : ∀ y ∈ a, (y != ')') = true) :
    annotationArguments.Each c fun c' => c'.rest = w ++ '(' :: (a ++ ')' :: b) ∨ c'.rest = b := by
  cases w with
  | nil =>
      have hnone : Pattern.blank.Only c c := only_all_nil (head?_of_rest hc (by decide))
      exact ((hnone.seq (only_plainParens hc ha)).each (.inr rfl)).optional (.inl hc)
  | cons y s =>
      have hy : isWord y = true := hw y List.mem_cons_self
      have hparen : (y == '(') = false := by
        rw [beq_eq_false_iff_ne]
        rintro rfl
        exact absurd hy (by decide)
      exact (only_annotationArguments (g := []) hc (fun z hz => absurd hz List.not_mem_nil)
        (isBlank_of_isWord hy) hparen).each (.inl hc)

/-- The annotation of the display name leads to one of these places. -/
theorem each_displayAnnotation (hc : c.rest = displayTag.toList ++ '(' :: (a ++ ')' :: (g ++ x :: t)))
    (ha : ∀ y ∈ a, (y != ')') = true) (hgap : ∀ y ∈ g, isBlank y = true)
    (hblank : isBlank x = false) : furtherAnnotation.Each c (StopsAt a (g ++ x :: t) (x :: t)) := by
  let r := '(' :: (a ++ ')' :: (g ++ x :: t))
  have hsign : (Pattern.char '@').Only c (c.past ['@'] ('D' :: ("isplayName".toList ++ r))) :=
    only_one (x := '@') hc rfl
  have hname : (Pattern.oneOrMore isWord).Each (c.past ['@'] ('D' :: ("isplayName".toList ++ r)))
      fun c' => ∃ w, (∀ y ∈ w, isWord y = true) ∧ c'.rest = w ++ r := by
    have hfirst :
        (Pattern.one isWord).Only (c.past ['@'] ('D' :: ("isplayName".toList ++ r))) _ :=
      only_one rfl (by decide)
    refine (hfirst.each rfl).seq ?_
    rintro c' rfl
    refine (each_run (s := "isplayName".toList) (r := r) rfl (head?_cons (by decide))).mono ?_
    rintro c₂ ⟨w, hw, hrest⟩
    exact ⟨w, fun y hy => List.all_eq_true.mp (by decide) y (hw.subset hy), hrest⟩
  have harguments : ∀ c' : Cursor, (∃ w, (∀ y ∈ w, isWord y = true) ∧ c'.rest = w ++ r) →
      annotationArguments.Each c' fun c₂ =>
        (∃ w, (∀ y ∈ w, isWord y = true) ∧ c₂.rest = w ++ r) ∨ c₂.rest = g ++ x :: t := by
    rintro c' ⟨w, hw, hrest⟩
    exact (each_annotationArguments hrest hw ha).mono fun c₂ hc₂ =>
      hc₂.imp_left fun hrest₂ => ⟨w, hw, hrest₂⟩
  refine (((hsign.each rfl).seq ?_).seq harguments).seq ?_
  · rintro c' rfl
    exact hname
  · rintro c₂ (⟨w, hw, hrest⟩ | hrest)
    · have hstay : Pattern.blank.Only c₂ c₂ := by
        refine only_all_nil ?_
        rw [hrest]
        cases w with
        | nil => exact head?_cons (by decide)
        | cons y w => exact head?_cons (isBlank_of_isWord (hw y List.mem_cons_self))
      exact hstay.each (.inr (.inl ⟨w, hw, hrest⟩))
    · exact (only_all hrest hgap (head?_cons hblank)).each (.inr (.inr rfl))

/-- Further annotations lead from one of these places to another. -/
theorem each_furtherAnnotation (ha : ∀ y ∈ a, (y != ')') = true)
    (hgap : ∀ y ∈ g, isBlank y = true) (hblank : isBlank x = false) (hat : x ≠ '@')
    (hc : StopsAt a (g ++ x :: t) (x :: t) c) :
    furtherAnnotation.Each c (StopsAt a (g ++ x :: t) (x :: t)) := by
  have hnone : ∀ {y : Char} {u : List Char}, c.rest = y :: u → y ≠ '@' →
      furtherAnnotation.Each c (StopsAt a (g ++ x :: t) (x :: t)) := by
    intro y u hrest hy
    have hsign : (Pattern.char '@').Fails c :=
      fails_one (head?_of_rest hrest (beq_eq_false_iff_ne.mpr hy))
    exact (((hsign.seq _).seq _).seq _).each
  rcases hc with hrest | ⟨w, hw, hrest⟩ | hrest
  · exact each_displayAnnotation hrest ha hgap hblank
  · cases w with
    | nil => exact hnone hrest (by decide)
    | cons y w =>
        refine hnone hrest ?_
        rintro rfl
        exact absurd (hw '@' List.mem_cons_self) (by decide)
  · exact hnone hrest hat

/-- There is no head when neither a body nor a declaration follows the parentheses of the display
name. -/
theorem fails_testHead_of_bodyStart
    (hc : c.rest = testTag.toList ++ '\n' ::
      (displayTag.toList ++ '(' :: (a ++ ')' :: (g ++ x :: t))))
    (ha : ∀ y ∈ a, (y != ')') = true) (hgap : ∀ y ∈ g, isBlank y = true)
    (hblank : isBlank x = false) (hat : x ≠ '@')
    (hbody : ∀ c' : Cursor, c'.rest = g ++ x :: t → bodyStart.Fails c')
    (htail : ∀ c' : Cursor, c'.rest = x :: t → declaration.Fails c') : testHead.Fails c := by
  have hbegin := only_testTag (x := '@') hc isGap_feed (by decide) (by decide)
  have hannotations : annotations.Each c (StopsAt a (g ++ x :: t) (x :: t)) := by
    refine (hbegin.each (.inl rfl)).seq fun c' hc' => Each.many (fun c₂ hc₂ => ?_) hc'
    exact each_furtherAnnotation ha hgap hblank hat hc₂
  refine fails_testHead hannotations ?_
  rintro c' (hrest | ⟨w, hw, hrest⟩ | hrest)
  · exact fails_declaration_of_start hrest (by decide)
  · exact fails_declaration_of_call hrest hw ha hbody
  · exact htail c' hrest

/-- There is no head when no declaration follows the parentheses of the display name. -/
theorem fails_testHead_of_tail
    (hc : c.rest = testTag.toList ++ '\n' ::
      (displayTag.toList ++ '(' :: (a ++ ')' :: (g ++ x :: t))))
    (ha : ∀ y ∈ a, (y != ')') = true) (hgap : ∀ y ∈ g, isBlank y = true)
    (hblank : isBlank x = false) (hother : x ∉ ['@', 't', '\x7b'])
    (htail : ∀ c' : Cursor, c'.rest = x :: t → declaration.Fails c') : testHead.Fails c := by
  simp only [List.mem_cons, List.not_mem_nil, or_false, not_or] at hother
  obtain ⟨hat, hthrows, hbrace⟩ := hother
  exact fails_testHead_of_bodyStart hc ha hgap hblank hat
    (fun c' hc' => fails_bodyStart hc' hgap hblank hthrows hbrace) htail

/-! ## Texts without test methods -/

variable {skipped cs : List Char} {before : Option Char}

/-- A head begins with the annotation of test methods. -/
theorem fails_testHead_of_not_tag (h : ¬ testTag.toList <+: c.rest) : testHead.Fails c := by
  have htest : (Pattern.word "@Test").Fails c := fails_word h
  have hnone : annotations.Fails c := (((htest.seq _).seq _).seq _).seq _
  exact fails_testHead (Q := fun _ => False) hnone.each fun _ hc' => hc'.elim

theorem fails_testHead_of_start (h : ∀ y ∈ c.rest.head?, y ≠ '@') : testHead.Fails c := by
  refine fails_testHead_of_not_tag ?_
  rintro ⟨t, ht⟩
  rw [← ht] at h
  exact h '@' rfl rfl

/-- A text without the sign of annotations is passed over. -/
theorem finds_testHead_append {l : List (List (List Char) × List Char)} (hs : '@' ∉ s)
    (h : testHead.Finds (s.getLast?.or before) r l) : testHead.Finds before (s ++ r) l := by
  refine Finds.append (fun u x t hsplit => fails_testHead_of_start fun y hy => ?_) h
  cases hy
  rintro rfl
  exact hs (hsplit ▸ List.mem_append_right u List.mem_cons_self)

theorem finds_testHead_of_notMem (hcs : '@' ∉ cs) : testHead.Finds before cs [] := by
  rw [← List.append_nil cs]
  exact finds_testHead_append hcs (.done (fails_testHead_of_start fun y hy => nomatch hy))

/-- The head of a test method is found, and then what is found after it. -/
theorem finds_spacedTest {g : Spacing} {display title : List Char}
    {l : List (List (List Char) × List Char)} (hg : g.IsGapped)
    (hdisplay : ∀ x ∈ display, (x != ')') = true) (htitle : IsWordName title)
    (h : ∀ b, testHead.Finds b r l) :
    testHead.Finds before (spacedTest g display title r) (([title], r) :: l) := by
  obtain ⟨c', hreads, rfl, hspans⟩ :=
    reads_testHead (c := ⟨before, spacedTest g display title r, 0, []⟩) hg hdisplay htitle rfl
  obtain ⟨s, k, hto⟩ := hreads.exists_readsTo
  have hk : k = [title] := by
    have hall := hto.2.2
    rw [hspans] at hall
    exact (List.append_cancel_right hall).symm
  have hs : s ≠ [] := by
    rintro rfl
    have hlength := congrArg List.length hto.1
    simp only [spacedTest, List.length_append, List.length_cons, List.length_nil] at hlength
    omega
  have hfound := Finds.found hreads hto hs (h _)
  rwa [hk] at hfound

/-- The test method at a match; none when its body is not closed. -/
def unitOf (f : List (List Char) × List Char) : Option TestUnit :=
  f.1.head?.bind fun name => (closeAfter '\x7b' '\x7d' f.2).map fun c => testUnit name c.1

/-- The test methods of a text are those at the matches that are found. -/
theorem testUnits_of_finds {source : String} {l : List (List (List Char) × List Char)}
    (h : testHead.Finds none source.toList l) : testUnits source = l.filterMap unitOf := by
  rw [testUnits, ← h.findAll, List.filterMap_map]
  rfl

/-- Where no head begins with the annotation of test methods, the other annotation is passed over. -/
theorem finds_of_fails {e : List Char} {l : List (List (List Char) × List Char)}
    (hcs : cs = testTag.toList ++ '\n' :: (displayTag.toList ++ (e ++ r)))
    (hhead : testHead.Fails ⟨none, cs, 0, []⟩) (he : '@' ∉ e) (h : ∀ b, testHead.Finds b r l) :
    testHead.Finds none cs l := by
  let d := '@' :: ("DisplayName".toList ++ e ++ r)
  have htext : cs = '@' :: ("Test\n".toList ++ d) := hcs.trans (by simp [testTag, displayTag, d])
  have hname : '@' ∉ "DisplayName".toList ++ e := List.not_mem_append (by decide) he
  -- the other annotation is another one
  have hother : ¬ testTag.toList <+: d := by
    rintro ⟨t, ht⟩
    have hsecond : some 'T' = some 'D' := congrArg (fun cs => cs[1]?) ht
    exact absurd hsecond (by decide)
  have hdisplay : ∀ b, testHead.Finds b d l := fun b =>
    .skip (fails_testHead_of_not_tag hother) (finds_testHead_append hname (h _))
  rw [htext] at hhead ⊢
  exact .skip hhead (finds_testHead_append (by decide) (hdisplay _))

/-- An annotated method without a head is no test method. -/
theorem testUnits_eq_nil {source : String}
    (hsource : source.toList = testTag.toList ++ '\n' :: (displayTag.toList ++ r))
    (hhead : testHead.Fails ⟨none, source.toList, 0, []⟩) (hr : '@' ∉ r) :
    testUnits source = [] := by
  have hall : testHead.Finds none source.toList [] :=
    finds_of_fails (r := []) (by rw [hsource, List.append_nil]) hhead hr fun b =>
      finds_testHead_of_notMem List.not_mem_nil
  exact testUnits_of_finds hall

/-- Neither is one with a body that is not closed. -/
theorem testUnits_eq_nil_of_open {display title r : List Char}
    (hdisplay : ∀ x ∈ display, (x != ')') = true) (htitle : IsWordName title)
    (hbody : closeAfter '\x7b' '\x7d' r = none) (hr : '@' ∉ r) {source : String}
    (hsource : source.toList = namedTest display title r) : testUnits source = [] := by
  have hall : testHead.Finds none source.toList [([title], r)] := by
    rw [hsource, namedTest_eq]
    exact finds_spacedTest isGapped_namedTest hdisplay htitle fun b => finds_testHead_of_notMem hr
  have hnone : unitOf ([title], r) = none := by
    rw [unitOf, hbody]
    rfl
  rw [testUnits_of_finds hall, List.filterMap_cons_none hnone]
  rfl

end Testwright.Source
