import Testwright.Proofs.Source.Heads

/-!
# Comments in the bodies of test methods

A head of a test method goes up to an opening brace, and what stands behind the brace makes no
difference to it and to the heads before it (`exists_finds_replace`). So a comment on a line of its
own after the brace leaves all heads as they were. The body is closed by a scan that does not know
comments: main statement, the comment becomes a part of the body and nothing else changes, if it
leaves a scan as it was (`testUnits_commentLine`). A single apostrophe hides the test
(`testUnits_of_apostrophe`).
-/

namespace Testwright

namespace Source

open Text Pattern Cursor

variable {before : Option Char} {c c' d : Cursor} {s cs r caption : List Char}
  {k : List (List Char)} {l : List (List (List Char) × List Char)}

/-! ## Heads and what stands behind their braces -/

theorem isLocal_plainParens : plainParens.IsLocal := by
  rintro r r' c c' ⟨v, h⟩
  cases v with
  | nil =>
      rw [fails_plainParens h.left rfl, fails_plainParens h.right rfl]
      exact .nil
  | cons x v =>
      cases hx : x == '(' with
      | false =>
          rw [fails_plainParens h.left hx, fails_plainParens h.right hx]
          exact .nil
      | true =>
          obtain rfl := beq_iff_eq.mp hx
          -- the closing parenthesis stands before the brace
          obtain ⟨a, b, rfl, ha⟩ := List.eq_append_cons_of_mem (h.answered [] v rfl)
          have hinside : ∀ y ∈ a, (y != ')') = true := fun y hy =>
            bne_iff_ne.mpr fun h => ha (h ▸ hy)
          have htext : ∀ t, '(' :: (a ++ ')' :: b) ++ '\x7b' :: t =
              '(' :: (a ++ ')' :: (b ++ '\x7b' :: t)) := by
            intro t
            simp
          rw [only_plainParens (h.left.trans (htext r)) hinside,
            only_plainParens (h.right.trans (htext r')) hinside]
          rw [List.append_cons, ← List.cons_append] at h
          exact .cons ⟨b, h.past⟩ .nil

theorem isLocal_annotationArguments : annotationArguments.IsLocal :=
  (isLocal_blank.seq isLocal_plainParens).optional

theorem isLocal_furtherAnnotation : furtherAnnotation.IsLocal :=
  (((isLocal_one (by decide)).seq ((isLocal_one (by decide)).seq (isLocal_run (by decide)))).seq
    isLocal_annotationArguments).seq isLocal_blank

theorem ne_nil_of_spells_furtherAnnotation (h : furtherAnnotation.Spells s k) : s ≠ [] := by
  obtain ⟨_, _, _, _, rfl, -, ⟨_, _, _, _, rfl, -, ⟨_, _, _, _, rfl, -, hsign, -⟩, -⟩, -⟩ := h
  rw [(spells_char.mp hsign).1]
  exact List.cons_ne_nil _ _

theorem endsAtBrace_bodyStart : bodyStart.EndsAtBrace :=
  (isLocal_blank.seq (((isLocal_word (by decide)).seq (isLocal_one (by decide))).seq
    (isLocal_whole (by decide))).optional).endsAtBrace_seq endsAtBrace_brace

theorem endsAtBrace_testHead : testHead.EndsAtBrace := by
  have hfurther : IsLocal (.many furtherAnnotation) :=
    IsLocal.many isLocal_furtherAnnotation fun _ _ => ne_nil_of_spells_furtherAnnotation
  have hannotations : IsLocal (.word "@Test" ++ .edge ++ annotationArguments ++ .blank ++
      .many furtherAnnotation) :=
    ((((isLocal_word (by decide)).seq isLocal_edge).seq isLocal_annotationArguments).seq
      isLocal_blank).seq hfurther
  have hmodifier : IsLocal (.optional (.anyOf ["public", "protected", "private"] ++ .gap)) :=
    ((isLocal_anyOf (by decide)).seq isLocal_gap).optional
  have hvoid : IsLocal (.optional (.word "void" ++ .gap)) :=
    ((isLocal_word (by decide)).seq isLocal_gap).optional
  have hname : IsLocal (.capture name) := (isLocal_whole (by decide)).capture
  exact (((((hannotations.seq hmodifier).seq hvoid).seq hname).seq isLocal_blank).seq
    isLocal_plainParens).endsAtBrace_seq endsAtBrace_bodyStart

/-- A match with the text `r` behind a brace, from the match with what it leaves before the brace. -/
def leaving (r : List Char) (f : List (List Char) × List Char) : List (List Char) × List Char :=
  (f.1, f.2 ++ '\x7b' :: r)

theorem sameUpTo_start {v r' : List Char} (hv : ClosesLast v) :
    SameUpTo v r r' ⟨before, v ++ '\x7b' :: r, 0, []⟩ ⟨before, v ++ '\x7b' :: r', 0, []⟩ :=
  ⟨hv.answered, rfl, rfl, rfl, rfl, rfl⟩

/-- A head that ends before the text `w` and the brace is found with the other text behind it. -/
theorem finds_replace {v w r' : List Char} (hv : ClosesLast v)
    (h : testHead.Reads ⟨before, v ++ '\x7b' :: r, 0, []⟩ d)
    (hto : Cursor.ReadsTo ⟨before, v ++ '\x7b' :: r, 0, []⟩ d s k) (hs : s ≠ [])
    (hw : v ++ ['\x7b'] = s ++ w) (hl : testHead.Finds s.getLast? (w ++ r') l) :
    testHead.Finds before (v ++ '\x7b' :: r') ((k.reverse, w ++ r') :: l) := by
  obtain ⟨w', d', hw', -, hright, hreads, hto'⟩ :=
    endsAtBrace_testHead.reads (sameUpTo_start hv) h hto
  rw [hw] at hw'
  obtain rfl := List.append_cancel_left hw'
  have hfound := Finds.found hreads hto' hs (hright ▸ hl)
  rwa [hright] at hfound

/-- Behind the opening brace of a head, the text can be replaced: the earlier heads are found as they
were, then this one, and then the heads of the new text. -/
theorem exists_finds_replace {n : Nat} {name : List (List Char)} (h : testHead.Finds before cs l)
    (hn : l[n]? = some (name, r)) :
    ∃ (v : List Char) (heads : List (List (List Char) × List Char)), cs = v ++ '\x7b' :: r ∧
      ClosesLast v ∧ l.take n = heads.map (leaving r) ∧
      (∀ b, testHead.Finds b r (l.drop (n + 1))) ∧
      ∀ r' l', (∀ b, testHead.Finds b r' l') → testHead.Finds before (v ++ '\x7b' :: r')
        (heads.map (leaving r') ++ (name, r') :: l') := by
  induction h generalizing n with
  | done => cases hn
  | @skip before x cs l hfails _ ih =>
      obtain ⟨v, heads, rfl, hv, htake, hdrop, hreplace⟩ := ih hn
      refine ⟨x :: v, heads, rfl, hv.append [x], htake, hdrop,
        fun r' l' h' => .skip ?_ (hreplace r' l' h')⟩
      exact endsAtBrace_testHead.fails ⟨_, sameUpTo_start (hv.append [x])⟩ hfails
  | @found before cs s k d l hreads hto hs hrest ih =>
      have hcs : cs = s ++ d.rest := hto.1
      cases n with
      | zero =>
          cases hn
          obtain ⟨v, rfl, hv⟩ := exists_of_spells_testHead (hreads.spells hto)
          obtain rfl := hcs.trans (List.append_cons v _ _).symm
          exact ⟨v, [], rfl, hv, rfl, finds_testHead_congr hrest, fun r' l' h' =>
            finds_replace hv hreads hto hs (List.append_nil _).symm (h' _)⟩
      | succ n =>
          obtain ⟨v, heads, hrestv, hv, htake, hdrop, hreplace⟩ := ih hn
          rw [hrestv, ← List.append_assoc] at hcs
          obtain rfl := hcs
          refine ⟨s ++ v, (k.reverse, v) :: heads, rfl, hv.append s, ?_, hdrop, fun r' l' h' => ?_⟩
          · rw [List.take_succ_cons, htake, hrestv]
            rfl
          · have hlater := hreplace r' l' h'
            rw [List.append_cons] at hlater
            have hfound := finds_replace (hv.append s) hreads hto hs (List.append_assoc s v _) hlater
            rwa [← List.append_cons] at hfound

/-! ## A comment after the brace -/

variable {indent comment : List Char}

/-- A line up to its comment, after the brace of the line before. -/
def commentStart (indent : List Char) : List Char := '\n' :: (indent ++ ['/', '/', ' '])

/-- The end of a line that the text `r` follows: nothing when the text begins with a line feed. -/
def lineEnd (r : List Char) : List Char := if r.head? = some '\n' then [] else ['\n']

/-- A comment on a line of its own, after a brace that the text `r` follows. -/
def commentLine (indent comment r : List Char) : List Char :=
  commentStart indent ++ (comment ++ lineEnd r)

theorem exists_lineEnd (r : List Char) :
    ∃ r₁, (r = '\n' :: r₁ ∨ r = r₁) ∧ lineEnd r ++ r = '\n' :: r₁ := by
  by_cases hfeed : r.head? = some '\n'
  · obtain ⟨r₁, rfl⟩ := List.head?_eq_some_iff.mp hfeed
    exact ⟨r₁, .inl rfl, rfl⟩
  · exact ⟨r, .inr rfl, by rw [lineEnd, if_neg hfeed]; rfl⟩

/-- The comment is the same before a closing delimiter. -/
theorem commentLine_append {x : Char} (hx : x ≠ '\n') (body t : List Char) :
    commentLine indent comment (body ++ x :: t) = commentLine indent comment body := by
  cases body with
  | nil => simp [commentLine, lineEnd, hx]
  | cons y body => rfl

/-- No head of a test method begins in the text `s` when `r` follows it. -/
def HasNoHead (s r : List Char) : Prop :=
  ∀ u x t, s = u ++ x :: t → testHead.isMatch (x :: (t ++ r)) = false

theorem HasNoHead.append {t : List Char} (hs : HasNoHead s (t ++ r)) (ht : HasNoHead t r) :
    HasNoHead (s ++ t) r := by
  intro u x w hsplit
  rcases append_eq_append_cons_iff.mp hsplit with ⟨m, -, hm⟩ | ⟨m, hm, rfl⟩
  · exact ht m x w hm
  · rw [List.append_assoc]
    exact hs u x m hm

/-- A text in which no annotation of test methods begins has no head. -/
theorem hasNoHead_of_not_tag (h : ∀ u x t, s = u ++ x :: t → ¬ testTag.toList <+: x :: (t ++ r)) :
    HasNoHead s r := by
  intro u x t hsplit
  rw [isMatch, matchAt_of_fails (fails_testHead_of_not_tag (h u x t hsplit))]
  rfl

theorem hasNoHead_of_notMem (hs : '@' ∉ s) : HasNoHead s r := by
  refine hasNoHead_of_not_tag ?_
  rintro u x t rfl ⟨z, hz⟩
  have hx : '@' = x := (List.cons.inj hz).1
  exact hs (hx ▸ List.mem_append_right u List.mem_cons_self)

/-- There is no head in a comment without the annotation of test methods. -/
theorem hasNoHead_commentLine (hindent : ∀ x ∈ indent, isBlank x = true)
    (htag : ¬ testTag.toList <:+: comment) : HasNoHead (commentLine indent comment r) r := by
  have hstart : '@' ∉ commentStart indent := by
    have hblank : '@' ∉ indent := fun hmem => absurd (hindent '@' hmem) (by decide)
    simp [commentStart, hblank]
  have hend : '@' ∉ lineEnd r := by
    rw [lineEnd]
    split <;> decide
  obtain ⟨r₁, -, hr₁⟩ := exists_lineEnd r
  have hcomment : HasNoHead comment (lineEnd r ++ r) := by
    refine hasNoHead_of_not_tag ?_
    rintro u x t hsplit ⟨z, hz⟩
    rw [hr₁] at hz
    -- the annotation does not go beyond the line
    have hpart : testTag.toList <+: x :: t := prefix_of_notMem (x := '\n') (by decide) ⟨z, hz⟩
    exact htag (hpart.isInfix.trans (hsplit ▸ (List.suffix_append u (x :: t)).isInfix))
  exact (hasNoHead_of_notMem hstart).append (hcomment.append (hasNoHead_of_notMem hend))

/-- A text without heads is passed over. -/
theorem HasNoHead.finds (hs : HasNoHead s r) (h : ∀ b, testHead.Finds b r l) (b : Option Char) :
    testHead.Finds b (s ++ r) l := by
  refine Finds.append (fun u x t hsplit => ?_) (h _)
  have hfails := fails_of_matchAt_eq_none (Option.isNone_iff_eq_none.mp
    (Option.isSome_eq_false_iff.mp (hs u x t hsplit)))
  exact (ends_testHead_congr rfl rfl rfl).trans hfails

/-! ## The body with the comment -/

variable {d : Delimiters} {p : Nat × Marks.Mode Char}

theorem isInert_commentStart (hindent : ∀ x ∈ indent, isBlank x = true) :
    d.marks.IsInert (commentStart indent) := by
  have hblank : ∀ x, isBlank x = true → d.marks.IsNeutral x :=
    fun x => Delimiters.isNeutral_of_isBlank
  have hslash : d.marks.IsNeutral '/' := by
    cases d <;> refine ⟨⟨by decide, by decide, by decide⟩, by decide⟩
  refine Marks.isInert_of_isNeutral fun x hx => ?_
  simp only [commentStart, List.mem_cons, List.mem_append, List.not_mem_nil, or_false] at hx
  rcases hx with rfl | hx | rfl | rfl | rfl
  · exact hblank '\n' (by decide)
  · exact hblank x (hindent x hx)
  · exact hslash
  · exact hslash
  · exact hblank ' ' (by decide)

/-- A comment that leaves a scan as it was makes no difference to it. -/
theorem scan_commentLine (hp : d.marks.HasQuote p.2) (hsettled : p.2.settled = p.2)
    (hindent : ∀ x ∈ indent, isBlank x = true) (hcomment : d.marks.IsInert (comment ++ ['\n']))
    (r : List Char) : d.marks.scan p (commentLine indent comment r ++ r) = d.marks.scan p r := by
  have hline : d.marks.IsInert (commentStart indent ++ (comment ++ ['\n'])) :=
    (isInert_commentStart hindent).append hcomment
  have hfeed : d.marks.IsInert ['\n'] := Marks.isInert_of_isNeutral
    (List.forall_mem_singleton.mpr (Delimiters.isNeutral_of_isBlank (by decide)))
  obtain ⟨r₁, hr, hr₁⟩ := exists_lineEnd r
  have htext : commentLine indent comment r ++ r =
      commentStart indent ++ (comment ++ ['\n']) ++ r₁ := by
    rw [commentLine, List.append_assoc, List.append_assoc, hr₁]
    simp only [List.append_assoc, List.singleton_append]
  rw [htext, hline.scan_append hp hsettled]
  rcases hr with rfl | rfl
  · exact (hfeed.scan_append hp hsettled r₁).symm
  · rfl

/-- So the text around it is closed with the comment if it is closed without it. -/
theorem isSome_closeAfter_commentLine (hindent : ∀ x ∈ indent, isBlank x = true)
    (hcomment : d.marks.IsInert (comment ++ ['\n'])) (a r : List Char) :
    (closeAfter d.opener d.closer (a ++ d.opener :: (commentLine indent comment r ++ r))).isSome =
      (closeAfter d.opener d.closer (a ++ d.opener :: r)).isSome := by
  have hscan : d.marks.scan (0, .text) (a ++ d.opener :: (commentLine indent comment r ++ r)) =
      d.marks.scan (0, .text) (a ++ d.opener :: r) := by
    rw [Marks.scan_append, Marks.scan_append]
    cases ha : d.marks.scan (0, .text) a with
    | none => rfl
    | some p =>
        have hp : d.marks.HasQuote p.2 := Marks.HasQuote.scan (p := (0, .text)) trivial ha
        rw [Option.bind_some, Option.bind_some, Marks.scan_cons, Marks.scan_cons]
        cases hstep : d.marks.step p d.opener with
        | none => rfl
        | some p' =>
            exact scan_commentLine (hp.step hstep) (Marks.settled_of_step_opener hstep) hindent
              hcomment r
  rw [Bool.eq_iff_iff, Delimiters.isSome_closeAfter_iff, Delimiters.isSome_closeAfter_iff, hscan]

theorem nested_commentLine (hindent : ∀ x ∈ indent, isBlank x = true)
    (hcomment : d.marks.IsInert (comment ++ ['\n'])) {body : List Char}
    (hbody : d.marks.Nested body) : d.marks.Nested (commentLine indent comment body ++ body) := by
  rw [Marks.nested_iff_scan, scan_commentLine (p := (0, .text)) trivial rfl hindent hcomment]
  exact Marks.nested_iff_scan.mp hbody

/-! ## The test methods -/

/-- Whether there is a test method at a head, and its name, depends on whether its body is closed. -/
theorem map_name_unitOf {f g : List (List Char) × List Char} (hname : f.1 = g.1)
    (hclosed : (closeAfter '\x7b' '\x7d' f.2).isSome = (closeAfter '\x7b' '\x7d' g.2).isSome) :
    (unitOf f).map TestUnit.name = (unitOf g).map TestUnit.name := by
  rw [unitOf, unitOf, hname]
  cases g.1.head? with
  | none => rfl
  | some name =>
      rw [Option.bind_some, Option.bind_some, Option.map_map, Option.map_map]
      cases hf : closeAfter '\x7b' '\x7d' f.2 with
      | none =>
          rw [hf, Option.isSome_none, eq_comm, Option.isSome_eq_false_iff] at hclosed
          rw [Option.isNone_iff_eq_none.mp hclosed]
      | some c =>
          rw [hf, Option.isSome_some, eq_comm, Option.isSome_iff_exists] at hclosed
          obtain ⟨c', hg⟩ := hclosed
          rw [hg]
          rfl

theorem map_name_units (hindent : ∀ x ∈ indent, isBlank x = true)
    (hcomment : Delimiters.braces.marks.IsInert (comment ++ ['\n']))
    (heads : List (List (List Char) × List Char)) (r : List Char) :
    ((heads.map (leaving (commentLine indent comment r ++ r))).filterMap unitOf).map TestUnit.name =
      ((heads.map (leaving r)).filterMap unitOf).map TestUnit.name := by
  rw [List.map_filterMap, List.map_filterMap, List.filterMap_map, List.filterMap_map]
  refine List.filterMap_congr fun f _ => map_name_unitOf rfl ?_
  exact isSome_closeAfter_commentLine (d := .braces) hindent hcomment f.2 r

/-- The test method at a head whose brace a comment follows has the comment in its body, if and only
if the text up to the closing brace is nested with the comment. -/
theorem unitOf_commentLine_iff {name : List (List Char)} {u : TestUnit}
    (hunit : unitOf (name, r) = some u) :
    unitOf (name, commentLine indent comment r ++ r) =
        some (testUnit u.name.toList (commentLine indent comment r ++ u.body.toList)) ↔
      Delimiters.braces.marks.Nested (commentLine indent comment r ++ u.body.toList) := by
  obtain ⟨hname, -, rest, hr, -⟩ := exists_of_unitOf hunit
  constructor
  · intro h
    obtain ⟨-, -, -, -, hnested⟩ := exists_of_unitOf h
    rwa [testUnit, String.toList_ofList] at hnested
  · intro h
    have hclose : closeAfter '\x7b' '\x7d' (commentLine indent comment r ++ r) =
        some (commentLine indent comment r ++ u.body.toList, rest) :=
      (Delimiters.closeAfter_eq_some_iff (d := .braces)).mpr
        ⟨by rw [List.append_assoc]; exact congrArg _ hr, h⟩
    rw [unitOf, hname, Option.bind_some, hclose]
    rfl

/-- The matches in a text and in the text with a comment after the brace of one of its heads. -/
theorem exists_finds_commentLine {source commented before : List Char} {n : Nat} {f : Found}
    (hfound : (testHead.findAll source)[n]? = some f) (hsource : source = before ++ f.rest)
    (hcommented : commented = before ++ (commentLine indent comment f.rest ++ f.rest))
    (hhead : HasNoHead (commentLine indent comment f.rest) f.rest) :
    ∃ heads l : List (List (List Char) × List Char), heads.length = n ∧
      testHead.Finds none source (heads.map (leaving f.rest) ++ (f.captures, f.rest) :: l) ∧
      testHead.Finds none commented
        (heads.map (leaving (commentLine indent comment f.rest ++ f.rest)) ++
          (f.captures, commentLine indent comment f.rest ++ f.rest) :: l) := by
  obtain ⟨l, hl⟩ := exists_finds consumes_testHead none source
  have hn : l[n]? = some (f.captures, f.rest) := by
    rw [← hl.findAll, List.getElem?_map, hfound]
    rfl
  obtain ⟨hlt, hget⟩ := List.getElem?_eq_some_iff.mp hn
  obtain ⟨v, heads, htext, -, htake, hdrop, hreplace⟩ := exists_finds_replace hl hn
  have hlength : heads.length = n := by
    rw [← List.length_map (leaving f.rest), ← htake, List.length_take]
    omega
  have hpieces : heads.map (leaving f.rest) ++ (f.captures, f.rest) :: l.drop (n + 1) = l := by
    rw [← htake, ← hget, List.getElem_cons_drop, List.take_append_drop]
  have hbefore : before = v ++ ['\x7b'] := by
    rw [hsource, List.append_cons] at htext
    exact List.append_cancel_right htext
  refine ⟨heads, l.drop (n + 1), hlength, hpieces.symm ▸ hl, ?_⟩
  rw [hcommented, hbefore, ← List.append_cons]
  exact hreplace _ _ (hhead.finds hdrop)

/-- The test methods of a text, around a match whose place is known. -/
theorem units_of_finds {cs : List Char} {heads l : List (List (List Char) × List Char)}
    {f : List (List Char) × List Char} {n : Nat} (hlength : heads.length = n)
    (h : testHead.Finds none cs (heads ++ f :: l)) :
    heads.filterMap unitOf = ((testHead.findAll cs).take n).filterMap unitAt ∧
      l.filterMap unitOf = ((testHead.findAll cs).drop (n + 1)).filterMap unitAt ∧
      ∃ g, (testHead.findAll cs)[n]? = some g ∧ unitAt g = unitOf f := by
  have hall := h.findAll
  have hunits : ∀ fs : List Found,
      (fs.map fun f => (f.captures, f.rest)).filterMap unitOf = fs.filterMap unitAt :=
    fun fs => List.filterMap_map
  refine ⟨?_, ?_, ?_⟩
  · rw [← hunits, List.map_take, hall, ← hlength, List.take_left]
  · have hdrop : (heads ++ f :: l).drop (heads.length + 1) = l := by simp
    rw [← hunits, List.map_drop, hall, ← hlength, hdrop]
  · have hhere : (heads ++ f :: l)[n]? = some f := by simp [← hlength]
    rw [← hall, List.getElem?_map] at hhere
    obtain ⟨g, hg, rfl⟩ := Option.map_eq_some_iff.mp hhere
    exact ⟨g, hg, rfl⟩

/-- **A comment that leaves a scan as it was becomes a part of the body.** It stands on a line of its
own after the opening brace of a test method that is found, and no head of a test method begins in it.
The same heads are found as without it, whatever else it holds. The test method is found with it if
and only if its body is nested with it. If it leaves a scan as it was, then the test methods have the
same names in the same order, the body of this one is the former body with the line before it, and
the later ones are the same. -/
theorem testUnits_commentLine {source commented : String} {before : List Char} {n : Nat} {f : Found}
    {u : TestUnit} (hfound : (testHead.findAll source.toList)[n]? = some f)
    (hunit : unitAt f = some u) (hsource : source.toList = before ++ f.rest)
    (hcommented : commented.toList = before ++ (commentLine indent comment f.rest ++ f.rest))
    (hindent : ∀ x ∈ indent, isBlank x = true)
    (hhead : HasNoHead (commentLine indent comment f.rest) f.rest) :
    let body := commentLine indent comment f.rest ++ u.body.toList
    let earlier := ((testHead.findAll source.toList).take n).filterMap unitAt
    let later := ((testHead.findAll source.toList).drop (n + 1)).filterMap unitAt
    (testHead.findAll commented.toList).map Found.captures =
        (testHead.findAll source.toList).map Found.captures ∧
      (∃ g, (testHead.findAll commented.toList)[n]? = some g ∧
        (unitAt g = some (testUnit u.name.toList body) ↔ Delimiters.braces.marks.Nested body)) ∧
      testUnits source = earlier ++ u :: later ∧
      (Delimiters.braces.marks.IsInert (comment ++ ['\n']) →
        ∃ earlier', testUnits commented = earlier' ++ testUnit u.name.toList body :: later ∧
          earlier'.map TestUnit.name = earlier.map TestUnit.name) := by
  intro body earlier later
  obtain ⟨heads, l, hlength, hl, hl'⟩ :=
    exists_finds_commentLine hfound hsource hcommented hhead
  obtain ⟨hearlier, hlater, -⟩ := units_of_finds (by rw [List.length_map, hlength]) hl
  obtain ⟨-, -, g, hg, hunitg⟩ := units_of_finds (by rw [List.length_map, hlength]) hl'
  have hunit' : unitOf (f.captures, f.rest) = some u := hunit
  have hiff := @unitOf_commentLine_iff f.rest indent comment f.captures u hunit'
  refine ⟨?_, ⟨g, hg, hunitg ▸ hiff⟩, ?_, fun hcomment => ?_⟩
  · have hcaptures := congrArg (List.map Prod.fst) hl.findAll
    have hcaptures' := congrArg (List.map Prod.fst) hl'.findAll
    rw [List.map_map, List.map_append, List.map_map] at hcaptures hcaptures'
    exact hcaptures'.trans hcaptures.symm
  · rw [testUnits_of_finds hl, List.filterMap_append, List.filterMap_cons_some hunit', hearlier,
      hlater]
  · obtain ⟨-, -, rest, hrest, hnested⟩ := exists_of_unitOf hunit'
    have hline : commentLine indent comment f.rest = commentLine indent comment u.body.toList := by
      rw [hrest]
      exact commentLine_append (by decide) _ _
    have hbody : Delimiters.braces.marks.Nested body := by
      show Delimiters.braces.marks.Nested (commentLine indent comment f.rest ++ u.body.toList)
      rw [hline]
      exact nested_commentLine hindent hcomment hnested
    refine ⟨(heads.map (leaving _)).filterMap unitOf, ?_,
      (map_name_units hindent hcomment heads f.rest).trans (congrArg _ hearlier)⟩
    rw [testUnits_of_finds hl', List.filterMap_append, List.filterMap_cons_some (hiff.mpr hbody),
      hlater]

/-- A comment in the body of the second of two test methods. -/
theorem testUnits_of_comment :
    ∃ first,
      testUnits "@Test void a() \x7b\x7d\n@Test void b() \x7b\n// once (more)\n  f();\x7d" =
        [first, testUnit "b".toList "\n// once (more)\n  f();".toList] ∧
      first.name = "a" := by
  have hfound : (testHead.findAll
      "@Test void a() \x7b\x7d\n@Test void b() \x7b\n  f();\x7d".toList)[1]? =
      some ⟨"\x7d\n".toList, "@Test void b() \x7b".toList, ["b".toList], "\n  f();\x7d".toList⟩ := by
    rfl
  have hclose : closeAfter '\x7b' '\x7d' "\n  f();\x7d".toList = some ("\n  f();".toList, []) := by
    decide
  have hunit : unitAt
      ⟨"\x7d\n".toList, "@Test void b() \x7b".toList, ["b".toList], "\n  f();\x7d".toList⟩ =
      some (testUnit "b".toList "\n  f();".toList) :=
    congrArg (Option.map fun c : List Char × List Char => testUnit "b".toList c.1) hclose
  have hhead : ∀ r, HasNoHead (commentLine [] "once (more)".toList r) r := fun r =>
    hasNoHead_commentLine (fun _ hx => absurd hx List.not_mem_nil) fun h =>
      absurd (h.subset (show '@' ∈ testTag.toList by decide)) (by decide)
  have hinert : Delimiters.braces.marks.IsInert ("once (more)".toList ++ ['\n']) := by
    refine Marks.isInert_of_isNeutral ?_
    show ∀ x ∈ "once (more)\n".toList,
      (x ≠ '\x7b' ∧ x ≠ '\x7d' ∧ ¬ (x = '"' ∨ x = '\'')) ∧ x ≠ '\\'
    decide
  obtain ⟨-, -, -, hcomment⟩ := @testUnits_commentLine [] "once (more)".toList _
    "@Test void a() \x7b\x7d\n@Test void b() \x7b\n// once (more)\n  f();\x7d"
    "@Test void a() \x7b\x7d\n@Test void b() \x7b".toList _ _ _ hfound hunit (by decide) (by decide)
    (fun _ hx => absurd hx List.not_mem_nil) (hhead _)
  obtain ⟨earlier, hunits, hnames⟩ := hcomment hinert
  have hearlier : earlier.map TestUnit.name = ["a"] := hnames.trans (by decide +kernel)
  obtain ⟨first, rfl, hname⟩ := List.map_eq_singleton_iff.mp hearlier
  have hlater : ((testHead.findAll
      "@Test void a() \x7b\x7d\n@Test void b() \x7b\n  f();\x7d".toList).drop 2).filterMap unitAt =
      [] := by decide +kernel
  refine ⟨first, ?_, hname⟩
  rw [hunits, hlater]
  rfl

/-- **A single apostrophe hides a test method.** -/
theorem testUnits_of_apostrophe :
    (testUnits "@Test\nvoid adds() \x7b\n    check();\n\x7d").map TestUnit.name = ["adds"] ∧
      testUnits "@Test\nvoid adds() \x7b\n// don't\n    check();\n\x7d" = [] := by
  decide +kernel

end Source

end Testwright
