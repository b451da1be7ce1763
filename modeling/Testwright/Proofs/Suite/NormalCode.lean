import Testwright.Proofs.Path.Literal
import Testwright.Proofs.Source.Declarations
import Testwright.Proofs.Text.Replacing
import Testwright.Suite.Hybrid

/-!
# The four steps to the normal code of a test

The normal code of a test leaves out its comments, its display name and its own name, and has one
blank for each white space. Each of these steps replaces the tokens of a pattern, which are
described here; white space at the end of a text and the length of each white space make no
difference to the last three steps (`plainCode_append_blank`, `plainCode_eq_of_alike`).
-/

namespace Testwright

open Text Source Text.Pattern

variable {a b cs d g r s w : List Char} {x : Char}

/-! ## The steps -/

/-- A text without its comments. -/
def uncommented (cs : List Char) : List Char := rowComment.replaceAll [] cs

/-- A text without its display names. -/
def untitled (cs : List Char) : List Char := displayName.replaceAll [] cs

/-- A text in which all test methods have the same name. -/
def unnamed (cs : List Char) : List Char := testDeclaration.replaceAll "void test()".toList cs

/-- A text with one blank for each white space. -/
def singleSpaced (cs : List Char) : List Char := Pattern.gap.replaceAll [' '] cs

/-- A text after the last two steps, without the white space at its ends. -/
def plainCode (cs : List Char) : List Char := trim (singleSpaced (unnamed cs))

theorem normalCode_eq (cs : List Char) :
    normalCode cs = plainCode (untitled (uncommented cs)) := rfl

theorem TestCase.signature_eq_iff {t u : TestCase} (h : t.targetMethod = u.targetMethod) :
    t.signature = u.signature ↔ normalCode t.code.toList = normalCode u.code.toList := by
  rw [signature, signature, h, String.append_right_inj, String.ofList_inj]

/-! ## Comments -/

/-- A comment in one row. -/
def IsRowComment (d : List Char) : Prop := ∃ w, d = '/' :: '/' :: w ∧ '\n' ∉ w

theorem isInline_of_notMem (hw : '\n' ∉ w) : ∀ y ∈ w, isInline y = true := fun _ hy =>
  bne_iff_ne.mpr fun heq => hw (heq ▸ hy)

theorem notMem_of_isInline (hw : ∀ x ∈ w, isInline x = true) : '\n' ∉ w := fun hmem =>
  absurd (hw '\n' hmem) (by decide)

theorem recognizes_rowComment : rowComment.Recognizes (Whole IsRowComment isInline) := by
  refine recognizes_whole ?_ ?_ ?_
  · rintro _ ⟨w, rfl, -⟩
    exact List.cons_ne_nil _ _
  · rintro _ _ ⟨_, w, _, _, rfl, -, hword, hw, -⟩
    rw [(spells_word.mp hword).1]
    exact ⟨w, rfl, notMem_of_isInline hw⟩
  · rintro _ r before ⟨w, rfl, hw⟩ hr
    let c : Cursor := ⟨before, '/' :: '/' :: w ++ r, 0, []⟩
    have hslashes : (Pattern.word "//").Only c (c.past "//".toList (w ++ r)) := only_word rfl
    have hinline := only_all (c := c.past "//".toList (w ++ r)) rfl (isInline_of_notMem hw) hr
    rw [Cursor.past_past] at hinline
    exact (hslashes.seq hinline).reads

theorem notMem_of_isRowComment (h : IsRowComment d) : '\n' ∉ d := by
  obtain ⟨w, rfl, hw⟩ := h
  simpa using hw

/-- The rows of a text lose their comments one by one. -/
theorem uncommented_feed (a b : List Char) :
    uncommented (a ++ '\n' :: b) = uncommented a ++ '\n' :: uncommented b :=
  recognizes_rowComment.replaceAll_stop (fun _ _ hd => notMem_of_isRowComment hd.1)
    (fun _ _ => whole_append_cons_iff rfl) a

/-- A comment is under way at the end of the text. -/
def InComment (cs : List Char) : Prop := ∃ u w, cs = u ++ '/' :: '/' :: w ∧ '\n' ∉ w

theorem InComment.of_suffix (h : InComment a) (ha : a <:+ cs) : InComment cs := by
  obtain ⟨u, w, rfl, hw⟩ := h
  obtain ⟨t, rfl⟩ := ha
  exact ⟨t ++ u, w, (List.append_assoc _ _ _).symm, hw⟩

/-- Where no comment is under way, none goes on. -/
theorem seam_rowComment (ha : ¬ InComment a) (hx : x ≠ '/') (b : List Char) :
    Seam (Whole IsRowComment isInline) a (x :: b) where
  ends u d t hu hne hcs hd := by
    obtain ⟨w, rfl, hw⟩ := hd.1
    obtain ⟨v, rfl, hv⟩ : ∃ v, u = '/' :: '/' :: v ∧ v ++ x :: b = w ++ t := by
      match u, hne with
      | [y], _ => exact absurd (List.cons.inj (List.cons.inj hcs).2).1 hx
      | y :: z :: v, _ =>
          simp only [List.cons_append, List.cons.injEq] at hcs
          obtain ⟨rfl, rfl, hrest⟩ := hcs
          exact ⟨v, rfl, hrest⟩
    -- the row of the comment ends in the text
    have hfeed : '\n' ∈ v := Classical.byContradiction fun hnone =>
      ha (InComment.of_suffix ⟨[], v, rfl, hnone⟩ hu)
    obtain ⟨p, q, rfl⟩ := List.append_of_mem hfeed
    rw [List.append_assoc] at hv
    obtain ⟨p, rfl⟩ := prefix_of_notMem hw ⟨t, hv.symm⟩
    rw [List.append_assoc, List.append_cancel_left_eq] at hv
    rw [← hv, List.cons_append, whole_append_cons_iff rfl] at hd
    exact ⟨p ++ '\n' :: q, by simp, (whole_append_cons_iff rfl).mpr hd⟩
  lasts d w hdw hd := by
    refine ⟨hd.1, ?_⟩
    cases w with
    | nil =>
        obtain ⟨w, rfl, hw⟩ := hd.1
        rw [List.append_nil] at hdw
        exact absurd (InComment.of_suffix ⟨[], w, rfl, hw⟩ hdw) ha
    | cons y w => exact hd.2

theorem uncommented_append (ha : ¬ InComment a) (hx : x ≠ '/') (b : List Char) :
    uncommented (a ++ x :: b) = uncommented a ++ x :: uncommented b := by
  have hcons : ∀ d t, x :: b = d ++ t → ¬ Whole IsRowComment isInline d t := by
    rintro d t hcs ⟨⟨w, rfl, -⟩, -⟩
    exact hx (List.cons.inj hcs).1
  show rowComment.replaceAll [] (a ++ x :: b) = _
  rw [recognizes_rowComment.replaceAll_append (seam_rowComment ha hx b),
    recognizes_rowComment.replaceAll_cons hcons]
  rfl

/-- A comment goes on to the end of its row. -/
theorem uncommented_row (hw : '\n' ∉ w) : uncommented ('/' :: '/' :: w) = [] := by
  have htoken : Whole IsRowComment isInline ('/' :: '/' :: w) [] :=
    ⟨⟨w, rfl, hw⟩, fun x hx => absurd hx (Option.not_mem_none x)⟩
  have hrow := recognizes_rowComment.replaceAll_token (s := []) htoken
  rwa [List.append_nil, replaceAll_nil] at hrow

theorem uncommented_cons (hx : ¬ ['/', '/'] <+: x :: r) :
    uncommented (x :: r) = x :: uncommented r := by
  refine recognizes_rowComment.replaceAll_cons ?_
  rintro _ t hcs ⟨⟨w, rfl, -⟩, -⟩
  exact hx ⟨w ++ t, hcs.symm⟩

theorem uncommented_feed_cons (b : List Char) : uncommented ('\n' :: b) = '\n' :: uncommented b :=
  uncommented_cons (by simp)

theorem uncommented_blank_append (hg : ∀ x ∈ g, isBlank x = true) (b : List Char) :
    uncommented (g ++ b) = g ++ uncommented b := by
  induction g with
  | nil => rfl
  | cons x g ih =>
      have hx : ¬ ['/', '/'] <+: x :: (g ++ b) := by
        rintro ⟨t, ht⟩
        rw [← (List.cons.inj ht).1] at hg
        exact absurd (hg '/' List.mem_cons_self) (by decide)
      rw [List.cons_append, uncommented_cons hx, ih fun y hy => hg y (List.mem_cons_of_mem x hy)]
      rfl

theorem uncommented_eq_self (h : ¬ ['/', '/'] <:+: a) : uncommented a = a := by
  refine (recognizes_rowComment.replaced [] a).eq_self ?_
  rintro _ r ⟨t, rfl⟩ ⟨⟨w, rfl, -⟩, -⟩
  exact absurd ⟨t, w ++ r, by simp⟩ h

/-- In one row, the first comment is the same whatever the last one says. -/
theorem uncommented_comment_row {u : List Char} (hu : '\n' ∉ u) (hw : '\n' ∉ w) :
    uncommented (u ++ '/' :: '/' :: w) = uncommented (u ++ ['/', '/']) := by
  induction u with
  | nil =>
      rw [List.nil_append, List.nil_append, uncommented_row hw, uncommented_row List.not_mem_nil]
  | cons y u ih =>
      have hbegins : ∀ v, ['/', '/'] <+: y :: (u ++ '/' :: '/' :: v) ↔
          ['/', '/'] <+: y :: (u ++ ['/', '/']) := by
        intro v
        cases u <;> simp
      by_cases hhere : ['/', '/'] <+: y :: (u ++ ['/', '/'])
      · have hempty : ∀ v, '\n' ∉ v → uncommented (y :: u ++ '/' :: '/' :: v) = [] := by
          intro v hv
          obtain ⟨t, ht⟩ := (hbegins v).mpr hhere
          have hall : '\n' ∉ ['/', '/'] ++ t := by
            rw [ht]
            simpa [hv] using hu
          rw [List.cons_append, ← ht]
          exact uncommented_row fun hmem => hall (List.mem_append_right _ hmem)
        rw [hempty w hw, hempty [] List.not_mem_nil]
      · rw [List.cons_append, List.cons_append, uncommented_cons (mt (hbegins w).mp hhere),
          uncommented_cons hhere, ih fun hmem => hu (List.mem_cons_of_mem y hmem)]

/-- What a comment says makes no difference. -/
theorem uncommented_comment (u : List Char) (hw : '\n' ∉ w) :
    uncommented (u ++ '/' :: '/' :: w) = uncommented (u ++ ['/', '/']) := by
  obtain ⟨p, q, rfl, hq, hp⟩ := exists_split_last isInline u
  have hrow := notMem_of_isInline hq
  rcases List.eq_nil_or_concat p with rfl | ⟨p, x, rfl⟩
  · exact uncommented_comment_row hrow hw
  · -- the last row on its own
    rw [List.concat_eq_append] at hp ⊢
    obtain rfl : x = '\n' := by simpa [isInline] using hp x List.getLast?_concat
    rw [List.append_assoc, List.append_assoc, List.append_assoc, List.append_assoc,
      List.singleton_append, List.singleton_append, uncommented_feed, uncommented_feed,
      uncommented_comment_row hrow hw]

/-- The text of a comment goes up to the end of its row. -/
theorem uncommented_comment_append (u : List Char) {t : List Char} (hw : '\n' ∉ w)
    (ht : ∀ x ∈ t.head?, isInline x = false) :
    uncommented (u ++ '/' :: '/' :: (w ++ t)) = uncommented (u ++ ['/', '/']) ++ uncommented t := by
  rw [← uncommented_comment u hw]
  cases t with
  | nil => rw [List.append_nil, show uncommented [] = [] from rfl, List.append_nil]
  | cons x t =>
      obtain rfl : x = '\n' := by simpa [isInline] using ht x rfl
      rw [uncommented_feed_cons, ← uncommented_feed, List.append_assoc]
      rfl

/-- What a comment says makes no difference to what stands before and after it either. -/
theorem uncommented_comment_congr (u v : List Char) {w' : List Char} (hw : '\n' ∉ w)
    (hw' : '\n' ∉ w') : uncommented (u ++ '/' :: '/' :: (w ++ v)) =
      uncommented (u ++ '/' :: '/' :: (w' ++ v)) := by
  obtain ⟨s, t, rfl, hs, ht⟩ := exists_split isInline v
  have hrow := notMem_of_isInline hs
  rw [← List.append_assoc, ← List.append_assoc,
    uncommented_comment_append u (List.not_mem_append hw hrow) ht,
    uncommented_comment_append u (List.not_mem_append hw' hrow) ht]

/-! ## White space -/

theorem recognizes_gap : Pattern.gap.Recognizes (Whole IsGap isBlank) := by
  refine recognizes_whole (q := .one isBlank) (fun d hd => hd.ne_nil) ?_ ?_
  · intro d k hd
    obtain ⟨⟨hne, hblank⟩, -⟩ := spells_gap.mp hd
    exact ⟨hne, hblank⟩
  · intro d r before hd hr
    obtain ⟨x, d, rfl⟩ := List.exists_cons_of_ne_nil hd.ne_nil
    exact (only_whole rfl hd.blank hr).reads

theorem singleSpaced_append (hx : isBlank x = false) (a b : List Char) :
    singleSpaced (a ++ x :: b) = singleSpaced a ++ x :: singleSpaced b := by
  refine recognizes_gap.replaceAll_stop (fun d t hd hmem => ?_)
    (fun _ _ => whole_append_cons_iff hx) a
  rw [hd.1.blank x hmem] at hx
  cases hx

theorem singleSpaced_gap (hg : IsGap g) : singleSpaced g = [' '] := by
  have hwhole : Whole IsGap isBlank g [] := ⟨hg, fun x hx => absurd hx (Option.not_mem_none x)⟩
  have hgap := recognizes_gap.replaceAll_token (s := [' ']) hwhole
  rwa [List.append_nil, replaceAll_nil] at hgap

theorem singleSpaced_eq_of_alike (h : Alike a b) : singleSpaced a = singleSpaced b := by
  have hall : ∀ {a out}, Replaced (Whole IsGap isBlank) [' '] a out → ∀ {b}, Alike a b →
      Replaced (Whole IsGap isBlank) [' '] b out := by
    intro a out hout
    induction hout with
    | nil =>
        intro b h
        rw [h.eq_nil]
        exact .nil
    | @token d r out hd _ ih =>
        intro b h
        obtain ⟨g, b', rfl, hne, hg, hr⟩ := h.exists_gap hd.1.blank hd.2
        exact .token ⟨⟨hne hd.1.ne_nil, hg⟩, hr.head?_eq_false hd.2⟩ (ih hr)
    | @skip x r out hx _ ih =>
        intro b h
        have hblank : isBlank x = false := by
          obtain ⟨g, t, hcs, hg, ht⟩ := exists_split isBlank (x :: r)
          cases g with
          | nil =>
              rw [List.nil_append] at hcs
              exact ht x (hcs ▸ rfl)
          | cons y g => exact absurd ⟨⟨List.cons_ne_nil y g, hg⟩, ht⟩ (hx _ t hcs)
        obtain ⟨b', rfl, hr⟩ := h.exists_cons hblank
        refine .skip (fun d t hcs hd => ?_) (ih hr)
        obtain ⟨y, d, rfl⟩ := List.exists_cons_of_ne_nil hd.1.ne_nil
        obtain ⟨rfl, -⟩ := List.cons.inj hcs
        rw [hd.1.blank x List.mem_cons_self] at hblank
        cases hblank
  exact (recognizes_gap.replaced_iff.mp (hall (recognizes_gap.replaced [' '] a) h)).symm

theorem isBlank_of_mem_singleSpaced (hg : ∀ x ∈ g, isBlank x = true) :
    ∀ x ∈ singleSpaced g, isBlank x = true := by
  by_cases hne : g = []
  · rw [hne]
    exact fun x hx => absurd hx List.not_mem_nil
  · rw [singleSpaced_gap ⟨hne, hg⟩]
    exact isGap_space.blank

/-- White space at the end of a text is white space afterwards. -/
theorem exists_singleSpaced_append (a : List Char) :
    ∃ core, ∀ g, (∀ x ∈ g, isBlank x = true) →
      ∃ g', (∀ x ∈ g', isBlank x = true) ∧ singleSpaced (a ++ g) = core ++ g' := by
  obtain ⟨p, h, rfl, hh, hp⟩ := exists_split_last isBlank a
  have hends : ∀ g, (∀ x ∈ g, isBlank x = true) → ∀ x ∈ h ++ g, isBlank x = true :=
    fun g hg => List.forall_mem_append.mpr ⟨hh, hg⟩
  rcases List.eq_nil_or_concat p with rfl | ⟨p, x, rfl⟩
  · exact ⟨[], fun g hg => ⟨singleSpaced (h ++ g), isBlank_of_mem_singleSpaced (hends g hg), rfl⟩⟩
  · -- the last character that is not white space
    rw [List.concat_eq_append] at hp ⊢
    refine ⟨singleSpaced p ++ [x], fun g hg =>
      ⟨singleSpaced (h ++ g), isBlank_of_mem_singleSpaced (hends g hg), ?_⟩⟩
    have hcs : p ++ [x] ++ h ++ g = p ++ x :: (h ++ g) := by simp
    rw [hcs, singleSpaced_append (hp x List.getLast?_concat)]
    simp

theorem trim_singleSpaced_append (hg : ∀ x ∈ g, isBlank x = true) (a : List Char) :
    trim (singleSpaced (a ++ g)) = trim (singleSpaced a) := by
  obtain ⟨core, hcore⟩ := exists_singleSpaced_append a
  have htrim : ∀ g, (∀ x ∈ g, isBlank x = true) → trim (singleSpaced (a ++ g)) = trim core := by
    intro g hg
    obtain ⟨g', hg', hspaced⟩ := hcore g hg
    rw [hspaced]
    exact trim_append_blank (g := []) (fun x hx => absurd hx List.not_mem_nil) hg'
  have hnone := htrim [] fun x hx => absurd hx List.not_mem_nil
  rw [List.append_nil] at hnone
  rw [htrim g hg, hnone]

/-! ## Display names -/

/-- The annotation with a display name, up to its closing parenthesis. -/
def IsTitleHead (s : List Char) : Prop :=
  ∃ g b, s = displayTag.toList ++ (g ++ '(' :: b) ∧ (∀ x ∈ g, isBlank x = true) ∧ ')' ∉ b

/-- The annotation with a display name. -/
def IsTitle (d : List Char) : Prop := ∃ s, d = s ++ [')'] ∧ IsTitleHead s

theorem isBlank_of_mem_displayTag : ∀ x ∈ displayTag.toList, isBlank x = false := by decide

theorem IsTitleHead.head? (h : IsTitleHead s) : s.head? = some '@' := by
  obtain ⟨g, b, rfl, -⟩ := h
  rfl

theorem IsTitleHead.paren_notMem (h : IsTitleHead s) : ')' ∉ s := by
  obtain ⟨g, b, rfl, hg, hb⟩ := h
  have hgap : ')' ∉ g := fun hmem => absurd (hg ')' hmem) (by decide)
  simp [hgap, hb, displayTag]

theorem IsTitleHead.append (h : IsTitleHead s) (ha : ')' ∉ a) : IsTitleHead (s ++ a) := by
  obtain ⟨g, b, rfl, hg, hb⟩ := h
  exact ⟨g, b ++ a, by simp, hg, List.not_mem_append hb ha⟩

/-- A character that stands in the annotation before its arguments, not as the first. -/
def isTagChar (x : Char) : Bool := isWord x || isBlank x || x == '('

/-- The arguments of an annotation begin before any character that may only stand in them. -/
theorem IsTitleHead.of_append (h : IsTitleHead (a ++ x :: b)) (ha : a ≠ [])
    (hx : isTagChar x = false) : IsTitleHead a := by
  obtain ⟨g, c, hcs, hg, hc⟩ := h
  have hsplit : (displayTag.toList ++ (g ++ ['('])) ++ c = a ++ x :: b := by
    rw [hcs]
    simp
  rcases append_eq_append_cons_iff.mp hsplit with ⟨w, rfl, rfl⟩ | ⟨w, htag, -⟩
  · exact ⟨g, w, by simp, hg, fun hmem => hc (List.mem_append_left _ hmem)⟩
  · obtain ⟨y, a, rfl⟩ := List.exists_cons_of_ne_nil ha
    have htail : '@' :: ("DisplayName".toList ++ (g ++ ['('])) = y :: (a ++ x :: w) := htag
    have hmem : x ∈ "DisplayName".toList ++ (g ++ ['(']) := by
      rw [(List.cons.inj htail).2]
      exact List.mem_append_right a List.mem_cons_self
    have hall : ∀ z ∈ "DisplayName".toList ++ (g ++ ['(']), isTagChar z = true := by
      refine List.forall_mem_append.mpr ⟨by decide, List.forall_mem_append.mpr ⟨?_, by decide⟩⟩
      intro z hz
      show (isWord z || isBlank z || z == '(') = true
      rw [hg z hz, Bool.or_true, Bool.true_or]
    rw [hall x hmem] at hx
    cases hx

theorem recognizes_displayName : displayName.Recognizes fun d _ => IsTitle d := by
  refine recognizes_of_spells ?_ ?_ ?_
  · rintro _ ⟨s, rfl, -⟩
    exact List.append_ne_nil_of_right_ne_nil s (List.cons_ne_nil _ _)
  · rintro _ _ ⟨_, _, _, _, rfl, -, ⟨_, g, _, _, rfl, -, htag, hg, -⟩,
      _, _, _, _, rfl, -, ⟨_, b, _, _, rfl, -, hopen, hb, -⟩, hclose⟩
    rw [(spells_word.mp htag).1, (spells_char.mp hopen).1, (spells_char.mp hclose).1]
    have hparen : ')' ∉ b := fun hmem => absurd (hb ')' hmem) (by decide)
    exact ⟨displayTag.toList ++ (g ++ '(' :: b), by simp [displayTag], g, b, rfl, hg, hparen⟩
  · rintro _ r before ⟨_, rfl, g, b, rfl, hg, hb⟩
    let t := '(' :: (b ++ ')' :: r)
    let c : Cursor := ⟨before, displayTag.toList ++ (g ++ t), 0, []⟩
    have htag : (Pattern.word "@DisplayName").Only c (c.past displayTag.toList (g ++ t)) :=
      only_word rfl
    have hgap := only_all (c := c.past displayTag.toList (g ++ t)) rfl hg (head?_cons (by decide))
    have hparens := only_plainParens (c := (c.past displayTag.toList (g ++ t)).past g t) rfl
      fun x hx => bne_iff_ne.mpr fun heq => hb (heq ▸ hx)
    have hall : displayName.Reads c _ := ((htag.seq hgap).seq hparens).reads
    rw [Cursor.past_past, Cursor.past_past] at hall
    simpa [t, c] using hall

theorem isSolid_title : IsSolid IsTitle where
  head := by
    rintro _ ⟨s, rfl, hs⟩ x hx
    rw [List.head?_append, hs.head?] at hx
    cases hx
    decide
  last := by
    rintro _ ⟨s, rfl, -⟩ x hx
    rw [List.getLast?_concat] at hx
    cases hx
    decide
  alike := by
    rintro _ r cs ⟨_, rfl, g, b, rfl, hg, hb⟩ h
    simp only [List.append_assoc, List.cons_append, List.nil_append] at h
    obtain ⟨c₁, rfl, h₁⟩ := h.exists_append isBlank_of_mem_displayTag
    obtain ⟨g', c₂, rfl, -, hg', h₂⟩ := h₁.exists_gap hg (head?_cons (by decide))
    obtain ⟨c₃, rfl, h₃⟩ := h₂.exists_cons (by decide)
    obtain ⟨b', r', rfl, hbb', hr⟩ := h₃.exists_split (by decide)
    have hb' := (hbb'.notMem_iff (by decide)).mp hb
    exact ⟨_, r', by simp, ⟨displayTag.toList ++ (g' ++ '(' :: b'), rfl, g', b', rfl, hg', hb'⟩, hr⟩

theorem untitled_append_blank (hg : ∀ x ∈ g, isBlank x = true) (a : List Char) :
    untitled (a ++ g) = untitled a ++ g :=
  recognizes_displayName.replaceAll_append_blank isSolid_title hg a

theorem isTitleHead_quoted (hb : ')' ∉ b) : IsTitleHead (displayTag.toList ++ '(' :: '"' :: b) :=
  ⟨[], '"' :: b, rfl, fun _ hx => absurd hx List.not_mem_nil, by simp [hb]⟩

theorem untitled_title (h : IsTitleHead s) (r : List Char) :
    untitled (s ++ ')' :: r) = untitled r := by
  have htitle := recognizes_displayName.replaceAll_token (s := []) (r := r) ⟨s, rfl, h⟩
  rwa [List.append_assoc] at htitle

/-! ## Names of test methods -/

theorem recognizes_testDeclaration :
    testDeclaration.Recognizes fun d _ => ∃ n, IsDeclaration n d := by
  refine recognizes_of_spells ?_ ?_ ?_
  · rintro _ ⟨_, ⟨⟩⟩
    exact List.cons_ne_nil _ _
  · rintro _ _ ⟨_, _, _, _, rfl, -, hopened, hclose⟩
    obtain ⟨_, b', _, _, rfl, -, hopened, hb', -⟩ := hopened
    obtain ⟨_, _, _, _, rfl, -, hnamed, hopen⟩ := hopened
    obtain ⟨_, b, _, _, rfl, -, hnamed, hb, -⟩ := hnamed
    obtain ⟨_, n, _, _, rfl, -, htyped, hname⟩ := hnamed
    obtain ⟨_, g, _, _, rfl, -, hvoid, hgap⟩ := htyped
    obtain ⟨⟨hne, hg⟩, -⟩ := spells_gap.mp hgap
    obtain ⟨⟨hne', hn⟩, -⟩ := spells_whole.mp hname
    rw [(spells_word.mp hvoid).1, (spells_char.mp hopen).1, (spells_char.mp hclose).1]
    have hd : IsDeclaration n _ := .intro hne hg hne' hn hb hb'
    exact ⟨n, by simpa [voidType] using hd⟩
  · rintro _ r before ⟨n, hd⟩
    cases hd with
    | @intro g b b' hgap hg hname hn hb hb' =>
        let t₁ := b ++ '(' :: (b' ++ ')' :: r)
        let c : Cursor := ⟨before, voidType.toList ++ (g ++ (n ++ t₁)), 0, []⟩
        have hread : name.Only (c.past (voidType.toList ++ g) (n ++ t₁))
            ((c.past (voidType.toList ++ g) (n ++ t₁)).past n t₁) := by
          obtain ⟨x, n, rfl⟩ := List.exists_cons_of_ne_nil hname
          exact only_whole rfl hn (isWord_of_head?_parens hb _)
        have hall : testDeclaration.Reads c _ := (only_declaration rfl hgap hg
          (head?_append_of_ne_nil hname (fun x hx => isBlank_of_isWord (hn x hx)) _) hread rfl
          hb hb').reads
        rw [Cursor.past_past, Cursor.past_past] at hall
        simpa [t₁, c] using hall

theorem isSolid_declaration : IsSolid fun d => ∃ n, IsDeclaration n d where
  head := by
    rintro _ ⟨_, ⟨⟩⟩ x hx
    cases hx
    decide
  last := by
    rintro _ ⟨n, hd⟩ x hx
    cases hd with
    | intro =>
        rw [← List.cons_append, ← List.append_assoc, ← List.append_assoc, ← List.append_assoc,
          ← List.append_assoc, List.getLast?_concat] at hx
        cases hx
        decide
  alike := by
    rintro _ r b ⟨n, hd⟩ h
    obtain ⟨d', r', hb, hd', hr⟩ := hd.exists_of_alike h
    exact ⟨d', r', hb, ⟨n, hd'⟩, hr⟩

/-! ## The last steps -/

theorem plainCode_eq_of_alike (h : Alike a b) : plainCode a = plainCode b := by
  have hnamed : Alike (unnamed a) (unnamed b) :=
    recognizes_testDeclaration.alike isSolid_declaration h
  exact congrArg trim (singleSpaced_eq_of_alike hnamed)

theorem plainCode_append_blank (hg : ∀ x ∈ g, isBlank x = true) (a : List Char) :
    plainCode (a ++ g) = plainCode a := by
  have hnamed : unnamed (a ++ g) = unnamed a ++ g :=
    recognizes_testDeclaration.replaceAll_append_blank isSolid_declaration hg a
  show trim (singleSpaced (unnamed (a ++ g))) = _
  rw [hnamed, trim_singleSpaced_append hg]
  rfl

/-- Nothing is left where there is nothing but white space, and only there. -/
theorem plainCode_eq_nil_iff : plainCode a = [] ↔ ∀ x ∈ a, isBlank x = true := by
  constructor
  · intro h
    obtain ⟨g, g', hspaced, hg, hg'⟩ := exists_trim (singleSpaced (unnamed a))
    rw [show trim (singleSpaced (unnamed a)) = [] from h, List.nil_append] at hspaced
    have hblank : ∀ x ∈ singleSpaced (unnamed a), isBlank x = true :=
      hspaced ▸ List.forall_mem_append.mpr ⟨hg, hg'⟩
    have hunnamed := (recognizes_gap.replaced [' '] (unnamed a)).isBlank_of_isBlank
      (fun _ _ _ hd => hd.1.blank) hblank
    refine (recognizes_testDeclaration.replaced _ a).isBlank_of_isBlank (fun hs => ?_) hunnamed
    exact absurd (hs 'v' (by decide)) (by decide)
  · intro h
    have hnone := plainCode_append_blank h []
    rwa [List.nil_append] at hnone

/-- White space makes no difference before other white space, and at the end of a text. -/
theorem plainCode_untitled_append (hg : ∀ x ∈ g, isBlank x = true)
    (hb : ∀ x ∈ b.head?, isBlank x = true) (a : List Char) :
    plainCode (untitled (a ++ (g ++ b))) = plainCode (untitled (a ++ b)) := by
  cases b with
  | nil =>
      rw [List.append_nil, List.append_nil, untitled_append_blank hg, plainCode_append_blank hg]
  | cons x b =>
      have halike : Alike (a ++ (g ++ x :: b)) (a ++ x :: b) :=
        .append_left a (.append_blank hg (hb x rfl) (.refl _))
      exact plainCode_eq_of_alike (recognizes_displayName.alike isSolid_title halike)

end Testwright
