import Testwright.Proofs.Suite.NormalCode

/-!
# Display names and signatures

The arguments of an annotation end with the first closing parenthesis and a comment begins with any
two slashes, also where these stand in a display text. Main statement: a display text of which the
first two steps leave nothing makes no difference to the signature of a test, whatever stands before
and after the annotation, and no other display text is like these (`display_text_ignored_iff`).
-/

namespace Testwright

open Text Source

variable {a b d d₁ d₂ r r₁ r₂ s s₁ s₂ : List Char}

theorem untitled_eq_self (h : '@' ∉ a) : untitled a = a := by
  refine recognizes_displayName.replaceAll_of_notMem ?_ h
  rintro _ _ ⟨s, rfl, hs⟩
  exact List.mem_append_left _ (List.mem_of_head? hs.head?)

/-! ## Annotations after a text -/

/-- An annotation at the beginning of a text before another annotation ends in that text, or the text
is a part of it as a whole. -/
theorem title_cases {t : List Char} (hs : IsTitleHead s) (ha : a ≠ []) (hd : IsTitle d)
    (hcs : a ++ (s ++ ')' :: r) = d ++ t) : IsTitleHead a ∨ ∃ w, a = d ++ w := by
  obtain ⟨u, rfl, hu⟩ := hd
  rw [List.append_assoc, List.singleton_append] at hcs
  by_cases hparen : ')' ∈ a
  · obtain ⟨p, q, rfl, hp⟩ := List.eq_append_cons_of_mem hparen
    rw [List.append_assoc, List.cons_append] at hcs
    obtain ⟨rfl, -⟩ := append_cons_inj hp hu.paren_notMem hcs
    exact .inr ⟨q, by simp⟩
  · rw [← List.append_assoc] at hcs
    obtain ⟨rfl, -⟩ := append_cons_inj (List.not_mem_append hparen hs.paren_notMem)
      hu.paren_notMem hcs
    obtain ⟨s, rfl⟩ := List.head?_eq_some_iff.mp hs.head?
    exact .inl (hu.of_append ha (by decide))

/-- Whatever stands before an annotation, it makes no difference which one it is if the texts that
follow are left alike. -/
theorem alike_untitled_append (h₁ : IsTitleHead s₁) (h₂ : IsTitleHead s₂)
    (hr : Alike (untitled r₁) (untitled r₂)) (a : List Char) :
    Alike (untitled (a ++ (s₁ ++ ')' :: r₁))) (untitled (a ++ (s₂ ++ ')' :: r₂))) := by
  obtain ⟨n, hn⟩ : ∃ n, a.length ≤ n := ⟨_, Nat.le_refl _⟩
  induction n generalizing a with
  | zero =>
      obtain rfl := List.length_eq_zero_iff.mp (Nat.le_zero.mp hn)
      rwa [List.nil_append, List.nil_append, untitled_title h₁, untitled_title h₂]
  | succ n ih =>
      by_cases hhead : IsTitleHead a
      · -- the annotation in which the text ends goes on to the parenthesis
        rw [← List.append_assoc, ← List.append_assoc, untitled_title (hhead.append h₁.paren_notMem),
          untitled_title (hhead.append h₂.paren_notMem)]
        exact hr
      by_cases htitle : ∃ d w, a = d ++ w ∧ IsTitle d
      · obtain ⟨d, w, rfl, hd⟩ := htitle
        have hpos := List.length_pos_iff.mpr (recognizes_displayName.ne_nil d [] hd)
        rw [List.length_append] at hn
        have hskip : ∀ r, untitled (d ++ r) = untitled r := fun r =>
          recognizes_displayName.replaceAll_token hd
        rw [List.append_assoc, List.append_assoc, hskip, hskip]
        exact ih w (by omega)
      · have hnone : ∀ {s r d t}, IsTitleHead s → a ≠ [] → a ++ (s ++ ')' :: r) = d ++ t →
            ¬ IsTitle d := fun hs ha hcs hd =>
          (title_cases hs ha hd hcs).elim hhead fun ⟨w, hw⟩ => htitle ⟨_, w, hw, hd⟩
        cases a with
        | nil => exact ih [] (Nat.zero_le n)
        | cons x a =>
            have hskip : ∀ {s r}, IsTitleHead s → untitled (x :: (a ++ (s ++ ')' :: r))) =
                x :: untitled (a ++ (s ++ ')' :: r)) := fun hs =>
              recognizes_displayName.replaceAll_cons fun _ _ hcs =>
                hnone hs (List.cons_ne_nil x a) hcs
            rw [List.cons_append, List.cons_append, hskip h₁, hskip h₂]
            exact .same x (ih a (Nat.le_of_succ_le_succ hn))

/-! ## What is left of an annotation -/

/-- The annotation with a display text. -/
def titled (d : List Char) : List Char := displayTag.toList ++ '(' :: '"' :: (d ++ ['"', ')'])

theorem titled_eq (d : List Char) :
    titled d = displayTag.toList ++ '(' :: '"' :: (d ++ ['"', ')']) := rfl

/-- The annotation with a display text after the first two steps. -/
def leftover (d : List Char) : List Char := untitled (uncommented (titled d))

/-- The first two steps leave nothing but white space of the annotation with this display text. -/
def IsQuiet (d : List Char) : Prop := ∀ x ∈ leftover d, isBlank x = true

theorem exists_titled (d : List Char) : ∃ m, titled d = '@' :: m := ⟨_, rfl⟩

/-- What is left of an annotation begins like it, or an annotation was found in it. -/
theorem exists_title_of_isQuiet (h : IsQuiet d) : ∃ s r, uncommented (titled d) = s ++ ')' :: r ∧
    IsTitleHead s ∧ ∀ x ∈ untitled r, isBlank x = true := by
  obtain ⟨m, hm⟩ : ∃ m, uncommented (titled d) = '@' :: m := by
    obtain ⟨m, hm⟩ := exists_titled d
    exact ⟨uncommented m, hm ▸ uncommented_cons (by simp)⟩
  change ∀ x ∈ untitled (uncommented (titled d)), isBlank x = true at h
  by_cases htitle : ∃ e t, '@' :: m = e ++ t ∧ IsTitle e
  · obtain ⟨_, r, hsplit, s, rfl, hs⟩ := htitle
    rw [hm, hsplit, List.append_assoc, List.singleton_append, untitled_title hs] at h
    exact ⟨s, r, by rw [hm, hsplit]; simp, hs, h⟩
  · have hskip : untitled ('@' :: m) = '@' :: untitled m :=
      recognizes_displayName.replaceAll_cons fun d t hcs hd => htitle ⟨d, t, hcs, hd⟩
    rw [hm, hskip] at h
    exact absurd (h '@' List.mem_cons_self) (by decide)

/-- Where white space is left before the end of the row, the rest is gone through on its own. -/
theorem untitled_append_feed (h : ∀ x ∈ untitled a, isBlank x = true) (b : List Char) :
    untitled (a ++ '\n' :: b) = untitled a ++ '\n' :: untitled b := by
  have hfeed : displayName.replaceAll [] ('\n' :: b) = '\n' :: untitled b :=
    recognizes_displayName.replaceAll_blank_append isSolid_title isGap_feed.blank b
  show displayName.replaceAll [] (a ++ '\n' :: b) = _
  rw [recognizes_displayName.replaceAll_append_of_blank isSolid_title h, hfeed]
  rfl

/-- Quiet display texts stand for one another. -/
theorem normalCode_titled (h₁ : IsQuiet d₁) (h₂ : IsQuiet d₂) (hfeed₁ : '\n' ∉ d₁)
    (hfeed₂ : '\n' ∉ d₂) (a b : List Char) :
    normalCode (a ++ (titled d₁ ++ '\n' :: b)) = normalCode (a ++ (titled d₂ ++ '\n' :: b)) := by
  rw [normalCode_eq, normalCode_eq]
  by_cases hcomment : InComment a
  · obtain ⟨u, w, rfl, hw⟩ := hcomment
    have hwhole : ∀ {d}, '\n' ∉ d → '\n' ∉ w ++ titled d := fun hd => by
      simp [titled_eq, displayTag, hw, hd]
    have hsame := uncommented_comment_congr u ('\n' :: b) (hwhole hfeed₁) (hwhole hfeed₂)
    simp only [List.append_assoc, List.cons_append] at hsame ⊢
    rw [hsame]
  · have hrow : ∀ d, uncommented (a ++ (titled d ++ '\n' :: b)) =
        uncommented a ++ (uncommented (titled d) ++ '\n' :: uncommented b) := by
      intro d
      obtain ⟨m, hm⟩ := exists_titled d
      rw [← uncommented_feed, hm, List.cons_append, uncommented_append hcomment (by decide),
        uncommented_cons (by simp)]
    obtain ⟨s₁, r₁, hm₁, hs₁, hr₁⟩ := exists_title_of_isQuiet h₁
    obtain ⟨s₂, r₂, hm₂, hs₂, hr₂⟩ := exists_title_of_isQuiet h₂
    have halike : Alike (untitled (r₁ ++ '\n' :: uncommented b))
        (untitled (r₂ ++ '\n' :: uncommented b)) := by
      rw [untitled_append_feed hr₁, untitled_append_feed hr₂]
      exact .append_blank hr₁ rfl (Alike.append_blank hr₂ rfl (.refl _)).symm
    have hall := alike_untitled_append hs₁ hs₂ halike (uncommented a)
    rw [hrow, hrow, hm₁, hm₂, List.append_assoc, List.append_assoc]
    exact plainCode_eq_of_alike hall

/-- A text of its own tells whether a display text is quiet. -/
theorem normalCode_titled_eq_nil_iff : normalCode (titled d ++ ['\n']) = [] ↔ IsQuiet d := by
  rw [normalCode_eq, uncommented_feed, show uncommented [] = [] from rfl,
    untitled_append_blank isGap_feed.blank, plainCode_append_blank isGap_feed.blank,
    plainCode_eq_nil_iff]
  rfl

/-! ## Display texts without parentheses or without slashes -/

theorem uncommented_titled (h : ¬ ['/', '/'] <:+: d) : uncommented (titled d) = titled d := by
  refine uncommented_eq_self fun hpart => ?_
  rcases (infix_append_cons_iff (x := '(') (by decide)).mp hpart with htag | hrest
  · exact absurd (htag.subset List.mem_cons_self) (by decide)
  rcases (infix_append_cons_iff (u := []) (x := '"') (by decide)).mp hrest with hnone | hrest
  · exact absurd (hnone.subset List.mem_cons_self) List.not_mem_nil
  rcases (infix_append_cons_iff (x := '"') (v := [')']) (by decide)).mp hrest with htext | hlast
  · exact h htext
  · exact absurd (hlast.subset List.mem_cons_self) (by decide)

theorem isQuiet_of_notMem (hparen : ')' ∉ d) (hslashes : ¬ ['/', '/'] <:+: d) : IsQuiet d := by
  have hhead := isTitleHead_quoted (b := d ++ ['"']) (by simp [hparen])
  have hsplit : titled d = displayTag.toList ++ '(' :: '"' :: (d ++ ['"']) ++ [')'] := by
    simp [titled_eq]
  show ∀ x ∈ untitled (uncommented (titled d)), isBlank x = true
  rw [uncommented_titled hslashes, hsplit, untitled_title hhead]
  exact fun x hx => absurd hx List.not_mem_nil

/-- Without a closing parenthesis in the display text, only a comment in it is in the way. -/
theorem isQuiet_iff_of_paren_notMem (hparen : ')' ∉ d) (hfeed : '\n' ∉ d) :
    IsQuiet d ↔ ¬ ['/', '/'] <:+: d := by
  refine ⟨?_, isQuiet_of_notMem hparen⟩
  rintro h ⟨p, q, rfl⟩
  -- the comment takes the last parenthesis with it
  have hrow : uncommented (titled (p ++ ['/', '/'] ++ q)) =
      uncommented (displayTag.toList ++ '(' :: '"' :: p ++ ['/', '/']) := by
    have hrest : '\n' ∉ q ++ ['"', ')'] := by
      simp at hfeed ⊢
      exact hfeed.2
    rw [← uncommented_comment _ hrest]
    simp [titled_eq]
  obtain ⟨s, r, hs, -⟩ := exists_title_of_isQuiet h
  have hmem : ')' ∈ uncommented (displayTag.toList ++ '(' :: '"' :: p ++ ['/', '/']) := by
    rw [← hrow, hs]
    simp
  have hall : ')' ∈ displayTag.toList ++ '(' :: '"' :: p ++ ['/', '/'] :=
    (recognizes_rowComment.replaced [] _).sublist.subset hmem
  simp [displayTag] at hall hparen
  exact hparen.1 hall

/-- Without slashes and annotations in the display text, only a closing parenthesis in it is in the
way. -/
theorem isQuiet_iff_of_at_notMem (hat : '@' ∉ d) (hslashes : ¬ ['/', '/'] <:+: d) :
    IsQuiet d ↔ ')' ∉ d := by
  refine ⟨fun h hparen => ?_, fun hparen => isQuiet_of_notMem hparen hslashes⟩
  obtain ⟨p, q, rfl, hp⟩ := List.eq_append_cons_of_mem hparen
  have hrest : '@' ∉ q ++ ['"', ')'] := by
    simp at hat ⊢
    exact hat.2
  have hsplit : titled (p ++ ')' :: q) =
      displayTag.toList ++ '(' :: '"' :: p ++ ')' :: (q ++ ['"', ')']) := by
    simp [titled_eq]
  change ∀ x ∈ untitled (uncommented (titled _)), isBlank x = true at h
  rw [uncommented_titled hslashes, hsplit,
    untitled_title (isTitleHead_quoted hp), untitled_eq_self hrest] at h
  exact absurd (h '"' (by simp)) (by decide)

/-! ## Tests with display texts -/

/-- The code of a test in which a display text occurs. -/
def titledCode (before display after : String) : String :=
  before ++ "@DisplayName(\"" ++ display ++ "\")\n" ++ after

theorem toList_titledCode (before display after : String) :
    (titledCode before display after).toList =
      before.toList ++ (titled display.toList ++ '\n' :: after.toList) := by
  delta titledCode
  simp [titled_eq, displayTag]

/-- The display text makes no difference to the signature of a test, whatever stands before and
after its annotation, if and only if it is quiet. Without a closing parenthesis in it, it is quiet if
no comment begins in it; without a comment and an annotation, if there is no closing parenthesis. -/
theorem display_text_ignored_iff {d : String} (hfeed : '\n' ∉ d.toList) :
    (IsQuiet d.toList ↔ ∀ (d' before after : String) (t u : TestCase), '\n' ∉ d'.toList →
      IsQuiet d'.toList → t.targetMethod = u.targetMethod → t.code = titledCode before d after →
        u.code = titledCode before d' after → t.signature = u.signature) ∧
    (')' ∉ d.toList → (IsQuiet d.toList ↔ ¬ "//".toList <:+: d.toList)) ∧
    ('@' ∉ d.toList → ¬ "//".toList <:+: d.toList → (IsQuiet d.toList ↔ ')' ∉ d.toList)) := by
  rw [show "//".toList = ['/', '/'] from rfl]
  refine ⟨⟨?_, fun h => ?_⟩, fun hparen => isQuiet_iff_of_paren_notMem hparen hfeed,
    isQuiet_iff_of_at_notMem⟩
  · intro hquiet d' before after t u hfeed' hquiet' htarget ht hu
    rw [TestCase.signature_eq_iff htarget, ht, hu, toList_titledCode, toList_titledCode]
    exact normalCode_titled hquiet hquiet' hfeed hfeed' _ _
  · -- the annotation on its own is compared with the one without a display text
    have hempty : IsQuiet [] := isQuiet_of_notMem List.not_mem_nil fun hpart =>
      absurd (hpart.subset List.mem_cons_self) List.not_mem_nil
    have hsame := h "" "" "" { (default : TestCase) with code := titledCode "" d "" }
      { (default : TestCase) with code := titledCode "" "" "" } List.not_mem_nil hempty rfl rfl rfl
    replace hsame := (TestCase.signature_eq_iff (by rfl)).mp hsame
    rw [toList_titledCode, toList_titledCode] at hsame
    exact normalCode_titled_eq_nil_iff.mp (hsame.trans (normalCode_titled_eq_nil_iff.mpr hempty))

/-- A test of addition with a display text. -/
def additionTest (display : String) : TestCase where
  id := display
  kind := .methodCall
  code := titledCode "@Test\n" display "void adds() \x7b\n    target.add(1, 2);\n\x7d"
  targetMethod := "add"
  targetClass := "Calculator"
  assertions := []

/-- Display texts of words are quiet, so that the tests have the same signature. -/
theorem words_in_title_ignored : '\n' ∉ "adds two".toList ∧ IsQuiet "adds two".toList ∧
    IsQuiet "adds 2".toList ∧
      (additionTest "adds two").signature = (additionTest "adds 2").signature := by
  have hfeed : '\n' ∉ "adds two".toList := by decide
  have hfeed' : '\n' ∉ "adds 2".toList := by decide
  have hquiet : IsQuiet "adds two".toList :=
    ((display_text_ignored_iff hfeed).2.1 (by decide)).mpr
      (mt contains_iff_isInfix.mpr (by decide +kernel))
  have hquiet' : IsQuiet "adds 2".toList :=
    ((display_text_ignored_iff hfeed').2.1 (by decide)).mpr
      (mt contains_iff_isInfix.mpr (by decide +kernel))
  exact ⟨hfeed, hquiet, hquiet', (display_text_ignored_iff hfeed).1.mp hquiet _ _ _ _ _ hfeed'
    hquiet' rfl rfl rfl⟩

/-- **A closing parenthesis in the display text makes a test another one**, and so does a comment in
it, also when no quote, escape or line break stands in the display text. -/
theorem parenthesis_in_title_counts :
    (∀ x ∈ "adds (two)".toList, x ≠ '"' ∧ x ≠ '\\' ∧ x ≠ '\n') ∧
      (∀ x ∈ "adds // two".toList, x ≠ '"' ∧ x ≠ '\\' ∧ x ≠ '\n') ∧
      (additionTest "adds (two)").signature ≠ (additionTest "adds two").signature ∧
      (additionTest "adds // two").signature ≠ (additionTest "adds two").signature := by
  refine ⟨by decide, by decide, ?_, ?_⟩
  · refine mt (TestCase.signature_eq_iff (by rfl)).mp ?_
    decide +kernel
  · refine mt (TestCase.signature_eq_iff (by rfl)).mp ?_
    decide +kernel

end Testwright
