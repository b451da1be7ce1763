import Testwright.Proofs.Source.TestHead
import Testwright.Proofs.Text.Spacing

/-!
# Declared methods

The names of the test methods that a text declares (`declaredNames`). Main statements: a text that
comes to an end with the body of its last method declares the same names whatever follows it in the
next row (`Closes.declaredNames_append`), and texts that differ in their white space only declare
the same names (`declaredNames_eq_of_alike`).
-/

namespace Testwright.Source

open Text Pattern

/-- The declaration of a test method without parameters, whose name is kept. -/
def voidDeclaration : Pattern :=
  .word "void" ++ .gap ++ .capture name ++ .blank ++ .char '(' ++ .blank ++ .char ')'

/-- The name in the declaration that a text begins with. -/
def nameAt (cs : List Char) : Option String :=
  (voidDeclaration.captures? cs).bind fun captures => captures.head?.map String.ofList

/-- The names in the declarations of a text, from left to right. -/
def declaredNames : List Char → List String
  | [] => []
  | x :: r => (nameAt (x :: r)).toList ++ declaredNames r

example : declaredNames "@Test void a() \x7b\x7d\nvoid  b ( ) \x7b\x7d int c()".toList =
    ["a", "b"] := by
  decide +kernel

variable {n d a b cs : List Char}

/-! ## The text of a declaration -/

/-- The text of a declaration of the method `n`. -/
inductive IsDeclaration (n : List Char) : List Char → Prop where
  | intro {g b b' : List Char} (hgap : g ≠ []) (hg : ∀ x ∈ g, isBlank x = true)
      (hname : n ≠ []) (hn : ∀ x ∈ n, isWord x = true)
      (hb : ∀ x ∈ b, isBlank x = true) (hb' : ∀ x ∈ b', isBlank x = true) :
      IsDeclaration n (voidType.toList ++ (g ++ (n ++ (b ++ '(' :: (b' ++ [')'])))))

/-- Whether a declaration may hold the character. -/
def isDeclarationChar (x : Char) : Bool := isWord x || isBlank x || x == '(' || x == ')'

theorem isDeclarationChar_brace : isDeclarationChar '\x7d' = false := by decide

theorem isWord_of_mem_voidType : ∀ x ∈ voidType.toList, isWord x = true :=
  List.all_eq_true.mp (by decide)

theorem IsDeclaration.of_mem (h : IsDeclaration n d) : ∀ x ∈ d, isDeclarationChar x = true := by
  cases h with
  | intro hgap hg hname hn hb hb' =>
      intro x hx
      simp only [List.mem_append, List.mem_cons, List.not_mem_nil, or_false] at hx
      rcases hx with hx | hx | hx | hx | rfl | hx | rfl
      · simp [isDeclarationChar, isWord_of_mem_voidType x hx]
      · simp [isDeclarationChar, hg x hx]
      · simp [isDeclarationChar, hn x hx]
      · simp [isDeclarationChar, hb x hx]
      · rfl
      · simp [isDeclarationChar, hb' x hx]
      · rfl

theorem IsDeclaration.exists_eq_append (h : IsDeclaration n d) : ∃ r, d = voidType.toList ++ r := by
  cases h
  exact ⟨_, rfl⟩

theorem head?_append_of_ne_nil {p : Char → Bool} {s : List Char} (hs : s ≠ [])
    (h : ∀ x ∈ s, p x = false) (r : List Char) : ∀ x ∈ (s ++ r).head?, p x = false := by
  obtain ⟨x, s, rfl⟩ := List.exists_cons_of_ne_nil hs
  exact head?_cons (h x List.mem_cons_self)

/-- No word character follows the name of a declaration. -/
theorem isWord_of_head?_parens {b : List Char} (hb : ∀ x ∈ b, isBlank x = true) (r : List Char) :
    ∀ x ∈ (b ++ '(' :: r).head?, isWord x = false := by
  cases b with
  | nil => exact head?_cons (by decide)
  | cons x b => exact head?_cons (isWord_of_isBlank (hb x List.mem_cons_self))

/-- A declaration is read as a whole, in whichever way its name is read. -/
theorem only_declaration {q : Pattern} {c c₁ : Cursor} {g t b b' r : List Char}
    (hc : c.rest = voidType.toList ++ (g ++ t)) (hgap : g ≠ []) (hg : ∀ x ∈ g, isBlank x = true)
    (ht : ∀ x ∈ t.head?, isBlank x = false) (hq : q.Only (c.past (voidType.toList ++ g) t) c₁)
    (hc₁ : c₁.rest = b ++ '(' :: (b' ++ ')' :: r)) (hb : ∀ x ∈ b, isBlank x = true)
    (hb' : ∀ x ∈ b', isBlank x = true) :
    (.word "void" ++ .gap ++ q ++ .blank ++ .char '(' ++ .blank ++ .char ')').Only c
      (c₁.past (b ++ '(' :: (b' ++ [')'])) r) := by
  let t₁ := b' ++ ')' :: r
  let c₂ := (c₁.past b ('(' :: t₁)).past ['('] t₁
  have hvoid : (Pattern.word "void").Only c (c.past voidType.toList (g ++ t)) := only_word hc
  have hgaps : Pattern.gap.Only (c.past voidType.toList (g ++ t))
      ((c.past voidType.toList (g ++ t)).past g t) := by
    obtain ⟨x, g, rfl⟩ := List.exists_cons_of_ne_nil hgap
    exact only_whole rfl hg ht
  rw [Cursor.past_past] at hgaps
  have hblank : Pattern.blank.Only c₁ (c₁.past b ('(' :: t₁)) :=
    only_all hc₁ hb (head?_cons (by decide))
  have hopen : (Pattern.char '(').Only (c₁.past b ('(' :: t₁)) c₂ := only_one rfl rfl
  have hblank' : Pattern.blank.Only c₂ (c₂.past b' (')' :: r)) :=
    only_all rfl hb' (head?_cons (by decide))
  have hclose : (Pattern.char ')').Only (c₂.past b' (')' :: r))
      ((c₂.past b' (')' :: r)).past [')'] r) := only_one rfl rfl
  have hall := (((((hvoid.seq hgaps).seq hq).seq hblank).seq hopen).seq hblank').seq hclose
  have hpast : (c₂.past b' (')' :: r)).past [')'] r = c₁.past (b ++ '(' :: (b' ++ [')'])) r := by
    rw [Cursor.past_past, Cursor.past_past, Cursor.past_past]
    simp
  rwa [hpast] at hall

/-- A declaration is read as a whole. -/
theorem nameAt_append (h : IsDeclaration n d) (r : List Char) :
    nameAt (d ++ r) = some (String.ofList n) := by
  cases h with
  | @intro g b b' hgap hg hname hn hb hb' =>
      let t₁ := b ++ '(' :: (b' ++ ')' :: r)
      let c : Cursor := ⟨none, voidType.toList ++ (g ++ (n ++ t₁)), 0, []⟩
      let c₁ := c.past (voidType.toList ++ g) (n ++ t₁)
      have hcapture : (Pattern.capture name).Only c₁ (c₁.capture (c₁.past n t₁)) := by
        obtain ⟨x, n, rfl⟩ := List.exists_cons_of_ne_nil hname
        exact (only_whole rfl hn (isWord_of_head?_parens hb _)).capture
      have hall : voidDeclaration.Only c _ := only_declaration rfl hgap hg
        (head?_append_of_ne_nil hname (fun x hx => isBlank_of_isWord (hn x hx)) _) hcapture rfl
        hb hb'
      have hspans : (c₁.capture (c₁.past n t₁)).spans.map Span.text = [n] :=
        text_capture (c := c₁) rfl
      have hcs : voidType.toList ++ (g ++ (n ++ (b ++ '(' :: (b' ++ [')'])))) ++ r =
          voidType.toList ++ (g ++ (n ++ t₁)) := by
        simp [t₁]
      rw [hcs, nameAt, captures?, matchAt_of_reads hall.reads, Option.map_some, Option.bind_some,
        List.map_reverse]
      change ((c₁.capture (c₁.past n t₁)).spans.map Span.text).reverse.head?.map _ = _
      rw [hspans]
      rfl

/-- A text begins with a declaration, or else the pattern has no match there. -/
theorem fails_or_exists_isDeclaration (cs : List Char) :
    voidDeclaration.Fails ⟨none, cs, 0, []⟩ ∨ ∃ n d r, cs = d ++ r ∧ IsDeclaration n d := by
  let c : Cursor := ⟨none, cs, 0, []⟩
  rcases fails_or_reads_word "void" c with hfails | ⟨c₁, hvoid, hcs⟩
  · exact .inl ((((((hfails.seq _).seq _).seq _).seq _).seq _).seq _)
  rcases fails_or_reads_whole isBlank c₁ with hfails | ⟨g, c₂, hgap, hc₁, hne, hg⟩
  · exact .inl ((((((hvoid.seq_fails hfails).seq _).seq _).seq _).seq _).seq _)
  have hread := hvoid.seq hgap
  rcases fails_or_reads_whole isWord c₂ with hfails | ⟨n, c₃, hname, hc₂, hne', hn⟩
  · exact .inl (((((hread.seq_fails hfails.capture).seq _).seq _).seq _).seq _)
  have hread := hread.seq hname.capture
  obtain ⟨b, c₄, hblank, hc₃, hb⟩ := reads_all isBlank (c₂.capture c₃)
  have hread := hread.seq hblank
  rcases fails_or_reads_char '(' c₄ with hfails | ⟨c₅, hopen, hc₄⟩
  · exact .inl (((hread.seq_fails hfails).seq _).seq _)
  have hread := hread.seq hopen
  obtain ⟨b', c₆, hblank, hc₅, hb'⟩ := reads_all isBlank c₅
  have hread := hread.seq hblank
  rcases fails_or_reads_char ')' c₆ with hfails | ⟨c₇, -, hc₆⟩
  · exact .inl (hread.seq_fails hfails)
  refine .inr ⟨n, _, c₇.rest, ?_, .intro hne hg hne' hn hb hb'⟩
  change c₃.rest = b ++ c₄.rest at hc₃
  show c.rest = _
  rw [hcs, hc₁, hc₂, hc₃, hc₄, hc₅, hc₆]
  simp [voidType]

/-- A name is found exactly where a declaration of it begins. -/
theorem nameAt_eq_some_iff {s : String} :
    nameAt cs = some s ↔ ∃ d r, cs = d ++ r ∧ IsDeclaration s.toList d := by
  constructor
  · intro h
    rcases fails_or_exists_isDeclaration cs with hfails | ⟨n, d, r, rfl, hd⟩
    · rw [nameAt, captures?, matchAt_of_fails hfails] at h
      cases h
    · rw [nameAt_append hd] at h
      cases h
      exact ⟨d, r, rfl, by rwa [String.toList_ofList]⟩
  · rintro ⟨d, r, rfl, hd⟩
    rw [nameAt_append hd, String.ofList_toList]

/-- What begins with a declaration begins with the type of test methods. -/
theorem prefix_of_nameAt {s : String} (h : nameAt cs = some s) : voidType.toList <+: cs := by
  obtain ⟨d, r, rfl, hd⟩ := nameAt_eq_some_iff.mp h
  obtain ⟨t, rfl⟩ := hd.exists_eq_append
  exact ⟨t ++ r, (List.append_assoc _ _ _).symm⟩

/-! ## Texts one after another -/

theorem declaredNames_cons {x : Char} (hx : x ≠ 'v') (r : List Char) :
    declaredNames (x :: r) = declaredNames r := by
  have hnone : nameAt (x :: r) = none := by
    cases h : nameAt (x :: r) with
    | none => rfl
    | some s => exact absurd (List.cons_prefix_cons.mp (prefix_of_nameAt h)).1.symm hx
  rw [declaredNames, hnone]
  rfl

theorem declaredNames_append_blank {g : List Char} (hg : ∀ x ∈ g, isBlank x = true)
    (r : List Char) : declaredNames (g ++ r) = declaredNames r := by
  induction g with
  | nil => rfl
  | cons x g ih =>
      have hx : x ≠ 'v' := by
        rintro rfl
        exact absurd (hg _ List.mem_cons_self) (by decide)
      rw [List.cons_append, declaredNames_cons hx, ih fun y hy => hg y (List.mem_cons_of_mem x hy)]

/-- No declaration reaches beyond a character that it may not hold. -/
theorem nameAt_append_of_stop {x : Char} (hx : isDeclarationChar x = false) (a b : List Char) :
    nameAt (a ++ x :: b) = nameAt a := by
  refine Option.ext fun s => ?_
  rw [nameAt_eq_some_iff, nameAt_eq_some_iff]
  constructor
  · rintro ⟨d, r, hcs, hd⟩
    have hnot : x ∉ d := fun hmem => Bool.false_ne_true (hx.symm.trans (hd.of_mem x hmem))
    obtain ⟨t, rfl⟩ := prefix_of_notMem hnot ⟨r, hcs.symm⟩
    exact ⟨d, t, rfl, hd⟩
  · rintro ⟨d, r, rfl, hd⟩
    exact ⟨d, r ++ x :: b, List.append_assoc _ _ _, hd⟩

/-- Such a character divides a text into two that declare their names on their own. -/
theorem declaredNames_append_of_stop {x : Char} (hx : isDeclarationChar x = false)
    (a b : List Char) : declaredNames (a ++ x :: b) = declaredNames a ++ declaredNames b := by
  induction a with
  | nil =>
      refine declaredNames_cons (fun hv => ?_) b
      rw [hv] at hx
      exact absurd hx (by decide)
  | cons y a ih =>
      rw [List.cons_append, declaredNames, ih, ← List.cons_append, nameAt_append_of_stop hx,
        declaredNames, List.append_assoc]

/-- A character that no declaration holds divides a text that is written in parts. -/
theorem declaredNames_append_stop {x : Char} (hx : isDeclarationChar x = false) {stop : String}
    (hstop : stop.toList = [x]) (a b : String) :
    declaredNames (a ++ stop ++ b).toList = declaredNames a.toList ++ declaredNames b.toList := by
  rw [String.toList_append, String.toList_append, hstop, List.append_assoc,
    ← declaredNames_append_of_stop hx]
  rfl

/-- A text that lacks a character of every declaration declares nothing. -/
theorem declaredNames_eq_nil (h : ∀ n d, IsDeclaration n d → ∃ x ∈ d, x ∉ cs) :
    declaredNames cs = [] := by
  induction cs with
  | nil => rfl
  | cons y cs ih =>
      have hnone : nameAt (y :: cs) = none := by
        refine Option.eq_none_iff_forall_ne_some.mpr fun s hs => ?_
        obtain ⟨d, r, hcs, hd⟩ := nameAt_eq_some_iff.mp hs
        obtain ⟨x, hx, hnot⟩ := h _ d hd
        exact hnot (hcs ▸ List.mem_append_left r hx)
      have hrest := ih fun n d hd => by
        obtain ⟨x, hx, hnot⟩ := h n d hd
        exact ⟨x, hx, fun hmem => hnot (List.mem_cons_of_mem y hmem)⟩
      rw [declaredNames, hnone, hrest]
      rfl

theorem declaredNames_of_paren_notMem (h : '(' ∉ cs) : declaredNames cs = [] := by
  refine declaredNames_eq_nil fun n d hd => ⟨'(', ?_, h⟩
  cases hd
  simp

theorem declaredNames_of_forall_not_blank (h : ∀ x ∈ cs, isBlank x = false) :
    declaredNames cs = [] := by
  refine declaredNames_eq_nil fun n d hd => ?_
  cases hd with
  | @intro g b b' hgap hg hname hn hb hb' =>
      obtain ⟨x, g, rfl⟩ := List.exists_cons_of_ne_nil hgap
      exact ⟨x, by simp, fun hmem =>
        Bool.false_ne_true ((h x hmem).symm.trans (hg x List.mem_cons_self))⟩

/-- The text has a closing brace after which the type of test methods does not occur any more. -/
def Closes (cs : List Char) : Prop :=
  ∃ a u, cs = a ++ '\x7d' :: u ∧ ¬ voidType.toList <:+: u

theorem closes_append_brace (s : String) : Closes (s ++ "\x7d").toList :=
  ⟨s.toList, [], String.toList_append, by decide⟩

/-- Without the type of test methods nothing is declared, not even by what follows after white
space. -/
theorem declaredNames_append_of_notInfix {u r : List Char} (h : ¬ voidType.toList <:+: u)
    (hr : ∀ x ∈ r.head?, isBlank x = true) : declaredNames (u ++ r) = declaredNames r := by
  induction u with
  | nil => rfl
  | cons x u ih =>
      have hnone : nameAt (x :: (u ++ r)) = none := by
        refine Option.eq_none_iff_forall_ne_some.mpr fun s hs => h ?_
        have hvoid : voidType.toList <+: x :: u ++ r := prefix_of_nameAt hs
        cases r with
        | nil =>
            rw [List.append_nil] at hvoid
            exact hvoid.isInfix
        | cons y r =>
            have hy : y ∉ voidType.toList := fun hmem => by
              have hword := isWord_of_isBlank (hr y rfl)
              rw [isWord_of_mem_voidType y hmem] at hword
              cases hword
            exact (prefix_of_notMem hy hvoid).isInfix
      rw [List.cons_append, declaredNames, hnone,
        ih fun hu => h (hu.trans (List.suffix_cons x u).isInfix)]
      rfl

theorem Closes.declaredNames_append {r : List Char} (h : Closes cs)
    (hr : ∀ x ∈ r.head?, isBlank x = true) :
    declaredNames (cs ++ r) = declaredNames cs ++ declaredNames r := by
  obtain ⟨a, u, rfl, hu⟩ := h
  have hnone : declaredNames u = [] := by
    have hu := declaredNames_append_of_notInfix (r := []) hu (fun x hx => by cases hx)
    rwa [List.append_nil] at hu
  rw [List.append_assoc, List.cons_append, declaredNames_append_of_stop isDeclarationChar_brace,
    declaredNames_append_of_notInfix hu hr, declaredNames_append_of_stop isDeclarationChar_brace,
    hnone, List.append_nil]

/-! ## White space -/

/-- In a text that is alike a declaration stands in the same place. -/
theorem IsDeclaration.exists_of_alike {r : List Char} (hd : IsDeclaration n d)
    (h : Alike (d ++ r) b) : ∃ d' r', b = d' ++ r' ∧ IsDeclaration n d' ∧ Alike r r' := by
  cases hd with
  | @intro g c c' hgap hg hname hn hc hc' =>
      simp only [List.append_assoc, List.cons_append, List.nil_append] at h
      obtain ⟨b₁, rfl, h₁⟩ :=
        h.exists_append fun x hx => isBlank_of_isWord (isWord_of_mem_voidType x hx)
      obtain ⟨g', b₂, rfl, hgap', hg', h₂⟩ := h₁.exists_gap hg
        (head?_append_of_ne_nil hname (fun x hx => isBlank_of_isWord (hn x hx)) _)
      obtain ⟨b₃, rfl, h₃⟩ := h₂.exists_append fun x hx => isBlank_of_isWord (hn x hx)
      obtain ⟨e, b₄, rfl, -, he, h₄⟩ := h₃.exists_gap hc (head?_cons (by decide))
      obtain ⟨b₅, rfl, h₅⟩ := h₄.exists_cons (by decide)
      obtain ⟨e', b₆, rfl, -, he', h₆⟩ := h₅.exists_gap hc' (head?_cons (by decide))
      obtain ⟨b₇, rfl, h₇⟩ := h₆.exists_cons (by decide)
      exact ⟨_, b₇, by simp, .intro (hgap' hgap) hg' hname hn he he', h₇⟩

theorem nameAt_eq_of_alike (h : Alike a b) : nameAt a = nameAt b := by
  refine Option.ext fun s => ?_
  rw [nameAt_eq_some_iff, nameAt_eq_some_iff]
  constructor
  · rintro ⟨d, r, rfl, hd⟩
    obtain ⟨d', r', hb, hd', -⟩ := hd.exists_of_alike h
    exact ⟨d', r', hb, hd'⟩
  · rintro ⟨d, r, rfl, hd⟩
    obtain ⟨d', r', ha, hd', -⟩ := hd.exists_of_alike h.symm
    exact ⟨d', r', ha, hd'⟩

/-- Texts that differ in their white space only declare the same names. -/
theorem declaredNames_eq_of_alike (h : Alike a b) : declaredNames a = declaredNames b := by
  induction h with
  | nil => rfl
  | same x h ih => rw [declaredNames, declaredNames, nameAt_eq_of_alike (h.same x), ih]
  | gap _ hg _ hg' _ ih => rw [declaredNames_append_blank hg, declaredNames_append_blank hg', ih]

end Testwright.Source
