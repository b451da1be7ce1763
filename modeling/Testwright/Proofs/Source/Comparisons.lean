import Testwright.Proofs.Path.Condition
import Testwright.Proofs.Source.Conditions

/-!
# Comparisons with integers

A comparison of a name with an integer literal is read as what it says: whichever side the literal
is on, and whatever white space there is around the sign, the condition holds of an integer exactly
when the comparison does (`holds_of_comparison`).
-/

namespace Testwright.Source

open Text Text.Pattern

variable {c : Char} {cs left right s g g' r : List Char} {sign : String}

/-! ## The characters of a comparison -/

/-- What a side of a comparison is written with: word characters, dots, the minus sign and the
dollar sign. -/
def isSideChar (c : Char) : Bool := isDotted c || c == '-' || c == '$'

theorem isSideChar_of_isWord (h : isWord c = true) : isSideChar c = true := by
  rw [isSideChar, isDotted, h, Bool.true_or, Bool.true_or, Bool.true_or]

theorem isBlank_of_isSideChar (h : isSideChar c = true) : isBlank c = false := by
  simp only [isSideChar, isDotted, Bool.or_eq_true, beq_iff_eq] at h
  rcases h with ((hword | rfl) | rfl) | rfl
  · exact isBlank_of_isWord hword
  all_goals decide

/-- The marks that have a meaning somewhere in a condition. -/
def conditionMarks : List Char := ['=', '!', '<', '>', '(', '&', '|', '\n']

theorem ne_of_isSideChar (h : isSideChar c = true) {d : Char} (hd : d ∈ conditionMarks) :
    c ≠ d := by
  have hmarks : ∀ d ∈ conditionMarks, isSideChar d = false :=
    forall_mem_of_any_eq_false (by decide)
  rintro rfl
  rw [hmarks c hd] at h
  cases h

theorem isInline_of_isSideChar (h : isSideChar c = true) : isInline c = true :=
  bne_iff_ne.mpr (ne_of_isSideChar h (by decide))

/-- Whether the character stands in a sign. -/
def isSignChar (c : Char) : Bool := ['=', '!', '<', '>'].contains c

theorem isSignChar_of_mem (hsign : sign ∈ relationTokens.map (·.1)) (hc : c ∈ sign.toList) :
    isSignChar c = true := by
  have hall : ∀ sign ∈ relationTokens.map (·.1), sign.toList.all isSignChar = true := by decide
  exact List.all_eq_true.mp (hall sign hsign) c hc

theorem of_isSignChar (h : isSignChar c = true) : isBlank c = false ∧ isSideChar c = false := by
  have hall : ['=', '!', '<', '>'].all (fun c => !isBlank c && !isSideChar c) = true := by decide
  have hc := List.all_eq_true.mp hall c (List.contains_iff_mem.mp h)
  simpa using hc

theorem exists_of_sign (hsign : sign ∈ relationTokens.map (·.1)) :
    ∃ z t, sign.toList = z :: t ∧ isSignChar z = true := by
  have hne : ∀ sign ∈ relationTokens.map (·.1), sign.toList ≠ [] := by decide
  obtain ⟨z, t, heq⟩ := List.exists_cons_of_ne_nil (hne sign hsign)
  exact ⟨z, t, heq, isSignChar_of_mem hsign (heq ▸ List.mem_cons_self)⟩

theorem exists_last_of_sign (hsign : sign ∈ relationTokens.map (·.1)) :
    ∃ t z, sign.toList = t ++ [z] ∧ isSignChar z = true := by
  obtain ⟨y, r, heq, -⟩ := exists_of_sign hsign
  have hne : sign.toList ≠ [] := heq ▸ List.cons_ne_nil y r
  exact ⟨_, _, (List.dropLast_concat_getLast hne).symm,
    isSignChar_of_mem hsign (List.getLast_mem hne)⟩

/-- No sign stands where a text begins with another character. -/
theorem not_sign_isPrefix (hsign : sign ∈ relationTokens.map (·.1))
    (h : ∀ y ∈ cs.head?, isSignChar y = false) : ¬ sign.toList <+: cs := by
  obtain ⟨z, t, heq, hz⟩ := exists_of_sign hsign
  rintro ⟨r, rfl⟩
  rw [heq] at h
  rw [h z rfl] at hz
  cases hz

/-- A sign is read as itself, and not as the beginning of a longer one. -/
theorem reads_sign (hsign : sign ∈ relationTokens.map (·.1)) {c : Cursor}
    (hc : c.rest = sign.toList ++ r) (hr : ∀ y ∈ r.head?, y ≠ '=') :
    (anyOf (relationTokens.map (·.1))).Reads c (c.past sign.toList r) := by
  have hsplit : ∃ before after, relationTokens.map (·.1) = before ++ sign :: after ∧
      ∀ w ∈ before, ¬ w.toList <+: sign.toList ++ r := by
    simp only [relationTokens, List.map_cons, List.map_nil, List.mem_cons, List.not_mem_nil,
      or_false] at hsign ⊢
    rcases hsign with rfl | rfl | rfl | rfl | rfl | rfl
    · exact ⟨[], _, rfl, by simp⟩
    · exact ⟨["=="], _, rfl, by simp⟩
    · exact ⟨["==", "!="], _, rfl, by simp⟩
    · exact ⟨["==", "!=", "<="], _, rfl, by simp⟩
    · exact ⟨["==", "!=", "<=", ">="], _, rfl, by cases r <;> simp at hr ⊢; exact Ne.symm hr⟩
    · exact ⟨["==", "!=", "<=", ">=", "<"], _, rfl, by cases r <;> simp at hr ⊢; exact Ne.symm hr⟩
  obtain ⟨before, after, htokens, hbefore⟩ := hsplit
  rw [htokens]
  exact reads_anyOf hc (by rwa [hc])

/-- Inside of the left side, nothing that follows it is read. -/
theorem fails_rest {c : Cursor} {y : Char} {t : List Char} (hy : isSideChar y = true)
    (hc : c.rest = y :: t) :
    (blank ++ (capture (anyOf (relationTokens.map (·.1))) ++
      (run isBlank ++ (capture restOfRow ++ atEnd)))).Fails c := by
  have hnot : ∀ x ∈ c.rest.head?, isSignChar x = false := by
    rw [hc]
    intro x hx
    cases hx
    cases hx : isSignChar y with
    | false => rfl
    | true =>
        rw [(of_isSignChar hx).2] at hy
        cases hy
  have hblank : blank.Only c c := only_all_nil (by
    rw [hc]
    intro x hx
    cases hx
    exact isBlank_of_isSideChar hy)
  exact hblank.seq_fails ((fails_anyOf fun w hw => not_sign_isPrefix hw hnot).capture.seq _)

/-! ## Texts of comparisons -/

/-- Two sides and the white space around the sign between them. -/
structure IsComparison (left g : List Char) (sign : String) (g' right : List Char) : Prop where
  left_ne_nil : left ≠ []
  left : ∀ c ∈ left, isSideChar c = true
  before : ∀ c ∈ g, isBlank c = true
  sign : sign ∈ relationTokens.map (·.1)
  after : ∀ c ∈ g', isBlank c = true
  right_ne_nil : right ≠ []
  right : ∀ c ∈ right, isSideChar c = true

namespace IsComparison

variable (h : IsComparison left g sign g' right)

include h

theorem isBlank_of_mem_right_head : ∀ c ∈ right.head?, isBlank c = false :=
  fun c hc => isBlank_of_isSideChar (h.right c (List.mem_of_head? hc))

theorem isBlank_of_mem_sign_head : ∀ c ∈ (sign.toList ++ r).head?, isBlank c = false := by
  obtain ⟨z, t, heq, hz⟩ := exists_of_sign h.sign
  rw [heq]
  intro c hc
  cases hc
  exact (of_isSignChar hz).1

/-- After the sign, there is no sign of equality. -/
theorem ne_of_mem_after_head : ∀ c ∈ (g' ++ right).head?, c ≠ '=' := by
  intro c hc
  rcases List.mem_append.mp (List.mem_of_head? hc) with hblank | hside
  · rintro rfl
    exact absurd (h.after _ hblank) (by decide)
  · exact ne_of_isSideChar (h.right c hside) (by decide)

/-! ### The parts are read -/

/-- What follows the left side is read from its end. -/
theorem reads_rest {c : Cursor} (hc : c.rest = g ++ (sign.toList ++ (g' ++ right))) :
    ∃ c', (blank ++ (capture (anyOf (relationTokens.map (·.1))) ++
        (run isBlank ++ (capture restOfRow ++ atEnd)))).Reads c c' ∧
      c'.spans.map Span.text = right :: sign.toList :: c.spans.map Span.text := by
  have hgap := only_all hc h.before h.isBlank_of_mem_sign_head
  obtain ⟨c₁, hc₁⟩ : ∃ c₁, c₁ = c.past g (sign.toList ++ (g' ++ right)) := ⟨_, rfl⟩
  have hrest : c₁.rest = sign.toList ++ (g' ++ right) := by rw [hc₁]; rfl
  have hsign := (reads_sign h.sign hrest h.ne_of_mem_after_head).capture
  obtain ⟨c₂, hc₂⟩ : ∃ c₂, c₂ = c₁.capture (c₁.past sign.toList (g' ++ right)) := ⟨_, rfl⟩
  have hgap' : (run isBlank).Reads c₂ (c₂.past g' right) :=
    reads_run (by rw [hc₂]; rfl) h.after h.isBlank_of_mem_right_head
  obtain ⟨c₃, hc₃⟩ : ∃ c₃, c₃ = c₂.past g' right := ⟨_, rfl⟩
  have hright : restOfRow.Only c₃ (c₃.past right []) := by
    obtain ⟨x, t, rfl⟩ := List.exists_cons_of_ne_nil h.right_ne_nil
    exact only_whole (by rw [hc₃, List.append_nil]; rfl)
      (fun y hy => isInline_of_isSideChar (h.right y hy)) (fun y hy => by cases hy)
  rw [← hc₂] at hsign
  rw [← hc₁] at hgap
  rw [← hc₃] at hgap'
  refine ⟨_, hgap.reads.seq (hsign.seq (hgap'.seq (hright.capture.reads.seq
    (only_atEnd rfl).reads))), ?_⟩
  have hspans₁ : c₁.spans = c.spans := by rw [hc₁]; rfl
  have hspans₂ : c₂.spans.map Span.text = sign.toList :: c₁.spans.map Span.text := by
    rw [hc₂, text_capture hrest]
  have hspans₃ : c₃.spans = c₂.spans := by rw [hc₃]; rfl
  rw [text_capture (r := []) (by rw [hc₃, List.append_nil]; rfl), hspans₃, hspans₂, hspans₁]

/-- The sides and the sign are what is captured. -/
theorem captures?_comparison :
    comparisonPattern.captures? (left ++ g ++ sign.toList ++ g' ++ right) =
      some [left, sign.toList, right] := by
  obtain ⟨x, t, rfl⟩ := List.exists_cons_of_ne_nil h.left_ne_nil
  have hassoc : x :: t ++ g ++ sign.toList ++ g' ++ right =
      x :: t ++ (g ++ (sign.toList ++ (g' ++ right))) := by simp
  obtain ⟨c, hc⟩ : ∃ c : Cursor,
    c = ⟨none, x :: t ++ (g ++ (sign.toList ++ (g' ++ right))), 0, []⟩ := ⟨_, rfl⟩
  have hcrest : c.rest = x :: t ++ (g ++ (sign.toList ++ (g' ++ right))) := by rw [hc]
  obtain ⟨c', hreads, hspans⟩ := h.reads_rest
    (c := c.capture (c.past (x :: t) (g ++ (sign.toList ++ (g' ++ right))))) rfl
  have hinline : ∀ y ∈ x :: t, isInline y = true := fun y hy => isInline_of_isSideChar (h.left y hy)
  have hall := reads_capture_few hcrest hinline (by
    rintro t₁ y t₂ rfl
    exact fails_rest (h.left y (by simp)) rfl) hreads
  -- the parts of the pattern are read one after another, however they are put together
  have hcomparison : comparisonPattern.Reads c c' := by
    rw [reads_iff_run?] at hall ⊢
    exact hall
  rw [hc] at hcomparison
  rw [hassoc, captures?, matchAt_of_reads hcomparison]
  have htexts : c'.spans.map Span.text = [right, sign.toList, x :: t] := by
    rw [hspans, text_capture hcrest, hc]
    rfl
  show some (c'.spans.reverse.map Span.text) = _
  rw [List.map_reverse, htexts]
  rfl

end IsComparison

/-! ## No other shape is read -/

/-- The last character before the white space and the word at the end of a text. -/
theorem head?_dropWhile_word {u : List Char} (hs : ∀ x ∈ s, isSideChar x = true)
    (hg : ∀ x ∈ g, isBlank x = true) (hc : isBlank c = false)
    (hstop : g ≠ [] ∨ isSideChar c = false) :
    (((u ++ c :: (g ++ s)).reverse.dropWhile isSideChar).dropWhile isBlank).head? = some c := by
  have hreverse : (u ++ c :: (g ++ s)).reverse = s.reverse ++ (g.reverse ++ c :: u.reverse) := by
    simp
  have hnext : ∀ x ∈ (g.reverse ++ c :: u.reverse).head?, isSideChar x = false := by
    intro x hx
    rcases List.eq_nil_or_concat g with rfl | ⟨g, y, rfl⟩
    · cases hx
      exact hstop.resolve_left (fun hne => hne rfl)
    · rw [List.concat_eq_append, List.reverse_append] at hx
      cases hx
      have hblank : isBlank x = true := hg x (by simp)
      cases hside : isSideChar x with
      | false => rfl
      | true =>
          rw [isBlank_of_isSideChar hside] at hblank
          cases hblank
  rw [hreverse, List.dropWhile_append_of_pos (fun x hx => hs x (List.mem_reverse.mp hx)),
    dropWhile_of_head hnext,
    List.dropWhile_append_of_pos (fun x hx => hg x (List.mem_reverse.mp hx)),
    dropWhile_of_head (fun x hx => by cases hx; exact hc)]
  rfl

theorem stripParens_of_head {fuel : List Char} (h : ∀ c ∈ cs.head?, c ≠ '(') :
    stripParens fuel cs = cs := by
  fun_induction stripParens fuel cs with
  | case1 => exact absurd rfl (h '(' rfl)
  | _ => rfl

namespace IsComparison

variable (h : IsComparison left g sign g' right)

include h

theorem getLast?_eq : (s ++ right).getLast? = right.getLast? := by
  rw [List.getLast?_append, List.getLast?_eq_some_getLast h.right_ne_nil, Option.some_or]

/-- Before the last word stands the sign, and not the keyword. -/
theorem captures?_instanceOf :
    instanceOfPattern.captures? (left ++ g ++ sign.toList ++ g' ++ right) = none := by
  cases hread : instanceOfPattern.captures? (left ++ g ++ sign.toList ++ g' ++ right) with
  | none => rfl
  | some k =>
      exfalso
      obtain ⟨var, gap, gap', name, arguments, -, hshape, -, hgap', hname, harguments⟩ :=
        of_captures?_instanceOf hread
      obtain ⟨t, z, hsign, hz⟩ := exists_last_of_sign h.sign
      have hlast := head?_dropWhile_word (u := left ++ g ++ t) h.right h.after (of_isSignChar hz).1
        (.inr (of_isSignChar hz).2)
      have htext : left ++ g ++ t ++ z :: (g' ++ right) =
          left ++ g ++ sign.toList ++ g' ++ right := by
        rw [hsign]
        simp
      rcases harguments with rfl | ⟨inner, rfl⟩
      · have hside : ∀ x ∈ name, isSideChar x = true := fun x hx => by
          rw [isSideChar, hname.2 x hx, Bool.true_or, Bool.true_or]
        have hkeyword := head?_dropWhile_word (u := var ++ gap ++ "instanceo".toList) (c := 'f')
          hside hgap'.2 (by decide) (.inl hgap'.1)
        have htext' : var ++ gap ++ "instanceo".toList ++ 'f' :: (gap' ++ name) =
            var ++ gap ++ "instanceof".toList ++ gap' ++ (name ++ []) := by
          simp
        rw [htext', ← hshape, ← htext, hlast] at hkeyword
        cases hkeyword
        exact absurd hz (by decide)
      · -- the text ends with the right side, and not with a bracket
        have hend := congrArg List.getLast? hshape
        rw [h.getLast?_eq, ← List.append_assoc name, ← List.append_assoc, List.getLast?_append,
          List.getLast?_singleton, Option.some_or] at hend
        have hbracket : '>' ∈ right := List.mem_of_getLast? hend
        exact ne_of_isSideChar (h.right _ hbracket) (by decide : '>' ∈ conditionMarks) rfl

/-- Every character is on a side, white space or in the sign. -/
theorem forall_mem {P : Char → Prop} (hside : ∀ c, isSideChar c = true → P c)
    (hblank : ∀ c, isBlank c = true → P c) (hsign : ∀ c, isSignChar c = true → P c) :
    ∀ c ∈ left ++ g ++ sign.toList ++ g' ++ right, P c := by
  intro c hc
  simp only [List.mem_append] at hc
  rcases hc with (((hc | hc) | hc) | hc) | hc
  · exact hside c (h.left c hc)
  · exact hblank c (h.before c hc)
  · exact hsign c (isSignChar_of_mem h.sign hc)
  · exact hblank c (h.after c hc)
  · exact hside c (h.right c hc)

/-- The marks of the other shapes do not occur. -/
theorem not_mem : ∀ d ∈ ['(', '&', '|'], d ∉ left ++ g ++ sign.toList ++ g' ++ right := by
  intro d hd
  have hother : isBlank d = false ∧ isSignChar d = false ∧ d ∈ conditionMarks := by
    simp only [List.mem_cons, List.not_mem_nil, or_false] at hd
    rcases hd with rfl | rfl | rfl <;> decide
  have hne := h.forall_mem (P := (· ≠ d)) (fun c hc => ne_of_isSideChar hc hother.2.2)
    (by
      rintro _ hc rfl
      rw [hother.1] at hc
      cases hc)
    (by
      rintro _ hc rfl
      rw [hother.2.1] at hc
      cases hc)
  exact fun hmem => hne d hmem rfl

theorem captures?_equals :
    equalsPattern.captures? (left ++ g ++ sign.toList ++ g' ++ right) = none := by
  cases hread : equalsPattern.captures? (left ++ g ++ sign.toList ++ g' ++ right) with
  | none => rfl
  | some k =>
      obtain ⟨bang, gap, var, argument, -, hshape, -⟩ := of_captures?_equals hread
      have hopener := h.not_mem '(' (by decide)
      rw [hshape] at hopener
      exact absurd (by simp) hopener

/-- The right side holds no other comparison. -/
theorem isMatch_right : comparisonPattern.isMatch right = false := by
  cases hread : comparisonPattern.captures? right with
  | none =>
      rw [captures?, Option.map_eq_none_iff] at hread
      rw [isMatch, hread]
      rfl
  | some k =>
      obtain ⟨left, gap, token, gap', rest, -, hshape, -, htoken, -⟩ :=
        of_captures?_comparison hread
      obtain ⟨z, t, heq, hz⟩ := exists_of_sign htoken
      have hside : isSideChar z = true := h.right z (by rw [hshape, heq]; simp)
      rw [(of_isSignChar hz).2] at hside
      cases hside

/-- The two sides are compared. -/
theorem readCondition_eq :
    readCondition (left ++ g ++ sign.toList ++ g' ++ right) =
      compareSides left (relationOf sign.toList) right := by
  obtain ⟨cs, hcs⟩ : ∃ cs, cs = left ++ g ++ sign.toList ++ g' ++ right := ⟨_, rfl⟩
  obtain ⟨x, t, hleft⟩ := List.exists_cons_of_ne_nil h.left_ne_nil
  have htrim : trim cs = cs := by
    refine trim_of_ends (fun c hc => ?_) (fun c hc => ?_)
    · rw [hcs, hleft] at hc
      cases hc
      exact isBlank_of_isSideChar (h.left x (hleft ▸ List.mem_cons_self))
    · rw [hcs, h.getLast?_eq] at hc
      exact isBlank_of_isSideChar (h.right c (List.mem_of_getLast? hc))
  have hstrip : stripParens cs cs = cs := stripParens_of_head fun c hc => by
    rw [hcs, hleft] at hc
    cases hc
    exact ne_of_isSideChar (h.left x (hleft ▸ List.mem_cons_self)) (by decide)
  have hcontains : ∀ d ∈ ['(', '&', '|'], contains [d, d] cs = false := by
    intro d hd
    refine Bool.eq_false_iff.mpr fun hfound => h.not_mem d hd ?_
    rw [← hcs]
    exact (contains_iff_isInfix.mp hfound).mem (by simp)
  have hside : ∀ {s : List Char}, (∀ c ∈ s, isSideChar c = true) → trim s = s := fun hs =>
    trim_eq_self fun c hc => isBlank_of_isSideChar (hs c hc)
  have hnonempty : cs.isEmpty = false := by rw [hcs, hleft]; rfl
  rw [← hcs, readCondition, htrim, hstrip, hnonempty, hcontains '&' (by decide),
    hcontains '|' (by decide), readInstanceOf, readEquals, hcs, h.captures?_instanceOf,
    h.captures?_equals, h.captures?_comparison]
  dsimp only
  rw [hside h.right, h.isMatch_right, hside h.left]
  rfl

end IsComparison

/-! ## Names and integers -/

/-- The signs that compare integers, each with what it says of the two sides. -/
def integerSigns : List (String × (Int → Int → Bool)) :=
  [("==", fun a b => decide (a = b)), ("!=", fun a b => decide (a ≠ b)),
    ("<", fun a b => decide (a < b)), ("<=", fun a b => decide (a ≤ b)),
    (">", fun a b => decide (b < a)), (">=", fun a b => decide (b ≤ a))]

/-- A name that is no literal: `null` is none, nor is `_1`, which is an integer. The dollar sign counts
as a letter. -/
structure IsName (x : String) : Prop where
  ne_nil : x.toList ≠ []
  char : ∀ c ∈ x.toList, isWord c = true ∨ c = '$'
  symbol : (Value.ofLiteral x.toList).isSymbol = true

variable {x : String} {r : Relation} {n v : Int64} {means : Int → Int → Bool}

theorem IsName.isSideChar (hx : IsName x) : ∀ c ∈ x.toList, isSideChar c = true := by
  intro c hc
  rcases hx.char c hc with hword | rfl
  · exact isSideChar_of_isWord hword
  · decide

theorem isSideChar_of_mem_writeInt (n : Int64) : ∀ c ∈ writeInt n.toInt, isSideChar c = true := by
  intro c hc
  rcases isIntegerChar_cases (isIntegerChar_of_mem_writeInt hc) with rfl | hdigit
  · decide
  · exact isSideChar_of_isWord (isWord_of_isDigit (isDigit_of_isAsciiDigit hdigit))

/-- The literal on the right side is the value. -/
theorem compareSides_integer (hx : IsName x) :
    compareSides x.toList r (writeInt n.toInt) = some ⟨x, r, .int n⟩ := by
  have hleft : x.toList.isEmpty = false := List.isEmpty_eq_false_iff.mpr hx.ne_nil
  have hright : (writeInt n.toInt).isEmpty = false :=
    List.isEmpty_eq_false_iff.mpr (writeInt_ne_nil _)
  have hliteral : isLiteral x.toList = false := by rw [isLiteral, hx.symbol]; rfl
  simp only [compareSides, hleft, hright, hliteral, Value.ofLiteral_writeInt, String.ofList_toList,
    Bool.false_and, Bool.or_self, Bool.false_eq_true, if_false]

/-- The literal on the left side is the value as well, and the relation is turned round. -/
theorem compareSides_integer_left (hx : IsName x) :
    compareSides (writeInt n.toInt) r x.toList = some ⟨x, r.converse, .int n⟩ := by
  have hleft : (writeInt n.toInt).isEmpty = false :=
    List.isEmpty_eq_false_iff.mpr (writeInt_ne_nil _)
  have hright : x.toList.isEmpty = false := List.isEmpty_eq_false_iff.mpr hx.ne_nil
  have hname : isLiteral x.toList = false := by rw [isLiteral, hx.symbol]; rfl
  have hliteral : isLiteral (writeInt n.toInt) = true := by
    rw [isLiteral, Value.ofLiteral_writeInt]
    rfl
  simp only [compareSides, hleft, hright, hname, hliteral, Value.ofLiteral_writeInt,
    String.ofList_toList, Bool.or_self, Bool.false_eq_true, if_false, Bool.not_false, Bool.and_self,
    if_true]
  cases r <;> rfl

/-- What a relation says of two integers, if anything. -/
def says? : Relation → Option (Int → Int → Bool)
  | .eq => some fun a b => decide (a = b)
  | .ne => some fun a b => decide (a ≠ b)
  | .lt => some fun a b => decide (a < b)
  | .le => some fun a b => decide (a ≤ b)
  | .gt => some fun a b => decide (b < a)
  | .ge => some fun a b => decide (b ≤ a)
  | _ => none

theorem holds_of_says? (hr : says? r = some means) (x : String) (n v : Int64) :
    Condition.holds ⟨x, r, .int n, false⟩ (.int v) = some (means v.toInt n.toInt) := by
  have hordering : r.isOrdering = true →
      Condition.holds ⟨x, r, .int n, false⟩ (.int v) = some (r.orders v n) := by
    intro h
    rw [Condition.holds_of_isOrdering h]
    simp [Value.asInt]
  have heq : (Value.int v == Value.int n) = decide (v.toInt = n.toInt) := by
    rw [Bool.eq_iff_iff, beq_iff_eq, decide_eq_true_iff, Int64.toInt_inj, Value.int.injEq]
  cases r with
  | eq =>
      cases hr
      rw [Condition.holds_of_eq rfl, heq]
      simp [Value.isSymbol]
  | ne =>
      cases hr
      rw [Condition.holds_of_ne rfl, bne, heq]
      simp [Value.isSymbol]
  | lt =>
      cases hr
      simp [hordering rfl, Relation.orders, Int64.lt_iff_toInt_lt]
  | le =>
      cases hr
      simp [hordering rfl, Relation.orders, Int64.le_iff_toInt_le]
  | gt =>
      cases hr
      simp [hordering rfl, Relation.orders, Int64.lt_iff_toInt_lt]
  | ge =>
      cases hr
      simp [hordering rfl, Relation.orders, Int64.le_iff_toInt_le]
  | _ => cases hr

/-- The converse says the same of the exchanged sides. -/
theorem says?_converse (hr : says? r = some means) :
    says? r.converse = some fun a b => means b a := by
  cases r with
  | eq =>
      cases hr
      simp [says?, Relation.converse, eq_comm]
  | ne =>
      cases hr
      simp [says?, Relation.converse, eq_comm]
  | isNull | isNotNull | instanceOf => cases hr
  | _ =>
      cases hr
      rfl

/-- The relation of a sign says what the sign says. -/
theorem says?_relationOf (hsign : (sign, means) ∈ integerSigns) :
    sign ∈ relationTokens.map (·.1) ∧ says? (relationOf sign.toList) = some means := by
  simp only [integerSigns, List.mem_cons, Prod.mk.injEq, List.not_mem_nil, or_false] at hsign
  rcases hsign with ⟨rfl, rfl⟩ | ⟨rfl, rfl⟩ | ⟨rfl, rfl⟩ | ⟨rfl, rfl⟩ | ⟨rfl, rfl⟩ | ⟨rfl, rfl⟩
  all_goals exact ⟨by decide, rfl⟩

/-- **Comparisons of integers are read as what they say.** A name is compared with an integer
literal, on either side of it, with any white space around the sign or none. The condition is one of
the name, and it holds of an integer exactly when the comparison does. -/
theorem holds_of_comparison (hx : IsName x) (hsign : (sign, means) ∈ integerSigns)
    (hg : ∀ c ∈ g, isBlank c = true) (hg' : ∀ c ∈ g', isBlank c = true) (n : Int64) :
    (∃ c, parseCondition (String.ofList
          (x.toList ++ g ++ sign.toList ++ g' ++ writeInt n.toInt)) = some c ∧
        c.var = x ∧ ∀ v, Condition.holds ⟨c.var, c.relation, c.value, false⟩ (.int v) =
          some (means v.toInt n.toInt)) ∧
      ∃ c, parseCondition (String.ofList
          (writeInt n.toInt ++ g ++ sign.toList ++ g' ++ x.toList)) = some c ∧
        c.var = x ∧ ∀ v, Condition.holds ⟨c.var, c.relation, c.value, false⟩ (.int v) =
          some (means n.toInt v.toInt) := by
  obtain ⟨htoken, hsays⟩ := says?_relationOf hsign
  have hright : IsComparison x.toList g sign g' (writeInt n.toInt) :=
    { left_ne_nil := hx.ne_nil, left := hx.isSideChar, before := hg, sign := htoken, after := hg',
      right_ne_nil := writeInt_ne_nil _, right := isSideChar_of_mem_writeInt n }
  have hleft : IsComparison (writeInt n.toInt) g sign g' x.toList :=
    { left_ne_nil := writeInt_ne_nil _, left := isSideChar_of_mem_writeInt n, before := hg,
      sign := htoken, after := hg', right_ne_nil := hx.ne_nil, right := hx.isSideChar }
  constructor
  · refine ⟨⟨x, relationOf sign.toList, .int n⟩, ?_, rfl, holds_of_says? hsays x n⟩
    rw [parseCondition, String.toList_ofList, hright.readCondition_eq, compareSides_integer hx]
  · refine ⟨⟨x, (relationOf sign.toList).converse, .int n⟩, ?_, rfl,
      holds_of_says? (says?_converse hsays) x n⟩
    rw [parseCondition, String.toList_ofList, hleft.readCondition_eq, compareSides_integer_left hx]

/-- The smallest integer, right after its sign. -/
theorem holds_of_comparison_smallest :
    ∃ c, parseCondition "count<-9223372036854775808" = some c ∧ c.var = "count" ∧
      ∀ v, Condition.holds ⟨c.var, c.relation, c.value, false⟩ (.int v) =
        some (decide (v.toInt < Int64.minValue.toInt)) := by
  have hname : IsName "count" := ⟨by decide, by decide, by decide⟩
  have hsign : ("<", fun a b : Int => decide (a < b)) ∈ integerSigns := by simp [integerSigns]
  have hnone : ∀ c ∈ ([] : List Char), isBlank c = true := by simp
  have hread := (holds_of_comparison hname hsign hnone hnone Int64.minValue).1
  exact hread

end Testwright.Source
