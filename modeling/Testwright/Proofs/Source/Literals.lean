import Testwright.Proofs.Source.Bindings
import Testwright.Proofs.Text.Nesting
import Testwright.Proofs.Text.Spelling

/-!
# Literals

Which literals a search for assignments knows, and how far each of them goes (`IsLiteral`): an
integer takes all digits that follow, and the mark of a long one; a string goes up to the first
quote that is not escaped, in the same row; a word takes no notice of what follows. Main statements:
a literal is read as a whole (`IsLiteral.reads`), and wherever one is read, there is one
(`exists_isLiteral_of_spells`).
-/

namespace Testwright.Source

open Text Pattern

variable {c c' : Cursor} {s r : List Char}

/-- The words that are literals. -/
def literalWords : List String := ["null", "true", "false"]

/-- What may stand between the quotes of a string in one row. -/
structure IsRowContent (content : List Char) : Prop where
  inside : Delimiters.parens.marks.Inside '"' content
  row : '\n' ∉ content

/-- A text that is read as a literal where a text follows. -/
inductive IsLiteral : List Char → List Char → Prop where
  | integer {sign digits mark rest : List Char} (hsign : sign ∈ minusSigns) (hne : digits ≠ [])
      (hdigits : ∀ x ∈ digits, isDigit x = true) (hmark : mark ∈ longMarks)
      (hrest : mark = [] → ∀ x ∈ rest.head?, isDigit x = false ∧ isLongMark x = false) :
      IsLiteral (sign ++ (digits ++ mark)) rest
  | string {content rest : List Char} (h : IsRowContent content) :
      IsLiteral ('"' :: (content ++ ['"'])) rest
  | word {w : String} {rest : List Char} (hw : w ∈ literalWords) : IsLiteral w.toList rest

/-! ## Strings -/

/-- The characters of a string that stand for themselves. -/
def isPlainChar (c : Char) : Bool := c != '"' && c != '\\' && c != '\n'

/-- An escaped character, and the plain characters after it. -/
def escapedRun : Pattern := .char '\\' ++ .one isInline ++ .all isPlainChar

/-- More plain characters before a text with them are read as well. -/
theorem only_all_cons {f : Char → Bool} {x : Char} (hc : c.rest = x :: r) (hx : f x = true)
    (h : (all f).Only (c.past [x] r) c') : (all f).Only c c' := by
  show [Cursor.passFrom f c.rest c] = [c']
  rw [hc, Cursor.passFrom, hx, if_pos rfl]
  exact h

theorem escapedRun_shortens : escapedRun.Shortens := by
  apply shortens_of_spells
  rintro _ _ ⟨_, _, _, _, rfl, -, ⟨_, _, _, _, rfl, -, hmark, -⟩, -⟩
  rw [(spells_char.mp hmark).1]
  exact List.cons_ne_nil _ _

/-- The content of a string is read up to the quote that closes it. -/
theorem reads_content {content : List Char} (h : IsRowContent content)
    (hc : c.rest = content ++ '"' :: r) :
    ∃ c₁, (all isPlainChar).Only c c₁ ∧
      (many escapedRun).Reads c₁ (c.past content ('"' :: r)) := by
  obtain ⟨hinside, hrow⟩ := h
  induction hinside generalizing c with
  | nil =>
      have hquote : ∀ x ∈ c.rest.head?, (x == '\\') = false := by
        rw [hc]
        exact head?_cons (by decide)
      have hstop : ∀ x ∈ c.rest.head?, isPlainChar x = false := by
        rw [hc]
        exact head?_cons (by decide)
      have hstay : c.past [] ('"' :: r) = c := Cursor.past_nil hc
      rw [hstay]
      exact ⟨c, only_all_nil hstop, (((fails_one hquote).seq _).seq _).many⟩
  | @plain x content hquote hescape _ ih =>
      obtain ⟨hx, hrow⟩ := List.ne_and_not_mem_of_not_mem_cons hrow
      have hplain : isPlainChar x = true := by
        simp [isPlainChar, hquote, Ne.symm hx, show x ≠ '\\' from hescape]
      obtain ⟨c₁, hall, hmany⟩ := ih (c := c.past [x] (content ++ '"' :: r)) rfl hrow
      rw [Cursor.past_past] at hmany
      exact ⟨c₁, only_all_cons hc hplain hall, hmany⟩
  | @escaped x content _ ih =>
      obtain ⟨-, hrow⟩ := List.ne_and_not_mem_of_not_mem_cons hrow
      obtain ⟨hx, hrow⟩ := List.ne_and_not_mem_of_not_mem_cons hrow
      have hmark : (char '\\').Only c (c.past ['\\'] (x :: (content ++ '"' :: r))) :=
        only_one hc (by decide)
      have hchar : (one isInline).Only (c.past ['\\'] (x :: (content ++ '"' :: r)))
          ((c.past ['\\'] (x :: (content ++ '"' :: r))).past [x] (content ++ '"' :: r)) :=
        only_one rfl (bne_iff_ne.mpr (Ne.symm hx))
      rw [Cursor.past_past] at hchar
      obtain ⟨c₁, hall, hmany⟩ := ih (c := c.past ['\\', x] (content ++ '"' :: r)) rfl hrow
      rw [Cursor.past_past] at hmany
      have hnone : (all isPlainChar).Only c c := only_all_nil (head?_of_rest hc (by decide))
      have hrun : escapedRun.Reads c c₁ := ((hmark.seq hchar).seq hall).reads
      exact ⟨c, hnone, hrun.many_cons escapedRun_shortens hmany⟩

theorem reads_stringLiteral {content : List Char} (h : IsRowContent content)
    (hc : c.rest = '"' :: (content ++ ['"']) ++ r) :
    stringLiteral.Reads c (c.past ('"' :: (content ++ ['"'])) r) := by
  have hrest : c.rest = '"' :: (content ++ '"' :: r) := by
    rw [hc, List.cons_append, List.append_assoc]
    rfl
  have hopen : (char '"').Only c (c.past ['"'] (content ++ '"' :: r)) := only_one hrest (by decide)
  obtain ⟨c₁, hplain, hmany⟩ := reads_content (c := c.past ['"'] (content ++ '"' :: r)) h rfl
  rw [Cursor.past_past] at hmany
  have hclose : (char '"').Only (c.past (['"'] ++ content) ('"' :: r))
      ((c.past (['"'] ++ content) ('"' :: r)).past ['"'] r) := only_one rfl (by decide)
  rw [Cursor.past_past] at hclose
  exact ((hopen.seq hplain).reads.seq hmany).seq hclose.reads

/-! ## Literals are read -/

/-- A word that is a literal begins with a letter. -/
theorem exists_start_of_word {w : String} (hw : w ∈ literalWords) : ∃ x t, w.toList = x :: t ∧
    ((x == '-') = false ∧ isDigit x = false ∧ (x == '"') = false) ∧ isBlank x = false := by
  simp only [literalWords, List.mem_cons, List.not_mem_nil, or_false] at hw
  rcases hw with rfl | rfl | rfl
  · exact ⟨'n', _, rfl, by decide⟩
  · exact ⟨'t', _, rfl, by decide⟩
  · exact ⟨'f', _, rfl, by decide⟩

/-- **A literal is read as a whole**, and nothing after it. -/
theorem IsLiteral.reads {l : List Char} (h : IsLiteral l r) (hc : c.rest = l ++ r) :
    literal.Reads c (c.past l r) := by
  cases h with
  | integer hsign hne hdigits hmark hrest =>
      rw [List.append_assoc, List.append_assoc] at hc
      exact (reads_integers_of_digits hsign hne hdigits hmark hrest hc).either_left _
  | string h =>
      have hfails := fails_integers (x := '"') hc (by decide) (by decide)
      exact hfails.either_reads ((reads_stringLiteral h hc).either_left _)
  | @word w _ hw =>
      have hsplit : ∃ before after, literalWords = before ++ w :: after ∧
          ∀ v ∈ before, ¬ v.toList <+: w.toList ++ r := by
        simp only [literalWords, List.mem_cons, List.not_mem_nil, or_false] at hw
        rcases hw with rfl | rfl | rfl
        · exact ⟨[], _, rfl, by simp⟩
        · exact ⟨["null"], _, rfl, by simp⟩
        · exact ⟨["null", "true"], _, rfl, by simp⟩
      obtain ⟨x, t, hstart, hx, -⟩ := exists_start_of_word hw
      obtain ⟨before, after, hwords, hbefore⟩ := hsplit
      have hfirst : c.rest = x :: (t ++ r) := by
        rw [hc, hstart]
        rfl
      refine reads_literal_of_word hfirst hx ?_
      show (anyOf literalWords).Reads c _
      rw [hwords]
      exact reads_anyOf hc (by rwa [hc])

/-! ## What is read is a literal -/

theorem isRowContent_of_plain {s content : List Char} (hs : ∀ x ∈ s, isPlainChar x = true)
    (h : IsRowContent content) : IsRowContent (s ++ content) := by
  induction s with
  | nil => exact h
  | cons x s ih =>
      obtain ⟨hx, hs⟩ := List.forall_mem_cons.mp hs
      obtain ⟨hinside, hrow⟩ := ih hs
      simp only [isPlainChar, Bool.and_eq_true, bne_iff_ne] at hx
      exact ⟨.plain hx.1.1 hx.1.2 hinside, List.not_mem_cons_of_ne_of_not_mem (Ne.symm hx.2) hrow⟩

theorem isRowContent_of_repeated {s : List Char} {k : List (List Char)}
    (h : Repeated escapedRun.Spells s k) : IsRowContent s := by
  induction h with
  | none => exact ⟨.nil, List.not_mem_nil⟩
  | more hrun _ ih =>
      obtain ⟨_, plain, _, _, rfl, -, ⟨_, _, _, _, rfl, -, hmark, ⟨x, hx, rfl⟩, -⟩, hplain, -⟩ :=
        hrun
      obtain ⟨rfl, -⟩ := spells_char.mp hmark
      obtain ⟨hinside, hrow⟩ := isRowContent_of_plain hplain ih
      have hx' : '\n' ≠ x := Ne.symm (bne_iff_ne.mp hx)
      rw [List.append_assoc]
      exact ⟨.escaped x hinside, List.not_mem_cons_of_ne_of_not_mem (by decide)
        (List.not_mem_cons_of_ne_of_not_mem hx' hrow)⟩

theorem exists_content_of_spells {k : List (List Char)} (h : stringLiteral.Spells s k) :
    ∃ content, IsRowContent content ∧ s = '"' :: (content ++ ['"']) := by
  obtain ⟨_, _, _, _, rfl, -, ⟨_, more, _, _, rfl, -, ⟨_, plain, _, _, rfl, -, hopen, hplain, -⟩,
    hmore⟩, hclose⟩ := h
  obtain ⟨rfl, -⟩ := spells_char.mp hopen
  obtain ⟨rfl, -⟩ := spells_char.mp hclose
  refine ⟨plain ++ more, isRowContent_of_plain hplain (isRowContent_of_repeated hmore), ?_⟩
  simp

/-- Where a sign stands before a digit, an integer begins: it goes on as far as the digits do. -/
theorem exists_integer {sign digits : List Char} (hsign : sign ∈ minusSigns) (hne : digits ≠ [])
    (hdigits : ∀ x ∈ digits, isDigit x = true) (t : List Char) :
    ∃ l r, sign ++ (digits ++ t) = l ++ r ∧ IsLiteral l r := by
  obtain ⟨all, r, hsplit, hall, hr⟩ := exists_split isDigit (digits ++ t)
  have hne' : all ≠ [] := by
    rintro rfl
    obtain ⟨d, ds, rfl⟩ := List.exists_cons_of_ne_nil hne
    have hd := hr d (by rw [← List.nil_append r, ← hsplit]; rfl)
    rw [hdigits d List.mem_cons_self] at hd
    cases hd
  rw [hsplit]
  cases hmark : r.head?.any isLongMark with
  | false =>
      refine ⟨sign ++ (all ++ []), r, by simp, ?_⟩
      refine .integer hsign hne' hall (by decide) fun _ x hx => ?_
      rw [Option.mem_def.mp hx] at hmark
      exact ⟨hr x hx, hmark⟩
  | true =>
      cases r with
      | nil => cases hmark
      | cons x r =>
          have hx : [x] ∈ longMarks := by
            rw [List.head?_cons, Option.any_some, isLongMark, Bool.or_eq_true, beq_iff_eq,
              beq_iff_eq] at hmark
            rcases hmark with rfl | rfl <;> decide
          refine ⟨sign ++ (all ++ [x]), r, by simp, .integer hsign hne' hall hx fun h => ?_⟩
          cases h

theorem exists_digits_of_spells {k : List (List Char)} (h : integers.Spells s k) :
    ∃ sign ∈ minusSigns, ∃ digits t, digits ≠ [] ∧ (∀ x ∈ digits, isDigit x = true) ∧
      s = sign ++ (digits ++ t) := by
  obtain ⟨_, mark, _, _, rfl, -, ⟨sign, digits, _, _, rfl, -, hsign, hdigits⟩, -⟩ := h
  obtain ⟨⟨hne, hall⟩, -⟩ := spells_whole.mp hdigits
  refine ⟨sign, ?_, digits, mark, hne, hall, List.append_assoc _ _ _⟩
  rcases spells_optional.mp hsign with hminus | ⟨rfl, -⟩
  · rw [(spells_char.mp hminus).1]
    decide
  · decide

/-- **Where a literal is read, there is one**: perhaps a longer one than what the pattern alone
says. -/
theorem exists_isLiteral_of_spells {k : List (List Char)} (h : literal.Spells s k) (t : List Char) :
    ∃ l r, s ++ t = l ++ r ∧ IsLiteral l r := by
  rcases h with hinteger | hstring | hword
  · obtain ⟨sign, hsign, digits, u, hne, hdigits, rfl⟩ := exists_digits_of_spells hinteger
    rw [List.append_assoc, List.append_assoc]
    exact exists_integer hsign hne hdigits (u ++ t)
  · obtain ⟨content, hcontent, rfl⟩ := exists_content_of_spells hstring
    exact ⟨_, t, rfl, .string hcontent⟩
  · obtain ⟨⟨w, hw, rfl⟩, -⟩ := spells_anyOf.mp hword
    exact ⟨_, t, rfl, .word hw⟩

/-- No literal begins with white space. -/
theorem IsLiteral.isBlank_of_head {l : List Char} (h : IsLiteral l r) :
    ∀ x ∈ (l ++ r).head?, isBlank x = false := by
  cases h with
  | @integer sign digits mark _ hsign hne hdigits _ _ =>
      obtain ⟨d, ds, rfl⟩ := List.exists_cons_of_ne_nil hne
      simp only [minusSigns, List.mem_cons, List.not_mem_nil, or_false] at hsign
      rcases hsign with rfl | rfl
      · exact head?_cons (isBlank_of_isWord (isWord_of_isDigit (hdigits d List.mem_cons_self)))
      · exact head?_cons (by decide)
  | string h => exact head?_cons (by decide)
  | word hw =>
      obtain ⟨x, t, hstart, -, hx⟩ := exists_start_of_word hw
      rw [hstart]
      exact head?_cons hx

end Testwright.Source
