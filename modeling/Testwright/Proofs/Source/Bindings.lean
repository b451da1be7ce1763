import Testwright.Proofs.NameMap
import Testwright.Proofs.Path.Literal
import Testwright.Proofs.Text.Pattern
import Testwright.Source.TestUnit

/-!
# Arranged values read back

A row that assigns a value written as one word to a plain name is recognised as this assignment
(`findFrom_row`), and so are all rows that follow each other (`exists_found_rows`). So the literals
that are found in a text with such rows include the arranged values (`exists_literals_of_rows`).
-/

namespace Testwright

namespace Text

/-! ## Word characters -/

theorem isWord_of_isDigit {c : Char} (h : isDigit c = true) : isWord c = true := by
  rw [isDigit, Bool.and_eq_true] at h
  rw [isWord, isWordPart, h.1, h.2]
  simp

theorem isDigit_of_isAsciiDigit {c : Char} (h : c.isDigit = true) : isDigit c = true :=
  forall_ascii (P := fun c => c.isDigit = true → isDigit c = true) (by decide)
    (toNat_lt_of_isDigit h) h

/-- What holds of the characters in the ranges of white space holds of all white space. -/
theorem forall_blank {P : Char → Prop}
    (h : ∀ p ∈ blanks, ∀ n ∈ List.range' p.1 (p.2 + 1 - p.1), P (Char.ofNat n)) {c : Char}
    (hc : isBlank c = true) : P c := by
  obtain ⟨p, hp, hlow, hhigh⟩ := Ranges.exists_of_has hc
  rw [← Char.ofNat_toNat c]
  exact h p hp c.toNat (List.mem_range'_1.mpr ⟨hlow, by omega⟩)

theorem isWord_of_isBlank {c : Char} (h : isBlank c = true) : isWord c = false :=
  forall_blank (P := fun c => isWord c = false) (by decide +kernel) h

theorem isBlank_of_isWord {c : Char} (h : isWord c = true) : isBlank c = false := by
  cases hblank : isBlank c with
  | false => rfl
  | true =>
      rw [isWord_of_isBlank hblank] at h
      cases h

/-- The first character of a plain name: a letter without accents, or an underscore. -/
def isNameStart (c : Char) : Bool := c.isAlpha || c == '_'

theorem toNat_lt_of_isAlpha {c : Char} (h : c.isAlpha = true) : c.toNat < 128 := by
  have hcase : c.isUpper = true ∨ c.isLower = true := Bool.or_eq_true_iff.mp h
  rcases hcase with hupper | hlower
  · have hbounds : c.val ≥ 'A'.val ∧ c.val ≤ 'Z'.val := of_decide_eq_true hupper
    exact Nat.lt_of_le_of_lt (UInt32.le_iff_toNat_le.mp hbounds.2) (by decide)
  · have hbounds := of_decide_eq_true (Bool.and_eq_true_iff.mp hlower).2
    exact Nat.lt_of_le_of_lt (UInt32.le_iff_toNat_le.mp hbounds) (by decide)

theorem of_isNameStart {c : Char} (h : isNameStart c = true) :
    isWord c = true ∧ isBlank c = false ∧ (c == '=') = false := by
  have hascii : c.toNat < 128 := by
    rw [isNameStart, Bool.or_eq_true, beq_iff_eq] at h
    rcases h with h | rfl
    · exact toNat_lt_of_isAlpha h
    · decide
  exact forall_ascii (P := fun c => isNameStart c = true →
    isWord c = true ∧ isBlank c = false ∧ (c == '=') = false) (by decide) hascii h

/-- A name of word characters that starts with a letter without accents or an underscore. -/
def isPlainName : List Char → Bool
  | [] => false
  | x :: s => isNameStart x && s.all isWord

theorem exists_of_isPlainName {cs : List Char} (h : isPlainName cs = true) :
    ∃ x s, cs = x :: s ∧ isNameStart x = true ∧ ∀ y ∈ s, isWord y = true := by
  cases cs with
  | nil => cases h
  | cons x s =>
      rw [isPlainName, Bool.and_eq_true, List.all_eq_true] at h
      exact ⟨x, s, rfl, h.1, h.2⟩

theorem isWord_of_isPlainName {cs : List Char} (h : isPlainName cs = true) :
    ∀ y ∈ cs, isWord y = true := by
  obtain ⟨x, s, rfl, hx, hs⟩ := exists_of_isPlainName h
  intro y hy
  rcases List.mem_cons.mp hy with rfl | hy
  · exact (of_isNameStart hx).1
  · exact hs y hy

theorem ne_nil_of_isPlainName {cs : List Char} (h : isPlainName cs = true) : cs ≠ [] := by
  rintro rfl
  cases h

/-- A plain name with more word characters is one. -/
theorem isPlainName_append {a b : List Char} (ha : isPlainName a = true)
    (hb : ∀ x ∈ b, isWord x = true) : isPlainName (a ++ b) = true := by
  obtain ⟨x, s, rfl, hx, hs⟩ := exists_of_isPlainName ha
  have hall : ∀ y ∈ s ++ b, isWord y = true := List.forall_mem_append.mpr ⟨hs, hb⟩
  rw [List.cons_append, isPlainName, hx, List.all_eq_true.mpr hall]
  rfl

end Text

namespace Source

open Text Pattern

variable {c : Cursor} {s r : List Char}

/-! ## Literals -/

theorem head?_cons {x : Char} {f : Char → Bool} (hx : f x = false) :
    ∀ y ∈ (x :: r).head?, f y = false := by
  intro y hy
  cases hy
  exact hx

theorem head?_of_rest {x : Char} {f : Char → Bool} (hc : c.rest = x :: r) (hx : f x = false) :
    ∀ y ∈ c.rest.head?, f y = false := by
  rw [hc]
  exact head?_cons hx

/-- The literals of integers. -/
def integers : Pattern :=
  .optional (.char '-') ++ .whole isDigit ++ .optional (.one fun c => c == 'l' || c == 'L')

/-- The mark of a long integer. -/
def isLongMark (c : Char) : Bool := c == 'l' || c == 'L'

/-- What may stand before the digits of an integer literal. -/
def minusSigns : List (List Char) := [[], ['-']]

/-- What may stand behind them. -/
def longMarks : List (List Char) := [[], ['l'], ['L']]

theorem isLongMark_of_isDigit {x : Char} (hx : isDigit x = true) :
    (x == '-') = false ∧ isLongMark x = false := by
  have hall : ∀ y ∈ ['-', 'l', 'L'], isDigit y = false := by decide
  have hne : ∀ y ∈ ['-', 'l', 'L'], x ≠ y := by
    rintro y hy rfl
    rw [hall x hy] at hx
    cases hx
  simp [isLongMark, hne]

/-- Digits are read with the sign before them and the mark behind them: all digits that follow, and
the mark if there is one. -/
theorem reads_integers_of_digits {sign digits mark : List Char} (hsign : sign ∈ minusSigns)
    (hne : digits ≠ []) (hdigits : ∀ x ∈ digits, isDigit x = true) (hmark : mark ∈ longMarks)
    (hr : mark = [] → ∀ x ∈ r.head?, isDigit x = false ∧ isLongMark x = false)
    (hc : c.rest = sign ++ (digits ++ (mark ++ r))) :
    integers.Reads c (c.past (sign ++ (digits ++ mark)) r) := by
  obtain ⟨d, ds, rfl⟩ := List.exists_cons_of_ne_nil hne
  have hminus : (Pattern.optional (.char '-')).Reads c (c.past sign (d :: ds ++ (mark ++ r))) := by
    simp only [minusSigns, List.mem_cons, List.not_mem_nil, or_false] at hsign
    rcases hsign with rfl | rfl
    · have hd := (isLongMark_of_isDigit (hdigits d List.mem_cons_self)).1
      have hstay : c.past [] (d :: ds ++ (mark ++ r)) = c := Cursor.past_nil hc
      rw [hstay]
      exact (fails_one (head?_of_rest hc hd)).optional.reads
    · exact (only_one (f := (· == '-')) hc rfl).reads.optional
  have hend : ∀ x ∈ (mark ++ r).head?, isDigit x = false := by
    simp only [longMarks, List.mem_cons, List.not_mem_nil, or_false] at hmark
    rcases hmark with rfl | rfl | rfl
    · exact fun x hx => (hr rfl x hx).1
    · exact head?_cons (by decide)
    · exact head?_cons (by decide)
  have hwhole := only_whole (c := c.past sign (d :: ds ++ (mark ++ r))) rfl hdigits hend
  rw [Cursor.past_past] at hwhole
  have hlong : (Pattern.optional (.one isLongMark)).Reads (c.past (sign ++ d :: ds) (mark ++ r))
      ((c.past (sign ++ d :: ds) (mark ++ r)).past mark r) := by
    simp only [longMarks, List.mem_cons, List.not_mem_nil, or_false] at hmark
    rcases hmark with rfl | rfl | rfl
    · have hstay : (c.past (sign ++ d :: ds) r).past [] r = c.past (sign ++ d :: ds) r :=
        Cursor.past_nil rfl
      rw [List.nil_append, hstay]
      exact (fails_one fun x hx => (hr rfl x hx).2).optional.reads
    · exact (only_one (f := isLongMark) rfl rfl).reads.optional
    · exact (only_one (f := isLongMark) rfl rfl).reads.optional
  rw [Cursor.past_past, List.append_assoc] at hlong
  exact (hminus.seq hwhole.reads).seq hlong

theorem isWord_of_isLongMark {x : Char} (hx : isLongMark x = true) : isWord x = true := by
  rw [isLongMark, Bool.or_eq_true, beq_iff_eq, beq_iff_eq] at hx
  rcases hx with rfl | rfl <;> decide

theorem reads_integers {z : Int} (hc : c.rest = writeInt z ++ r)
    (hr : ∀ x ∈ r.head?, isWord x = false) : integers.Reads c (c.past (writeInt z) r) := by
  have hend : ∀ x ∈ r.head?, isDigit x = false ∧ isLongMark x = false := by
    intro x hx
    have hword := hr x hx
    refine ⟨Bool.eq_false_iff.mpr fun h => ?_, Bool.eq_false_iff.mpr fun h => ?_⟩
    · rw [isWord_of_isDigit h] at hword
      cases hword
    · rw [isWord_of_isLongMark h] at hword
      cases hword
  have hdigits : ∀ n, ∀ x ∈ Nat.toDigits 10 n, isDigit x = true := fun n x hx =>
    isDigit_of_isAsciiDigit (isDigit_of_mem_toDigits hx)
  cases z with
  | ofNat n =>
      have hread : integers.Reads c (c.past ([] ++ (Nat.toDigits 10 n ++ [])) r) :=
        reads_integers_of_digits (by decide) Nat.toDigits_ne_nil (hdigits n) (by decide)
          (fun _ => hend) hc
      rwa [List.append_nil] at hread
  | negSucc n =>
      have hread : integers.Reads c (c.past (['-'] ++ (Nat.toDigits 10 (n + 1) ++ [])) r) :=
        reads_integers_of_digits (by decide) Nat.toDigits_ne_nil (hdigits (n + 1)) (by decide)
          (fun _ => hend) hc
      rwa [List.append_nil] at hread

theorem fails_integers {x : Char} (hc : c.rest = x :: r) (hsign : (x == '-') = false)
    (hx : isDigit x = false) : integers.Fails c := by
  have hnone : (Pattern.optional (.char '-')).Only c c := (fails_one (head?_of_rest hc hsign)).optional
  exact (hnone.seq_fails ((fails_one (head?_of_rest hc hx)).seq _)).seq _

/-- A word that is no number and no string is read as such. -/
theorem reads_literal_of_word {c' : Cursor} {x : Char} (hc : c.rest = x :: r)
    (hx : (x == '-') = false ∧ isDigit x = false ∧ (x == '"') = false)
    (h : (anyOf ["null", "true", "false"]).Reads c c') : literal.Reads c c' := by
  have hstring : stringLiteral.Fails c :=
    (((fails_one (head?_of_rest hc hx.2.2)).seq _).seq _).seq _
  exact (fails_integers hc hx.1 hx.2.1).either_reads (hstring.either_reads h)

/-- A value that is written as one word is read as a literal. -/
theorem reads_literal {v : Value} (hv : v.isOneWord = true) (hc : c.rest = v.render.toList ++ r)
    (hr : ∀ x ∈ r.head?, isWord x = false) : literal.Reads c (c.past v.render.toList r) := by
  have hother : ∀ {x y : Char} {t : List Char}, c.rest = x :: t → x ≠ y → ∀ z ∈ c.rest.head?, z ≠ y := by
    intro x y t hc hne z hz
    rw [hc] at hz
    cases hz
    exact hne
  cases v with
  | int n =>
      have hrender : (Value.int n).render.toList = writeInt n.toInt := String.toList_ofList
      rw [hrender] at hc ⊢
      exact (reads_integers hc hr).either_left _
  | null =>
      refine reads_literal_of_word hc (by decide) ?_
      exact (only_word hc).reads.either_left _
  | bool b =>
      cases b with
      | true =>
          refine reads_literal_of_word hc (by decide) ?_
          have hnull : (word "null").Fails c := fails_ofList (hother hc (by decide)) _
          exact hnull.either_reads ((only_word hc).reads.either_left _)
      | false =>
          refine reads_literal_of_word hc (by decide) ?_
          have hnull : (word "null").Fails c := fails_ofList (hother hc (by decide)) _
          have htrue : (word "true").Fails c := fails_ofList (hother hc (by decide)) _
          exact hnull.either_reads (htrue.either_reads (only_word hc).reads)
  | _ => cases hv

/-! ## Assignments -/

theorem isBlank_of_mem_render {v : Value} (hv : v.isOneWord = true) :
    ∀ x ∈ v.render.toList, isBlank x = false := by
  cases v with
  | int n =>
      intro x hx
      have hrender : (Value.int n).render.toList = writeInt n.toInt := String.toList_ofList
      rw [hrender] at hx
      exact (of_isIntegerChar (isIntegerChar_of_mem_writeInt hx)).1
  | null => exact forall_mem_of_any_eq_false (by decide)
  | bool b => cases b <;> exact forall_mem_of_any_eq_false (by decide)
  | _ => cases hv

theorem render_ne_nil {v : Value} (hv : v.isOneWord = true) : v.render.toList ≠ [] := by
  cases v with
  | int n =>
      have hrender : (Value.int n).render.toList = writeInt n.toInt := String.toList_ofList
      rw [hrender]
      exact writeInt_ne_nil _
  | null => decide
  | bool b => cases b <;> decide
  | _ => cases hv

/-- The pattern of the names that are assigned to. -/
def assignedName : Pattern := .one isNameStart ++ .all isWord

theorem only_assignedName {cs : List Char} (hc : c.rest = cs ++ r) (hname : isPlainName cs = true)
    (hr : ∀ x ∈ r.head?, isWord x = false) : assignedName.Only c (c.past cs r) := by
  obtain ⟨x, s, rfl, hx, hs⟩ := exists_of_isPlainName hname
  have hfirst : (one isNameStart).Only c (c.past [x] (s ++ r)) := only_one hc hx
  have hrest : (all isWord).Only (c.past [x] (s ++ r)) ((c.past [x] (s ++ r)).past s r) :=
    only_all rfl hs hr
  rw [Cursor.past_past] at hrest
  exact hfirst.seq hrest

/-- An assignment of a value to a name. -/
def assignment (e : String × Value) : List Char :=
  e.1.toList ++ ' ' :: '=' :: ' ' :: (e.2.render.toList ++ [';'])

/-- An assignment is read whatever the white space around the equals sign is, if its literal is. -/
theorem reads_literalBinding_of_literal {n g g' l : List Char} (hname : isPlainName n = true)
    (hg : ∀ x ∈ g, isBlank x = true) (hg' : ∀ x ∈ g', isBlank x = true)
    (hl : ∀ x ∈ (l ++ r).head?, isBlank x = false) (hedge : c.atEdge = true)
    (hc : c.rest = n ++ (g ++ '=' :: (g' ++ (l ++ r))))
    (hliteral : ∀ c₁ : Cursor, c₁.rest = l ++ r → literal.Reads c₁ (c₁.past l r)) :
    ∃ c', literalBinding.Reads c c' ∧ c'.rest = r ∧
      c'.spans.map Span.text = l :: n :: c.spans.map Span.text := by
  have hword : ∀ x ∈ (g ++ '=' :: (g' ++ (l ++ r))).head?, isWord x = false := by
    cases g with
    | nil => exact head?_cons (by decide)
    | cons x g => exact head?_cons (isWord_of_isBlank (hg x List.mem_cons_self))
  have hcapture := (only_assignedName hc hname hword).capture
  have hspans := text_capture hc
  -- the places after the name, the white space, the equals sign and the white space after it
  let c₁ := c.capture (c.past n (g ++ '=' :: (g' ++ (l ++ r))))
  let c₂ := c₁.past g ('=' :: (g' ++ (l ++ r)))
  let c₃ := c₂.past ['='] (g' ++ (l ++ r))
  let c₄ := c₃.past g' (l ++ r)
  have hblank₁ : Pattern.blank.Only c₁ c₂ := only_all rfl hg (head?_cons (by decide))
  have hequals : (Pattern.char '=').Only c₂ c₃ := only_one (x := '=') rfl rfl
  have hblank₂ : Pattern.blank.Only c₃ c₄ := only_all rfl hg' hl
  have hbefore := ((((only_edge hedge).seq hcapture).seq hblank₁).seq hequals).seq hblank₂
  refine ⟨_, hbefore.reads.seq (hliteral c₄ rfl).capture, rfl, ?_⟩
  have hlast := text_capture (c := c₄) (s := l) (r := r) rfl
  rw [hlast]
  exact congrArg _ hspans

/-- The assignment is read up to the semicolon. -/
theorem reads_literalBinding {e : String × Value} (hname : isPlainName e.1.toList = true)
    (hv : e.2.isOneWord = true) (hedge : c.atEdge = true) (hc : c.rest = assignment e ++ r) :
    ∃ c', literalBinding.Reads c c' ∧ c'.rest = ';' :: r ∧
      c'.spans.map Span.text = e.2.render.toList :: e.1.toList :: c.spans.map Span.text := by
  have hrest : c.rest =
      e.1.toList ++ ([' '] ++ '=' :: ([' '] ++ (e.2.render.toList ++ ';' :: r))) := by
    rw [hc, assignment]
    simp
  have hblank : ∀ x ∈ [' '], isBlank x = true := List.all_eq_true.mp (by decide)
  refine reads_literalBinding_of_literal hname hblank hblank ?_ hedge hrest ?_
  · obtain ⟨x, t, ht⟩ := List.exists_cons_of_ne_nil (render_ne_nil hv)
    rw [ht]
    exact head?_cons (isBlank_of_mem_render hv x (by rw [ht]; exact List.mem_cons_self))
  · exact fun c₁ hc₁ => reads_literal hv hc₁ (head?_cons (by decide))

/-- There is no assignment where no name starts. -/
theorem fails_literalBinding_of_start (h : ∀ x ∈ c.rest.head?, isNameStart x = false) :
    literalBinding.Fails c := by
  have hname : (capture assignedName).Fails c := ((fails_one h).seq _).capture
  have hedge : (edge ++ capture assignedName).Fails c := by
    cases hat : c.atEdge with
    | true => exact (only_edge hat).seq_fails hname
    | false => exact (fails_edge hat).seq _
  exact (((hedge.seq _).seq _).seq _).seq _

/-- There is none either at a word that no equals sign follows. -/
theorem fails_literalBinding_of_word {w gap t : List Char} (hc : c.rest = w ++ (gap ++ t))
    (hw : ∀ y ∈ w, isWord y = true) (hword : ∀ y ∈ (gap ++ t).head?, isWord y = false)
    (hgap : ∀ y ∈ gap, isBlank y = true)
    (ht : ∀ y ∈ t.head?, isBlank y = false ∧ (y == '=') = false) (hne : w ≠ []) :
    literalBinding.Fails c := by
  obtain ⟨x, s, rfl⟩ := List.exists_cons_of_ne_nil hne
  cases hx : isNameStart x with
  | false => exact fails_literalBinding_of_start (head?_of_rest hc hx)
  | true =>
      have hplain : isPlainName (x :: s) = true := by
        rw [isPlainName, hx, Bool.true_and, List.all_eq_true]
        exact fun y hy => hw y (List.mem_cons_of_mem x hy)
      have hname := (only_assignedName hc hplain hword).capture
      have hblank : Pattern.blank.Only _ _ :=
        only_all (c := c.capture (c.past (x :: s) (gap ++ t))) rfl hgap fun y hy => (ht y hy).1
      have heq : (Pattern.char '=').Fails
          ((c.capture (c.past (x :: s) (gap ++ t))).past gap t) := fails_one fun y hy => (ht y hy).2
      cases hat : c.atEdge with
      | true =>
          have hbefore := ((only_edge hat).seq hname).seq hblank
          exact ((hbefore.seq_fails heq).seq _).seq _
      | false => exact (((((fails_edge hat).seq _).seq _).seq _).seq _).seq _

/-! ## Rows -/

variable {skipped : List Char} {before : Option Char}

/-- A search for assignments passes over text in which no name starts. -/
theorem findFrom_plain (hs : ∀ x ∈ s, isNameStart x = false) (r : List Char) :
    literalBinding.findFrom skipped before (s ++ r) =
      literalBinding.findFrom (s.reverse ++ skipped) (s.getLast?.or before) r :=
  findFrom_append fun x _ hsuffix _ =>
    fails_literalBinding_of_start (head?_cons (hs x (hsuffix.subset List.mem_cons_self)))

/-- It also passes over a word that no equals sign follows. -/
theorem findFrom_word {w gap t : List Char} (hw : ∀ y ∈ w, isWord y = true)
    (hword : ∀ y ∈ (gap ++ t).head?, isWord y = false) (hgap : ∀ y ∈ gap, isBlank y = true)
    (ht : ∀ y ∈ t.head?, isBlank y = false ∧ (y == '=') = false) :
    literalBinding.findFrom skipped before (w ++ (gap ++ t)) =
      literalBinding.findFrom (w.reverse ++ skipped) (w.getLast?.or before) (gap ++ t) :=
  findFrom_append fun _ _ hsuffix _ =>
    fails_literalBinding_of_word rfl (fun y hy => hw y (hsuffix.subset hy)) hword hgap ht
      (List.cons_ne_nil _ _)

/-- What stands before the name in the row of a value. -/
def rowKeyword (v : Value) : String := if v.isNull then "Object" else "var"

/-- The indentation of a row, with the line feed before it. -/
def indentation : List Char := ['\n', ' ', ' ', ' ', ' ']

/-- A row that assigns a value. -/
def arrangedRow (e : String × Value) : List Char :=
  indentation ++ ((rowKeyword e.2).toList ++ ' ' :: assignment e)

/-- A name with a value that can be arranged and read back. -/
structure IsArrangeable (e : String × Value) : Prop where
  name : isPlainName e.1.toList = true
  value : e.2.isOneWord = true

theorem isWord_of_mem_rowKeyword (v : Value) : ∀ x ∈ (rowKeyword v).toList, isWord x = true := by
  rw [rowKeyword]
  cases v.isNull <;> exact List.all_eq_true.mp (by decide)

/-- An assignment begins with the name. -/
theorem IsArrangeable.exists_start {e : String × Value} (he : IsArrangeable e) :
    ∃ x t, assignment e = x :: t ∧ isNameStart x = true := by
  obtain ⟨x, s, hcs, hx, -⟩ := exists_of_isPlainName he.name
  exact ⟨x, _, by rw [assignment, hcs]; rfl, hx⟩

/-- The assignment in a row is found first, up to its semicolon. -/
theorem findFrom_row {e : String × Value} (he : IsArrangeable e) (skipped : List Char)
    (before : Option Char) (r : List Char) :
    ∃ f, literalBinding.findFrom skipped before (arrangedRow e ++ r) = some f ∧
      bindingOf f = some e ∧ f.rest = ';' :: r := by
  obtain ⟨x, t, hstart, hx⟩ := he.exists_start
  obtain ⟨hword, hblank, hequals⟩ := of_isNameStart hx
  have hrow : arrangedRow e ++ r =
      indentation ++ ((rowKeyword e.2).toList ++ ([' '] ++ (assignment e ++ r))) := by
    simp [arrangedRow]
  have hafter : ∀ y ∈ (assignment e ++ r).head?, isBlank y = false ∧ (y == '=') = false := by
    rw [hstart]
    intro y hy
    cases hy
    exact ⟨hblank, hequals⟩
  -- the search passes over the indentation, the keyword and the blank after it
  rw [hrow, findFrom_plain (forall_mem_of_any_eq_false (by decide)),
    findFrom_word (isWord_of_mem_rowKeyword e.2) (head?_cons (by decide))
      (List.all_eq_true.mp (by decide)) hafter,
    findFrom_plain (forall_mem_of_any_eq_false (by decide))]
  have hedge : Cursor.atEdge ⟨some ' ', assignment e ++ r, 0, []⟩ = true := by
    rw [Cursor.atEdge, hstart]
    show (isWord ' ' != isWord x) = true
    rw [hword]
    decide
  obtain ⟨c', hreads, hrest, hspans⟩ := reads_literalBinding he.name he.value hedge rfl
  refine ⟨_, findFrom_of_reads hreads, ?_, hrest⟩
  have hglued : isGlued (';' :: r) = false := by
    show (isAlphanumeric ';' || ';' == '_' || ';' == '.') = false
    decide
  rw [bindingOf, List.map_reverse, hspans]
  show (if isGlued c'.rest then none else some (String.ofList e.1.toList, Value.ofLiteral e.2.render.toList)) = _
  rw [hrest, hglued, if_neg Bool.false_ne_true, String.ofList_toList, Value.ofLiteral_render he.value]

/-- A text after which a search for assignments comes to a row that follows. -/
def LeadsToRow (s : List Char) : Prop :=
  ∀ e, IsArrangeable e → ∀ r skipped before, ∃ skipped' before',
    literalBinding.findFrom skipped before (s ++ (arrangedRow e ++ r)) =
      literalBinding.findFrom skipped' before' (arrangedRow e ++ r)

theorem leadsToRow_semicolon : LeadsToRow [';'] := fun _ _ _ _ _ =>
  ⟨_, _, findFrom_plain (forall_mem_of_any_eq_false (by decide)) _⟩

/-- All assignments of rows that follow each other are found. -/
theorem exists_found_rows {rows : List (String × Value)} (hrows : ∀ e ∈ rows, IsArrangeable e)
    {s : List Char} (hs : LeadsToRow s) (r fuel : List Char) (hfuel : rows.length ≤ fuel.length)
    (before : Option Char) :
    ∀ e ∈ rows, ∃ f ∈ literalBinding.findAllFrom fuel before (s ++ (rows.flatMap arrangedRow ++ r)),
      bindingOf f = some e := by
  induction rows generalizing s fuel before with
  | nil => exact fun e he => absurd he List.not_mem_nil
  | cons first rows ih =>
      cases fuel with
      | nil => exact absurd hfuel (Nat.not_succ_le_zero _)
      | cons y fuel =>
          have hfirst := hrows first List.mem_cons_self
          obtain ⟨skipped, before', hpass⟩ := hs first hfirst (rows.flatMap arrangedRow ++ r) [] before
          obtain ⟨f, hfound, hbinding, hrest⟩ :=
            findFrom_row hfirst skipped before' (rows.flatMap arrangedRow ++ r)
          rw [List.flatMap_cons, List.append_assoc, findAllFrom, hpass, hfound]
          intro e he
          rcases List.mem_cons.mp he with rfl | he
          · exact ⟨f, List.mem_cons_self, hbinding⟩
          · obtain ⟨g, hg, hbinding'⟩ := ih (fun e he => hrows e (List.mem_cons_of_mem first he))
              leadsToRow_semicolon fuel (Nat.le_of_succ_le_succ hfuel) (lastOf f before) e he
            rw [List.singleton_append, ← hrest] at hg
            exact ⟨g, List.mem_cons_of_mem f hg, hbinding'⟩

/-- What is found for a name is among its literals. -/
theorem exists_literals {cs : List Char} {e : String × Value}
    (h : ∃ f ∈ literalBinding.findAll cs, bindingOf f = some e) :
    ∃ vs, (literalBindings cs).find? e.1 = some vs ∧ e.2 ∈ vs := by
  let found := (literalBinding.findAll cs).filterMap bindingOf
  obtain ⟨f, hf, hbinding⟩ := h
  have hmem : e ∈ found.filter (·.1 = e.1) := by
    rw [List.mem_filter, decide_eq_true_eq]
    exact ⟨List.mem_filterMap.mpr ⟨f, hf, hbinding⟩, rfl⟩
  have hsome : (found.filter (·.1 = e.1)).isEmpty = false :=
    List.isEmpty_eq_false_iff_exists_mem.mpr ⟨e, hmem⟩
  refine ⟨(found.filter (·.1 = e.1)).map (·.2), ?_, List.mem_map_of_mem hmem⟩
  rw [literalBindings, NameMap.find?_map, NameMap.find?_group, hsome]
  rfl

theorem length_le_rows (rows : List (String × Value)) :
    rows.length ≤ (rows.flatMap arrangedRow).length := by
  induction rows with
  | nil => exact Nat.le_refl 0
  | cons e rows ih =>
      have hrow : 0 < (arrangedRow e).length := by simp [arrangedRow, indentation]
      rw [List.flatMap_cons, List.length_append, List.length_cons]
      omega

/-- **Arranged values are read back.** The literals that are found in a text with rows that assign
values include all these values. -/
theorem exists_literals_of_rows {rows : List (String × Value)}
    (hrows : ∀ e ∈ rows, IsArrangeable e) {s : List Char} (hs : LeadsToRow s) (r : List Char) :
    ∀ e ∈ rows, ∃ vs,
      (literalBindings (s ++ (rows.flatMap arrangedRow ++ r))).find? e.1 = some vs ∧
        e.2 ∈ vs := by
  intro e he
  have hlength := length_le_rows rows
  apply exists_literals
  refine exists_found_rows hrows hs r _ ?_ none e he
  rw [List.length_append, List.length_append]
  omega

end Source

end Testwright
