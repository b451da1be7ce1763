import Testwright.Proofs.Path.Literal
import Testwright.Proofs.Text.Nesting

/-!
# Literal tokens

The texts that are a single literal of a value (`Value.IsToken`): `null`, the two booleans, integers
with underscores between their digits and a mark for long integers, and a text between two quotes
that are the only unescaped ones of their kind. Main statements: a token is read as its value
(`Value.IsToken.ofTrimmed_eq`), and a text is read as what it is exactly when it is neither put
together from more than one quoted text nor an integer with an underscore in another place than
between two digits (`Value.denotes_ofLiteral_iff`).
-/

namespace Testwright

open Text

namespace Value

variable {cs core sign ds suffix l : List Char} {c q : Char} {z : Int} {n : Int64} {v : Value}

/-! ## Tokens -/

/-- What may stand before the digits of an integer. -/
def signs : List (List Char) := [[], ['+'], ['-']]

/-- What may stand behind the digits of an integer. -/
def longSuffixes : List (List Char) := [[], ['l'], ['L']]

/-- Digits that underscores may separate. -/
structure IsSeparated (ds : List Char) : Prop where
  ne_nil : ds ≠ []
  mem : ∀ c ∈ ds, c.isDigit = true ∨ c = '_'
  head : ∀ c ∈ ds.head?, c.isDigit = true
  last : ∀ c ∈ ds.getLast?, c.isDigit = true

/-- The integer that is written with a sign and with digits, which underscores may separate. -/
def signedValue (sign ds : List Char) : Int :=
  let magnitude : Int := Nat.ofDigitChars 10 (ds.filter (· != '_')) 0
  if sign = ['-'] then -magnitude else magnitude

/-- The text is a literal of the integer. -/
inductive IsIntegerToken : List Char → Int → Prop where
  | intro {sign ds suffix : List Char} (hsign : sign ∈ signs) (hds : IsSeparated ds)
      (hsuffix : suffix ∈ longSuffixes) :
      IsIntegerToken (sign ++ ds ++ suffix) (signedValue sign ds)

/-- The text is a single literal of the value. In a string literal the quote that opens it is
escaped wherever it occurs inside. -/
inductive IsToken : List Char → Value → Prop where
  | null : IsToken "null".toList null
  | bool (b : Bool) : IsToken (render (bool b)).toList (bool b)
  | int {cs : List Char} {n : Int64} (h : IsIntegerToken cs n.toInt) : IsToken cs (int n)
  | str {q : Char} {l : List Char} (hq : isQuote q = true)
      (hl : Delimiters.parens.marks.Inside q l) : IsToken (q :: (l ++ [q])) (str (String.ofList l))

/-- What the text stands for: the value of which it is a literal, or else a symbol. -/
def Denotes (cs : List Char) (v : Value) : Prop :=
  IsToken cs v ∨ (∀ w, ¬ IsToken cs w) ∧ v = symbol (String.ofList cs)

/-! ## Texts that look like tokens -/

/-- The text begins and ends with the same quote, but the literal that begins with it ends earlier,
or not at all. -/
def IsLooselyQuoted (cs : List Char) : Prop :=
  ∃ q l, isQuote q = true ∧ cs = q :: (l ++ [q]) ∧ ¬ Delimiters.parens.marks.Inside q l

/-- An underscore has no digit before it, or none after it. -/
def IsMisplaced (core : List Char) : Prop :=
  ∃ a b, core = a ++ '_' :: b ∧ ((∀ c ∈ a, c.isDigit = false) ∨ ∀ c ∈ b, c.isDigit = false)

/-- Without its underscores the text is an integer of 64 bits, but one of them does not stand between
two digits. -/
def HasStrayUnderscore (cs : List Char) : Prop :=
  ∃ core, ∃ suffix ∈ longSuffixes, cs = core ++ suffix ∧ IsMisplaced core ∧
    ∃ n, readInt64 (core.filter (· != '_')) = some n

/-! ## Integers -/

theorem readDigits_eq_some_iff {n : Nat} : readDigits ds = some n ↔
    (ds ≠ [] ∧ ∀ c ∈ ds, c.isDigit = true) ∧ n = Nat.ofDigitChars 10 ds 0 := by
  rw [readDigits, Option.ite_none_right_eq_some, Bool.and_eq_true, Bool.not_eq_true',
    List.isEmpty_eq_false_iff, List.all_eq_true, Option.some_inj, eq_comm]

theorem filter_of_digits (hds : ∀ c ∈ ds, c.isDigit = true) : ds.filter (· != '_') = ds := by
  refine List.filter_eq_self.mpr fun c hc => bne_iff_ne.mpr ?_
  rintro rfl
  exact absurd (hds _ hc) (by decide)

/-- An integer is read from digits with an optional sign before them. -/
theorem readInt_eq_some_iff : readInt cs = some z ↔
    ∃ sign ∈ signs, ∃ ds, cs = sign ++ ds ∧ (ds ≠ [] ∧ ∀ c ∈ ds, c.isDigit = true) ∧
      z = signedValue sign ds := by
  constructor
  · intro h
    unfold readInt at h
    split at h
    · obtain ⟨_, hm, rfl⟩ := Option.map_eq_some_iff.mp h
      obtain ⟨n, hn, hm⟩ := Option.bind_eq_some_iff.mp hm
      cases hm
      obtain ⟨hds, rfl⟩ := readDigits_eq_some_iff.mp hn
      exact ⟨['-'], by decide, _, rfl, hds, by rw [signedValue, filter_of_digits hds.2]; rfl⟩
    · obtain ⟨n, hn, rfl⟩ := Option.map_eq_some_iff.mp h
      obtain ⟨hds, rfl⟩ := readDigits_eq_some_iff.mp hn
      exact ⟨['+'], by decide, _, rfl, hds, by rw [signedValue, filter_of_digits hds.2]; rfl⟩
    · obtain ⟨n, hn, rfl⟩ := Option.map_eq_some_iff.mp h
      obtain ⟨hds, rfl⟩ := readDigits_eq_some_iff.mp hn
      exact ⟨[], by decide, _, rfl, hds, by rw [signedValue, filter_of_digits hds.2]; rfl⟩
  · rintro ⟨sign, hsign, ds, rfl, hds, rfl⟩
    have hread := readDigits_eq_some_iff.mpr ⟨hds, rfl⟩
    rw [signedValue, filter_of_digits hds.2]
    simp only [signs, List.mem_cons, List.not_mem_nil, or_false] at hsign
    rcases hsign with rfl | rfl | rfl
    · rw [List.nil_append]
      unfold readInt
      -- the first character is a digit, and so no sign
      split
      · exact absurd (hds.2 '-' List.mem_cons_self) (by decide)
      · exact absurd (hds.2 '+' List.mem_cons_self) (by decide)
      · rw [hread]
        rfl
    · show (readDigits ds).map Int.ofNat = _
      rw [hread]
      rfl
    · show ((readDigits ds).bind fun n => some (n : Int)).map (fun n => -n) = _
      rw [hread]
      rfl

theorem readInt64_eq_some_iff : readInt64 cs = some n ↔ readInt cs = some n.toInt := by
  rw [readInt64, Option.bind_eq_some_iff]
  constructor
  · rintro ⟨z, hz, hn⟩
    rw [toInt64?, Option.ite_none_right_eq_some] at hn
    obtain ⟨⟨hmin, hmax⟩, hn⟩ := hn
    cases hn
    rw [hz, Int64.toInt_ofInt_of_le hmin (Int.lt_of_le_of_lt hmax (by decide))]
  · exact fun h => ⟨n.toInt, h, toInt64?_toInt n⟩

/-! ## Integers with underscores -/

theorem IsSeparated.filter (hds : IsSeparated ds) :
    ds.filter (· != '_') ≠ [] ∧ ∀ c ∈ ds.filter (· != '_'), c.isDigit = true := by
  refine ⟨?_, fun c hc => ?_⟩
  · obtain ⟨c, r, rfl⟩ := List.exists_cons_of_ne_nil hds.ne_nil
    have hc : (c != '_') = true := by
      refine bne_iff_ne.mpr ?_
      rintro rfl
      exact absurd (hds.head '_' rfl) (by decide)
    rw [List.filter_cons, if_pos hc]
    exact List.cons_ne_nil c _
  · obtain ⟨hmem, hne⟩ := List.mem_filter.mp hc
    exact (hds.mem c hmem).resolve_right (bne_iff_ne.mp hne)

theorem filter_sign (hsign : sign ∈ signs) : sign.filter (· != '_') = sign := by
  have hall : ∀ sign ∈ signs, sign.filter (· != '_') = sign := by decide
  exact hall sign hsign

/-- Where each underscore stands between two digits, the integer is read. -/
theorem readInt_filter (hsign : sign ∈ signs) (hds : IsSeparated ds) :
    readInt ((sign ++ ds).filter (· != '_')) = some (signedValue sign ds) := by
  refine readInt_eq_some_iff.mpr ⟨sign, hsign, ds.filter (· != '_'), ?_, hds.filter, ?_⟩
  · rw [List.filter_append, filter_sign hsign]
  · rw [signedValue, signedValue, List.filter_filter]
    simp only [Bool.and_self]

/-- Digits of which the first and the last one are no underscores. -/
theorem isSeparated_of_filter (hne : ds.filter (· != '_') ≠ [])
    (hdigits : ∀ c ∈ ds.filter (· != '_'), c.isDigit = true) (hfirst : ∀ r, ds ≠ '_' :: r)
    (hlast : ∀ r, ds ≠ r ++ ['_']) : IsSeparated ds := by
  have hmem : ∀ c ∈ ds, c ≠ '_' → c.isDigit = true := fun c hc hother =>
    hdigits c (List.mem_filter.mpr ⟨hc, bne_iff_ne.mpr hother⟩)
  refine ⟨?_, fun c hc => ?_, fun c hc => ?_, fun c hc => ?_⟩
  · rintro rfl
    exact hne rfl
  · by_cases hother : c = '_'
    · exact .inr hother
    · exact .inl (hmem c hc hother)
  · refine hmem c (List.mem_of_head? hc) ?_
    rintro rfl
    obtain ⟨r, hr⟩ := List.head?_eq_some_iff.mp hc
    exact hfirst r hr
  · refine hmem c (List.mem_of_getLast? hc) ?_
    rintro rfl
    obtain ⟨r, hr⟩ := List.getLast?_eq_some_iff.mp hc
    exact hlast r hr

/-- A sign that is left without the underscores stood at the beginning already, unless an underscore
stood there. -/
theorem exists_of_filter_eq_sign {digits : List Char} (hsign : sign ∈ signs)
    (hfirst : ∀ r, core ≠ '_' :: r) (hcore : core.filter (· != '_') = sign ++ digits) :
    ∃ ds, core = sign ++ ds ∧ ds.filter (· != '_') = digits := by
  have hshort : ∀ sign ∈ signs, sign.length ≤ 1 := by decide
  match sign, hshort sign hsign with
  | [], _ => exact ⟨core, rfl, hcore⟩
  | [x], _ =>
    cases core with
    | nil => cases hcore
    | cons c r =>
        have hc : (c != '_') = true := by
          refine bne_iff_ne.mpr ?_
          rintro rfl
          exact hfirst r rfl
        rw [List.filter_cons, if_pos hc] at hcore
        obtain ⟨rfl, hr⟩ := List.cons.inj hcore
        exact ⟨r, rfl, hr⟩

/-- Where an integer is read without its underscores and none of them is misplaced, each stands between
two digits. -/
theorem exists_of_readInt_filter (h : readInt (core.filter (· != '_')) = some z)
    (hplaced : ¬ IsMisplaced core) :
    ∃ sign ∈ signs, ∃ ds, core = sign ++ ds ∧ IsSeparated ds ∧ z = signedValue sign ds := by
  have hsigns : ∀ sign ∈ signs, ∀ c ∈ sign, c.isDigit = false := by decide
  have hfirst : ∀ sign ∈ signs, ∀ r, core ≠ sign ++ '_' :: r := fun sign hsign r hr =>
    hplaced ⟨sign, r, hr, .inl (hsigns sign hsign)⟩
  have hlast : ∀ r, core ≠ r ++ ['_'] := fun r hr =>
    hplaced ⟨r, [], hr, .inr fun c hc => absurd hc List.not_mem_nil⟩
  obtain ⟨sign, hsign, digits, hcore, ⟨hne, hdigits⟩, rfl⟩ := readInt_eq_some_iff.mp h
  obtain ⟨ds, rfl, rfl⟩ := exists_of_filter_eq_sign hsign (hfirst [] (by decide)) hcore
  refine ⟨sign, hsign, ds, rfl, isSeparated_of_filter hne hdigits ?_ ?_, ?_⟩
  · rintro r rfl
    exact hfirst sign hsign r rfl
  · rintro r rfl
    exact hlast (sign ++ r) (List.append_assoc _ _ _).symm
  · rw [signedValue, signedValue, filter_of_digits hdigits]

/-- No underscore is misplaced in digits that underscores separate. -/
theorem not_isMisplaced (hsign : sign ∈ signs) (hds : IsSeparated ds) :
    ¬ IsMisplaced (sign ++ ds) := by
  have hsigns : ∀ sign ∈ signs, '_' ∉ sign := by decide
  rintro ⟨a, b, hcs, hside⟩
  rcases append_eq_append_cons_iff.mp hcs with ⟨w, rfl, rfl⟩ | ⟨w, rfl, -⟩
  · rcases hside with hbefore | hafter
    · -- the digits begin with a digit
      cases w with
      | nil => exact absurd (hds.head '_' rfl) (by decide)
      | cons c w =>
          have hc := hds.head c rfl
          rw [hbefore c (by simp)] at hc
          cases hc
    · -- and end with one
      rcases List.eq_nil_or_concat b with rfl | ⟨b, c, rfl⟩
      · exact absurd (hds.last '_' List.getLast?_concat) (by decide)
      · have hlast : (w ++ '_' :: b.concat c).getLast? = some c := by
          rw [List.concat_eq_append, ← List.cons_append, ← List.append_assoc, List.getLast?_concat]
        have hc := hds.last c hlast
        rw [hafter c (by simp)] at hc
        cases hc
  · exact hsigns _ hsign (by simp)

/-! ## Long integers -/

theorem exists_longSuffix (cs : List Char) :
    ∃ suffix ∈ longSuffixes, cs = dropLongSuffix cs ++ suffix := by
  rw [dropLongSuffix]
  split
  · rename_i hlast
    rw [Bool.or_eq_true, decide_eq_true_eq, decide_eq_true_eq] at hlast
    rcases hlast with hlast | hlast
    · obtain ⟨r, rfl⟩ := List.getLast?_eq_some_iff.mp hlast
      exact ⟨['L'], by decide, by rw [List.dropLast_concat]⟩
    · obtain ⟨r, rfl⟩ := List.getLast?_eq_some_iff.mp hlast
      exact ⟨['l'], by decide, by rw [List.dropLast_concat]⟩
  · exact ⟨[], by decide, (List.append_nil cs).symm⟩

theorem dropLongSuffix_append (hsuffix : suffix ∈ longSuffixes)
    (hlast : ∀ c ∈ core.getLast?, c ≠ 'l' ∧ c ≠ 'L') : dropLongSuffix (core ++ suffix) = core := by
  simp only [longSuffixes, List.mem_cons, List.not_mem_nil, or_false] at hsuffix
  rcases hsuffix with rfl | rfl | rfl
  · rw [List.append_nil, dropLongSuffix, if_neg]
    rw [Bool.or_eq_true, decide_eq_true_eq, decide_eq_true_eq]
    rintro (h | h)
    · exact (hlast _ h).2 rfl
    · exact (hlast _ h).1 rfl
  · rw [dropLongSuffix, List.getLast?_concat, List.dropLast_concat]
    rfl
  · rw [dropLongSuffix, List.getLast?_concat, List.dropLast_concat]
    rfl

/-- The characters of an integer that may have underscores. -/
def isNumberChar (c : Char) : Bool := c.isDigit || ['_', '+', '-'].contains c

theorem isNumberChar_of_readInt (h : readInt (core.filter (· != '_')) = some z) :
    core ≠ [] ∧ ∀ c ∈ core, isNumberChar c = true := by
  obtain ⟨sign, hsign, digits, hcore, ⟨hne, hdigits⟩, -⟩ := readInt_eq_some_iff.mp h
  refine ⟨?_, fun c hc => ?_⟩
  · rintro rfl
    exact hne (List.append_eq_nil_iff.mp hcore.symm).2
  · by_cases hother : c = '_'
    · rw [hother]
      rfl
    have hmem : c ∈ sign ++ digits := hcore ▸ List.mem_filter.mpr ⟨hc, bne_iff_ne.mpr hother⟩
    rcases List.mem_append.mp hmem with hmem | hmem
    · have hall : ∀ sign ∈ signs, ∀ c ∈ sign, isNumberChar c = true := by decide
      exact hall sign hsign c hmem
    · rw [isNumberChar, hdigits c hmem, Bool.true_or]

theorem unquoted?_eq_none (h : ∀ c ∈ cs.head?, isQuote c = false) : unquoted? cs = none := by
  have hquote : ∀ q, isQuote q = true → isEnclosedBy q cs = false := by
    intro q hq
    have hhead : cs.head? ≠ some q := fun hhead => by
      rw [h q hhead] at hq
      cases hq
    rw [isEnclosedBy, beq_eq_false_iff_ne.mpr hhead, Bool.and_false, Bool.false_and]
  rw [unquoted?, hquote '"' rfl, hquote '\'' rfl]
  rfl

/-- The mark of a long integer is not taken for a part of the integer. -/
theorem dropLongSuffix_of_readInt (hsuffix : suffix ∈ longSuffixes)
    (h : readInt (core.filter (· != '_')) = some z) : dropLongSuffix (core ++ suffix) = core := by
  refine dropLongSuffix_append hsuffix fun c hc => ?_
  have hnumber := (isNumberChar_of_readInt h).2 c (List.mem_of_getLast? hc)
  constructor
  · rintro rfl
    cases hnumber
  · rintro rfl
    cases hnumber

/-- A text that is an integer without its underscores is read as that integer. -/
theorem ofTrimmed_of_readInt64 (hsuffix : suffix ∈ longSuffixes)
    (h : readInt64 (core.filter (· != '_')) = some n) : ofTrimmed (core ++ suffix) = int n := by
  have hread := readInt64_eq_some_iff.mp h
  obtain ⟨hne, hchars⟩ := isNumberChar_of_readInt hread
  have hhead : ∀ c ∈ (core ++ suffix).head?, isNumberChar c = true := by
    obtain ⟨x, r, rfl⟩ := List.exists_cons_of_ne_nil hne
    intro c hc
    cases hc
    exact hchars _ List.mem_cons_self
  -- the first character belongs to no other literal
  have hword : ∀ w c, w.head? = some c → isNumberChar c = false → core ++ suffix ≠ w := by
    rintro _ c hw hc rfl
    rw [hhead c hw] at hc
    cases hc
  have hquote : unquoted? (core ++ suffix) = none := by
    refine unquoted?_eq_none fun c hc => Bool.eq_false_iff.mpr fun hquote => ?_
    have hnumber := hhead c hc
    rw [isQuote, Bool.or_eq_true, decide_eq_true_eq, decide_eq_true_eq] at hquote
    rcases hquote with rfl | rfl <;> cases hnumber
  rw [ofTrimmed, if_neg (hword _ 'n' rfl rfl), if_neg (hword _ 't' rfl rfl),
    if_neg (hword _ 'f' rfl rfl), hquote, dropLongSuffix_of_readInt hsuffix hread, h]

/-! ## Reading -/

theorem isEnclosedBy_iff : isEnclosedBy q cs = true ↔ ∃ l, cs = q :: (l ++ [q]) := by
  rw [isEnclosedBy, Bool.and_eq_true, Bool.and_eq_true, decide_eq_true_eq, beq_iff_eq, beq_iff_eq]
  constructor
  · rintro ⟨⟨hlength, hhead⟩, hlast⟩
    obtain ⟨r, rfl⟩ := List.head?_eq_some_iff.mp hhead
    have hr : r ≠ [] := by
      rintro rfl
      exact absurd hlength (Nat.not_succ_le_self 1)
    rw [List.getLast?_cons_of_ne_nil hr] at hlast
    obtain ⟨l, rfl⟩ := List.getLast?_eq_some_iff.mp hlast
    exact ⟨l, rfl⟩
  · rintro ⟨l, rfl⟩
    have hlast : (q :: (l ++ [q])).getLast? = some q := List.getLast?_concat (l := q :: l)
    exact ⟨⟨by simp, rfl⟩, hlast⟩

/-- The text between two quotes of one kind is unquoted. -/
theorem unquoted?_eq_some_iff :
    unquoted? cs = some l ↔ ∃ q, isQuote q = true ∧ cs = q :: (l ++ [q]) := by
  have hinside : ∀ q l, inside (q :: (l ++ [q])) = l := fun q l => by
    rw [inside, List.tail_cons, List.dropLast_concat]
  rw [unquoted?, Option.ite_none_right_eq_some, Bool.or_eq_true, isEnclosedBy_iff, isEnclosedBy_iff]
  constructor
  · rintro ⟨⟨l', rfl⟩ | ⟨l', rfl⟩, hl⟩
    · rw [hinside] at hl
      cases hl
      exact ⟨'"', rfl, rfl⟩
    · rw [hinside] at hl
      cases hl
      exact ⟨'\'', rfl, rfl⟩
  · rintro ⟨q, hq, rfl⟩
    refine ⟨?_, congrArg some (hinside q l)⟩
    rw [isQuote, Bool.or_eq_true, decide_eq_true_eq, decide_eq_true_eq] at hq
    rcases hq with rfl | rfl
    · exact .inl ⟨l, rfl⟩
    · exact .inr ⟨l, rfl⟩

/-- What stands between two quotes is read as a string. -/
theorem ofTrimmed_quoted (hq : isQuote q = true) (l : List Char) :
    ofTrimmed (q :: (l ++ [q])) = str (String.ofList l) := by
  have hword : ∀ w c, w.head? = some c → isQuote c = false → q :: (l ++ [q]) ≠ w := by
    rintro _ c hw hc rfl
    cases hw
    rw [hq] at hc
    cases hc
  rw [ofTrimmed, if_neg (hword _ 'n' rfl rfl), if_neg (hword _ 't' rfl rfl),
    if_neg (hword _ 'f' rfl rfl), unquoted?_eq_some_iff.mpr ⟨q, hq, rfl⟩]

/-- A literal is read as its value. -/
theorem IsToken.ofTrimmed_eq (h : IsToken cs v) : ofTrimmed cs = v := by
  cases h with
  | null => rfl
  | bool b => cases b <;> decide
  | str hq hl => exact ofTrimmed_quoted hq _
  | @int _ n h =>
      generalize hz : n.toInt = z at h
      obtain ⟨hsign, hds, hsuffix⟩ := h
      refine ofTrimmed_of_readInt64 hsuffix (readInt64_eq_some_iff.mpr ?_)
      rw [hz]
      exact readInt_filter hsign hds

/-- What is neither a literal nor taken for one is read as a symbol. -/
theorem ofTrimmed_eq_symbol (htoken : ∀ v, ¬ IsToken cs v) (hquoted : ¬ IsLooselyQuoted cs)
    (hstray : ¬ HasStrayUnderscore cs) : ofTrimmed cs = symbol (String.ofList cs) := by
  have hunquoted : unquoted? cs = none := by
    refine Option.eq_none_iff_forall_ne_some.mpr fun l hl => ?_
    obtain ⟨q, hq, rfl⟩ := unquoted?_eq_some_iff.mp hl
    exact hquoted ⟨q, l, hq, rfl, fun hinside => htoken _ (.str hq hinside)⟩
  have hinteger : readInt64 ((dropLongSuffix cs).filter (· != '_')) = none := by
    refine Option.eq_none_iff_forall_ne_some.mpr fun n hn => ?_
    obtain ⟨suffix, hsuffix, hcs⟩ := exists_longSuffix cs
    have hplaced : ¬ IsMisplaced (dropLongSuffix cs) := fun hmis =>
      hstray ⟨_, suffix, hsuffix, hcs, hmis, n, hn⟩
    obtain ⟨sign, hsign, ds, hcore, hds, hz⟩ :=
      exists_of_readInt_filter (readInt64_eq_some_iff.mp hn) hplaced
    rw [hcore] at hcs
    have hint : IsIntegerToken cs n.toInt := by
      rw [hcs, hz]
      exact .intro hsign hds hsuffix
    exact htoken _ (.int hint)
  rw [ofTrimmed, if_neg, if_neg, if_neg, hunquoted, hinteger]
  · rintro rfl
    exact htoken _ (.bool false)
  · rintro rfl
    exact htoken _ (.bool true)
  · rintro rfl
    exact htoken _ .null

/-! ## Texts that are taken for literals -/

theorem not_denotes_of_isLooselyQuoted (h : IsLooselyQuoted cs) : ¬ Denotes cs (ofTrimmed cs) := by
  obtain ⟨q, l, hq, rfl, hinside⟩ := h
  rw [ofTrimmed_quoted hq]
  generalize hcs : q :: (l ++ [q]) = cs
  generalize hv : str (String.ofList l) = v
  rintro (htoken | ⟨-, rfl⟩)
  · cases htoken with
    | str _ hl =>
        obtain ⟨rfl, hl'⟩ := List.cons.inj hcs
        rw [List.append_cancel_right hl'] at hinside
        exact hinside hl
    | _ => cases hv
  · cases hv

theorem isIntegerToken_of_isToken (h : IsToken cs (int n)) : IsIntegerToken cs n.toInt := by
  cases h with
  | int h => exact h

/-- A literal of an integer has no stray underscore. -/
theorem IsIntegerToken.not_hasStrayUnderscore (h : IsIntegerToken cs z) :
    ¬ HasStrayUnderscore cs := by
  obtain ⟨hsign, hds, hsuffix⟩ := h
  rintro ⟨core, suffix', hsuffix', hcs, hmis, n, hn⟩
  -- both are cut before the mark for long integers
  have hdrop := dropLongSuffix_of_readInt hsuffix (readInt_filter hsign hds)
  rw [hcs, dropLongSuffix_of_readInt hsuffix' (readInt64_eq_some_iff.mp hn)] at hdrop
  rw [hdrop] at hmis
  exact not_isMisplaced hsign hds hmis

theorem not_denotes_of_hasStrayUnderscore (h : HasStrayUnderscore cs) :
    ¬ Denotes cs (ofTrimmed cs) := by
  have hread : ∃ n, ofTrimmed cs = int n := by
    obtain ⟨core, suffix, hsuffix, rfl, -, n, hn⟩ := h
    exact ⟨n, ofTrimmed_of_readInt64 hsuffix hn⟩
  obtain ⟨n, hn⟩ := hread
  rw [hn]
  rintro (htoken | ⟨-, hsymbol⟩)
  · exact (isIntegerToken_of_isToken htoken).not_hasStrayUnderscore h
  · cases hsymbol

/-- **When a text is read as what it stands for.** Trimmed, it is neither a text between two quotes in
which the literal ends earlier, nor an integer with an underscore that does not stand between two
digits. The first is taken for a string and the second for an integer; every single literal is read
as its value, and every other text as a symbol. -/
theorem denotes_ofLiteral_iff (cs : List Char) : Denotes (trim cs) (ofLiteral cs) ↔
    ¬ IsLooselyQuoted (trim cs) ∧ ¬ HasStrayUnderscore (trim cs) := by
  rw [ofLiteral]
  constructor
  · exact fun h => ⟨fun hquoted => not_denotes_of_isLooselyQuoted hquoted h,
      fun hstray => not_denotes_of_hasStrayUnderscore hstray h⟩
  · rintro ⟨hquoted, hstray⟩
    by_cases htoken : ∃ v, IsToken (trim cs) v
    · obtain ⟨v, hv⟩ := htoken
      rw [hv.ofTrimmed_eq]
      exact .inl hv
    · have hnone := not_exists.mp htoken
      exact .inr ⟨hnone, ofTrimmed_eq_symbol hnone hquoted hstray⟩

/-- **A name of an underscore and a digit is taken for an integer**, and two literals with a sign between
them are taken for one. -/
theorem names_and_sums_taken_for_literals :
    (ofLiteral "_5".toList = int 5 ∧ ¬ Denotes "_5".toList (int 5)) ∧
      (ofLiteral "\"a\" + \"b\"".toList = str "a\" + \"b" ∧
        ¬ Denotes "\"a\" + \"b\"".toList (str "a\" + \"b")) := by
  have hname : ofTrimmed "_5".toList = int 5 := by decide
  have hsum : ofTrimmed "\"a\" + \"b\"".toList = str "a\" + \"b" := by decide
  have hinside : ¬ Delimiters.parens.marks.Inside '"' "a\" + \"b".toList := by
    intro h
    cases h with
    | plain _ _ h =>
        cases h with
        | plain hquote _ _ => exact hquote rfl
  refine ⟨⟨by decide, ?_⟩, by decide, ?_⟩
  · rw [← hname]
    exact not_denotes_of_hasStrayUnderscore
      ⟨"_5".toList, [], by decide, by decide, ⟨[], ['5'], by decide, .inl (by decide)⟩, 5, by decide⟩
  · rw [← hsum]
    exact not_denotes_of_isLooselyQuoted ⟨'"', "a\" + \"b".toList, by decide, by decide, hinside⟩

end Value

end Testwright
