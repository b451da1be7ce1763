import Mathlib.Data.List.TakeDrop
import Testwright.Json.Printer
import Testwright.Json.Token

/-!
# Tokens read back

A text that was written token by token is cut into these tokens again. Main statements: a string in
quotes is read up to its closing quote (`StringScan.scan_written`), a number up to the first
character that cannot go on with it (`Number.WellFormed.scanNumber_eq`), and a text that consists of
some tokens has exactly these (`ConsistsOf.scan_eq`).
-/

namespace Testwright.Json

/-! ## Strings -/

namespace StringScan

theorem hexValue_hexDigit {n : Nat} (h : n < 16) : hexValue (hexDigit n) = some n := by
  have hall : ∀ n < 16, hexValue (hexDigit n) = some n := by decide
  exact hall n h

/-- A control character is no half of a surrogate pair. -/
theorem pushUnit_control (s : StringScan) {c : Char} (h : c.toNat < 0x20) :
    s.pushUnit c.toNat = s.push c := by
  rw [pushUnit, if_neg (by omega), if_neg (by omega), Char.ofNat_toNat]

/-- A character is read back, whether it was escaped or not. -/
theorem scan_escapeChar (done : List Char) (c : Char) (rest : List Char) :
    scan { chars := done } (escapeChar c rest) = scan { chars := c :: done } rest := by
  unfold escapeChar
  split
  · rfl
  · rfl
  · rfl
  · rfl
  · rfl
  · rfl
  · rfl
  · rename_i hquote hslash _ _ _ _ _
    split
    · rename_i hcontrol
      have hvalue : c.toNat / 16 * 16 + c.toNat % 16 = c.toNat := Nat.div_add_mod' _ _
      simp [scan, hexValue_hexDigit (n := c.toNat / 16) (by omega),
        hexValue_hexDigit (n := c.toNat % 16) (by omega), hvalue, pushUnit_control _ hcontrol, push,
        show hexValue '0' = some 0 from rfl]
    · rename_i hplain
      simp only [scan, if_neg hquote, if_neg hslash, if_neg hplain]
      rfl

/-- A string is read up to the quote that closes it. -/
theorem scan_written (cs done tail : List Char) :
    scan { chars := done } (cs.foldr escapeChar ('"' :: tail)) =
      some (some (String.ofList (done.reverse ++ cs)), tail) := by
  induction cs generalizing done with
  | nil => simp [scan, finish]
  | cons c cs ih =>
      rw [List.foldr_cons, scan_escapeChar, ih, List.reverse_cons, List.append_assoc]
      rfl

theorem suffix_escapeChar (c : Char) (rest : List Char) : rest <:+ escapeChar c rest := by
  unfold escapeChar
  split
  case h_8 =>
    split
    · exact ⟨['\\', 'u', '0', '0', _, _], rfl⟩
    · exact List.suffix_cons _ _
  -- a backslash and a letter
  all_goals exact ⟨['\\', _], rfl⟩

theorem suffix_foldr_escapeChar (cs rest : List Char) : rest <:+ cs.foldr escapeChar rest := by
  induction cs with
  | nil => exact List.suffix_refl rest
  | cons c cs ih => exact ih.trans (suffix_escapeChar c _)

end StringScan

/-! ## Numbers -/

/-- A number as the format has it: no zero before other digits, and digits in every part that is
there. -/
structure Number.WellFormed (n : Number) : Prop where
  whole_allowed : wholeAllowed n.whole = true
  whole_digits : ∀ c ∈ n.whole, c.isDigit = true
  fraction_digits : ∀ c ∈ n.fraction, c.isDigit = true
  exponent_ne_nil : ∀ e ∈ n.exponent, e.2 ≠ []
  exponent_digits : ∀ e ∈ n.exponent, ∀ c ∈ e.2, c.isDigit = true

/-- Whether a number that stands before this text ends where the text begins. -/
def EndsNumber (tail : List Char) : Prop :=
  ∀ c ∈ tail.head?, c.isDigit = false ∧ c ≠ '.' ∧ c ≠ 'e' ∧ c ≠ 'E'

section

variable {ds tail : List Char} {neg : Bool}

/-- The digits at the beginning of a text. -/
theorem span_digits (hds : ∀ c ∈ ds, c.isDigit = true)
    (htail : ∀ c ∈ tail.head?, c.isDigit = false) :
    (ds ++ tail).span Char.isDigit = (ds, tail) := by
  rw [List.span_eq_takeWhile_dropWhile, List.takeWhile_append_of_pos hds,
    List.dropWhile_append_of_pos hds]
  cases tail with
  | nil => rw [List.takeWhile_nil, List.append_nil, List.dropWhile_nil]
  | cons c tail =>
      have hc := htail c rfl
      rw [List.takeWhile_cons_of_neg (by rw [hc]; decide), List.append_nil,
        List.dropWhile_cons_of_neg (by rw [hc]; decide)]

theorem scanFraction_of_head (htail : ∀ c ∈ tail.head?, c ≠ '.') :
    scanFraction tail = some ([], tail) := by
  unfold scanFraction
  split
  · exact absurd rfl (htail '.' rfl)
  · rfl

theorem scanFraction_written (hne : ds ≠ []) (hds : ∀ c ∈ ds, c.isDigit = true)
    (htail : ∀ c ∈ tail.head?, c.isDigit = false) :
    scanFraction ('.' :: (ds ++ tail)) = some (ds, tail) := by
  rw [scanFraction, span_digits hds htail]
  exact if_neg (by simpa using hne)

theorem scanExponentDigits_written (hne : ds ≠ []) (hds : ∀ c ∈ ds, c.isDigit = true)
    (htail : EndsNumber tail) :
    scanExponentDigits neg (ds ++ tail) = some (some (neg, ds), tail) := by
  rw [scanExponentDigits, span_digits hds fun c hc => (htail c hc).1]
  exact if_neg (by simpa using hne)

theorem scanExponent_of_endsNumber (h : EndsNumber tail) :
    scanExponent tail = some (none, tail) := by
  cases tail with
  | nil => rfl
  | cons c tail =>
      obtain ⟨-, -, hlower, hupper⟩ := h c rfl
      exact if_neg (by simp [hlower, hupper])

theorem scanExponent_written (hne : ds ≠ []) (hds : ∀ c ∈ ds, c.isDigit = true)
    (htail : EndsNumber tail) :
    scanExponent ('e' :: (ds ++ tail)) = some (some (false, ds), tail) := by
  obtain ⟨d, digits, rfl⟩ := List.exists_cons_of_ne_nil hne
  -- the exponent begins with a digit, not with a sign
  have hsign : ∀ sign rest, sign.isDigit = false → d :: digits ++ tail ≠ sign :: rest := by
    intro sign rest hdigit h
    rw [← (List.cons.inj h).1, hds d List.mem_cons_self] at hdigit
    cases hdigit
  rw [scanExponent]
  · exact scanExponentDigits_written hne hds htail
  · exact fun rest => hsign '-' rest rfl
  · exact fun rest => hsign '+' rest rfl

theorem scanExponent_written_negative (hne : ds ≠ []) (hds : ∀ c ∈ ds, c.isDigit = true)
    (htail : EndsNumber tail) :
    scanExponent ('e' :: '-' :: (ds ++ tail)) = some (some (true, ds), tail) :=
  scanExponentDigits_written hne hds htail

end

/-- The exponent of a number, if it has one, and what follows. -/
def Number.exponentAndTail (n : Number) (tail : List Char) : List Char :=
  match n.exponent with
  | none => tail
  | some (true, ds) => 'e' :: '-' :: (ds ++ tail)
  | some (false, ds) => 'e' :: (ds ++ tail)

/-- What stands after the digits before the point. -/
def Number.afterWhole (n : Number) (tail : List Char) : List Char :=
  if n.fraction.isEmpty then n.exponentAndTail tail
  else '.' :: (n.fraction ++ n.exponentAndTail tail)

namespace Number.WellFormed

variable {n : Number} {tail : List Char}

theorem whole_ne_nil (h : n.WellFormed) : n.whole ≠ [] := by
  intro hnil
  have hallowed := h.whole_allowed
  rw [hnil] at hallowed
  exact absurd hallowed (by decide)

theorem scanExponent_eq (h : n.WellFormed) (htail : EndsNumber tail) :
    scanExponent (n.exponentAndTail tail) = some (n.exponent, tail) := by
  have hne := h.exponent_ne_nil
  have hds := h.exponent_digits
  rw [exponentAndTail]
  cases he : n.exponent with
  | none => exact scanExponent_of_endsNumber htail
  | some e =>
      obtain ⟨negative, ds⟩ := e
      cases negative with
      | true => exact scanExponent_written_negative (hne _ he) (hds _ he) htail
      | false => exact scanExponent_written (hne _ he) (hds _ he) htail

theorem head?_exponentAndTail (htail : EndsNumber tail) :
    ∀ c ∈ (n.exponentAndTail tail).head?, c.isDigit = false ∧ c ≠ '.' := by
  intro c hc
  rw [exponentAndTail] at hc
  split at hc
  · exact ⟨(htail c hc).1, (htail c hc).2.1⟩
  · cases hc
    decide
  · cases hc
    decide

theorem scanFraction_eq (h : n.WellFormed) (htail : EndsNumber tail) :
    scanFraction (n.afterWhole tail) = some (n.fraction, n.exponentAndTail tail) := by
  have hhead := head?_exponentAndTail (n := n) htail
  rw [afterWhole]
  split
  · rename_i hempty
    rw [List.isEmpty_iff.mp hempty]
    exact scanFraction_of_head fun c hc => (hhead c hc).2
  · rename_i hsome
    exact scanFraction_written (by simpa using hsome) h.fraction_digits fun c hc => (hhead c hc).1

theorem head?_afterWhole (htail : EndsNumber tail) :
    ∀ c ∈ (n.afterWhole tail).head?, c.isDigit = false := by
  intro c hc
  rw [afterWhole] at hc
  split at hc
  · exact (head?_exponentAndTail htail c hc).1
  · cases hc
    decide

/-- A number is read up to the first character that cannot go on with it. -/
theorem scanNumber_eq (h : n.WellFormed) (htail : EndsNumber tail) :
    scanNumber n.negative (n.whole ++ n.afterWhole tail) = some (n, tail) := by
  rw [scanNumber, span_digits h.whole_digits (head?_afterWhole htail)]
  simp [h.whole_allowed, h.scanFraction_eq htail, h.scanExponent_eq htail]

end Number.WellFormed

theorem Number.suffix_afterWhole (n : Number) (tail : List Char) : tail <:+ n.afterWhole tail := by
  have hexponent : tail <:+ n.exponentAndTail tail := by
    rw [exponentAndTail]
    split
    · exact List.suffix_refl tail
    · exact ⟨'e' :: '-' :: _, rfl⟩
    · exact ⟨'e' :: _, rfl⟩
  rw [afterWhole]
  split
  · exact hexponent
  · exact hexponent.trans ⟨'.' :: n.fraction, rfl⟩

/-! ## Tokens -/

theorem isSpace_of_isDigit {c : Char} (h : c.isDigit = true) : isSpace c = false := by
  rw [Bool.eq_false_iff]
  intro hspace
  simp only [isSpace, Bool.or_eq_true, beq_iff_eq, or_assoc] at hspace
  rcases hspace with rfl | rfl | rfl | rfl
  all_goals exact absurd h (by decide)

theorem scanToken_digit {c : Char} (h : c.isDigit = true) (rest : List Char) :
    scanToken c rest = (scanNumber false (c :: rest)).map fun p => (.number p.1, p.2) := by
  unfold scanToken
  split
  case h_12 => exact if_pos h
  -- none of the other characters is a digit
  all_goals exact absurd h (by decide)

/-- A text consists of some tokens, with nothing between them. The scan of each token leaves the end
of the text that the others stand in. -/
inductive ConsistsOf : List Char → List Token → Prop
  | nil : ConsistsOf [] []
  | cons {c : Char} {rest left : List Char} {t : Token} {ts : List Token} :
      isSpace c = false → scanToken c rest = some (t, left) → left <:+ rest → ConsistsOf left ts →
        ConsistsOf (c :: rest) (t :: ts)

namespace ConsistsOf

variable {cs tail : List Char} {ts : List Token}

/-- The text is as long as its tokens are many, so that the scan does not end before it. -/
theorem scanFrom_eq (h : ConsistsOf cs ts) (fuel : List Char) (done : List Token)
    (hfuel : cs.length ≤ fuel.length) : scanFrom fuel done cs = some (done.reverse ++ ts) := by
  induction h generalizing fuel done with
  | nil => simp [scanFrom]
  | cons hspace hscan hleft hrest ih =>
      obtain ⟨x, fuel, rfl⟩ := List.exists_cons_of_length_pos (Nat.lt_of_lt_of_le (by simp) hfuel)
      rw [List.length_cons, List.length_cons] at hfuel
      rw [scanFrom, hspace, if_neg Bool.false_ne_true, hscan]
      show scanFrom fuel (_ :: done) _ = _
      have hlength := hleft.length_le
      rw [ih fuel _ (by omega), List.reverse_cons, List.append_assoc]
      rfl

/-- The tokens of a text are those that it consists of. -/
theorem scan_eq (h : ConsistsOf cs ts) : scan cs = some ts := h.scanFrom_eq cs [] (Nat.le_refl _)

theorem string (h : ConsistsOf tail ts) (s : String) :
    ConsistsOf (writeString (some s) tail) (.string (some s) :: ts) := by
  refine .cons rfl ?_ ?_ h
  · show (StringScan.scan { chars := [] } _).map _ = _
    rw [StringScan.scan_written]
    simp
  · exact (List.suffix_cons _ _).trans (StringScan.suffix_foldr_escapeChar _ _)

theorem number (h : ConsistsOf tail ts) {n : Number} (hn : n.WellFormed) (htail : EndsNumber tail) :
    ConsistsOf (n.write tail) (.number n :: ts) := by
  have hscan := hn.scanNumber_eq htail
  have hsuffix := n.suffix_afterWhole tail
  show ConsistsOf (if n.negative then '-' :: (n.whole ++ n.afterWhole tail)
    else n.whole ++ n.afterWhole tail) _
  cases hneg : n.negative with
  | true =>
      rw [hneg] at hscan
      refine .cons rfl ?_ (hsuffix.trans (List.suffix_append _ _)) h
      show (scanNumber true _).map _ = _
      rw [hscan]
      rfl
  | false =>
      rw [hneg] at hscan
      obtain ⟨d, ds, hwhole⟩ := List.exists_cons_of_ne_nil hn.whole_ne_nil
      have hd := hn.whole_digits d (by rw [hwhole]; exact List.mem_cons_self)
      rw [hwhole, List.cons_append] at hscan ⊢
      refine .cons (isSpace_of_isDigit hd) ?_ (hsuffix.trans (List.suffix_append _ _)) h
      rw [scanToken_digit hd, hscan]
      rfl

end ConsistsOf

end Testwright.Json
