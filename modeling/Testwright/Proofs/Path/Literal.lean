import Testwright.Path.Value

/-!
# Literals read back

What is written for `null`, a boolean or an integer is read back as the same value
(`Value.ofLiteral_render`).
-/

namespace Testwright

namespace Text

/-- What holds of the first 128 characters holds of all that are ASCII. -/
theorem forall_ascii {P : Char → Prop} (h : ∀ n < 128, P (Char.ofNat n)) {c : Char}
    (hc : c.toNat < 128) : P c := by
  rw [← Char.ofNat_toNat c]
  exact h _ hc

/-! ## Integers -/

/-- A character that an integer may be written with. -/
def isIntegerChar (c : Char) : Bool := c == '-' || c.isDigit

theorem toNat_lt_of_isDigit {c : Char} (h : c.isDigit = true) : c.toNat < 128 := by
  rw [Char.isDigit, Bool.and_eq_true, decide_eq_true_eq, decide_eq_true_eq] at h
  exact Nat.lt_of_le_of_lt (UInt32.le_iff_toNat_le.mp h.2) (by decide)

theorem isIntegerChar_cases {c : Char} (h : isIntegerChar c = true) : c = '-' ∨ c.isDigit = true := by
  simpa [isIntegerChar] using h

/-- Characters that tell the other literals from plain integers. -/
def otherLiteralChars : List Char := ['n', 't', 'f', '"', '\'', 'L', 'l', '_']

theorem of_isIntegerChar {c : Char} (h : isIntegerChar c = true) :
    isBlank c = false ∧ c ∉ otherLiteralChars := by
  have hascii : c.toNat < 128 := by
    rcases isIntegerChar_cases h with rfl | hdigit
    · decide
    · exact toNat_lt_of_isDigit hdigit
  exact forall_ascii (P := fun c => isIntegerChar c = true → isBlank c = false ∧
    c ∉ otherLiteralChars) (by decide) hascii h

theorem isDigit_of_mem_toDigits {n : Nat} {c : Char} (h : c ∈ Nat.toDigits 10 n) :
    c.isDigit = true :=
  Nat.isDigit_of_mem_toDigits (by decide) (by decide) h

theorem isIntegerChar_of_mem_writeInt {z : Int} {c : Char} (h : c ∈ writeInt z) :
    isIntegerChar c = true := by
  rw [isIntegerChar, Bool.or_eq_true, beq_iff_eq]
  cases z with
  | ofNat n => exact .inr (isDigit_of_mem_toDigits h)
  | negSucc n =>
      rcases List.mem_cons.mp h with rfl | h
      · exact .inl rfl
      · exact .inr (isDigit_of_mem_toDigits h)

theorem writeInt_ne_nil (z : Int) : writeInt z ≠ [] := by
  cases z with
  | ofNat n => exact Nat.toDigits_ne_nil
  | negSucc n => exact List.cons_ne_nil _ _

theorem readDigits_toDigits (n : Nat) : readDigits (Nat.toDigits 10 n) = some n := by
  have hdigits : (Nat.toDigits 10 n).all Char.isDigit = true :=
    List.all_eq_true.mpr fun c hc => isDigit_of_mem_toDigits hc
  have hsome : (Nat.toDigits 10 n).isEmpty = false := by
    rw [List.isEmpty_eq_false_iff]
    exact Nat.toDigits_ne_nil
  rw [readDigits, hdigits, hsome, Nat.ofDigitChars_toDigits (by decide) (by decide)]
  rfl

theorem readInt_writeInt (z : Int) : readInt (writeInt z) = some z := by
  cases z with
  | ofNat n =>
      have hread := readDigits_toDigits n
      show readInt (Nat.toDigits 10 n) = _
      cases hcs : Nat.toDigits 10 n with
      | nil => exact absurd hcs Nat.toDigits_ne_nil
      | cons c cs =>
          -- the first character is a digit, not a sign
          have hdigit : c.isDigit = true := isDigit_of_mem_toDigits (by rw [hcs]; simp)
          rw [hcs] at hread
          unfold readInt
          split
          · rename_i hsign
            exact absurd hdigit (by rw [(List.cons.inj hsign).1]; decide)
          · rename_i hsign
            exact absurd hdigit (by rw [(List.cons.inj hsign).1]; decide)
          · rw [hread]
            rfl
  | negSucc n =>
      show (readDigits (Nat.toDigits 10 (n + 1))).map (fun m => -(m : Int)) = _
      rw [readDigits_toDigits]
      rfl

theorem toInt64?_toInt (n : Int64) : toInt64? n.toInt = some n := by
  rw [toInt64?, if_pos ⟨Int64.le_iff_toInt_le.mp n.minValue_le, n.toInt_le⟩, Int64.ofInt_toInt]

theorem readInt64_writeInt (n : Int64) : readInt64 (writeInt n.toInt) = some n := by
  rw [readInt64, readInt_writeInt]
  exact toInt64?_toInt n

/-! ## White space -/

theorem dropWhile_of_head {p : Char → Bool} {cs : List Char} (h : ∀ c ∈ cs.head?, p c = false) :
    cs.dropWhile p = cs := by
  cases cs with
  | nil => rfl
  | cons c cs => rw [List.dropWhile_cons, h c rfl, if_neg Bool.false_ne_true]

/-- Text without white space at its ends is left as it is. -/
theorem trim_of_ends {cs : List Char} (hhead : ∀ c ∈ cs.head?, isBlank c = false)
    (hlast : ∀ c ∈ cs.getLast?, isBlank c = false) : trim cs = cs := by
  rw [trim, dropWhile_of_head hhead, dropWhile_of_head (by rwa [List.head?_reverse]),
    List.reverse_reverse]

theorem trim_eq_self {cs : List Char} (hcs : ∀ c ∈ cs, isBlank c = false) : trim cs = cs :=
  trim_of_ends (fun c hc => hcs c (List.mem_of_head? hc))
    (fun c hc => hcs c (List.mem_of_getLast? hc))

/-- Between the white space at its ends stands the trimmed text. -/
theorem exists_trim (cs : List Char) :
    ∃ a b, cs = a ++ (trim cs ++ b) ∧ (∀ x ∈ a, isBlank x = true) ∧ ∀ x ∈ b, isBlank x = true := by
  obtain ⟨rest, hrest⟩ : ∃ rest, rest = (cs.dropWhile isBlank).reverse := ⟨_, rfl⟩
  refine ⟨cs.takeWhile isBlank, (rest.takeWhile isBlank).reverse, ?_,
    List.all_eq_true.mp List.all_takeWhile, fun x hx =>
      List.all_eq_true.mp List.all_takeWhile x (List.mem_reverse.mp hx)⟩
  rw [trim, ← hrest, ← List.reverse_append, List.takeWhile_append_dropWhile, hrest,
    List.reverse_reverse, List.takeWhile_append_dropWhile]

theorem length_trim_le (cs : List Char) : (trim cs).length ≤ cs.length := by
  obtain ⟨a, b, hcs, -, -⟩ := exists_trim cs
  have hlength := congrArg List.length hcs
  simp only [List.length_append] at hlength
  omega

/-- White space around a text is trimmed off. -/
theorem trim_append_blank {g g' cs : List Char} (hg : ∀ x ∈ g, isBlank x = true)
    (hg' : ∀ x ∈ g', isBlank x = true) : trim (g ++ (cs ++ g')) = trim cs := by
  have hback : ∀ x ∈ g'.reverse, isBlank x = true := fun x hx => hg' x (List.mem_reverse.mp hx)
  rw [trim, List.dropWhile_append_of_pos hg, trim, List.dropWhile_append]
  split
  · rename_i hnone
    rw [List.isEmpty_iff.mp hnone, ← List.append_nil g', List.dropWhile_append_of_pos hg']
    rfl
  · rw [List.reverse_append, List.dropWhile_append_of_pos hback]

end Text

open Text

namespace Value

/-- Values that are written as one word: `null`, booleans and integers. -/
def isOneWord : Value → Bool
  | null => true
  | bool _ => true
  | int _ => true
  | _ => false

/-- An integer is read back. -/
theorem ofLiteral_writeInt (n : Int64) : ofLiteral (writeInt n.toInt) = int n := by
  have hother : ∀ c ∈ otherLiteralChars, c ∉ writeInt n.toInt :=
    fun c hc hmem => (of_isIntegerChar (isIntegerChar_of_mem_writeInt hmem)).2 hc
  have hword : ∀ (w : List Char) (c : Char), c ∈ w →
      c ∈ otherLiteralChars → writeInt n.toInt ≠ w :=
    fun w c hc hmem heq => hother c hmem (heq ▸ hc)
  have hquoted : unquoted? (writeInt n.toInt) = none := by
    have henclosed : ∀ c ∈ otherLiteralChars, isEnclosedBy c (writeInt n.toInt) = false := by
      intro c hc
      have hhead : (writeInt n.toInt).head? ≠ some c := fun hhead =>
        hother c hc (List.mem_of_head? hhead)
      rw [isEnclosedBy, beq_eq_false_iff_ne.mpr hhead, Bool.and_false, Bool.false_and]
    rw [unquoted?, henclosed '"' (by decide), henclosed '\'' (by decide)]
    rfl
  have hsuffix : dropLongSuffix (writeInt n.toInt) = writeInt n.toInt := by
    have hlast : ∀ c ∈ otherLiteralChars, (writeInt n.toInt).getLast? ≠ some c := fun c hc hlast =>
      hother c hc (List.mem_of_getLast? hlast)
    rw [dropLongSuffix, decide_eq_false (hlast 'L' (by decide)),
      decide_eq_false (hlast 'l' (by decide))]
    rfl
  have hfilter : (writeInt n.toInt).filter (· != '_') = writeInt n.toInt :=
    List.filter_eq_self.mpr fun c hc => bne_iff_ne.mpr fun heq => hother '_' (by decide) (heq ▸ hc)
  rw [ofLiteral, trim_eq_self fun c hc => (of_isIntegerChar (isIntegerChar_of_mem_writeInt hc)).1,
    ofTrimmed, if_neg (hword _ 'n' (by decide) (by decide)),
    if_neg (hword _ 't' (by decide) (by decide)), if_neg (hword _ 'f' (by decide) (by decide)),
    hquoted, hsuffix, hfilter, readInt64_writeInt]

theorem ofLiteral_render {v : Value} (h : v.isOneWord = true) :
    ofLiteral v.render.toList = v := by
  cases v with
  | null => decide
  | bool b => cases b <;> decide
  | int n => 
      show ofLiteral (String.ofList _).toList = _
      rw [String.toList_ofList]
      exact ofLiteral_writeInt n
  | _ => cases h

end Value

end Testwright
