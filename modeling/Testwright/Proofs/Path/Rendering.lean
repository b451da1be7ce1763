import Testwright.Proofs.Path.Tokens

/-!
# Values written and read again

What is written for `null`, a boolean or an integer is read as the same value. A string is written
with a backslash before each quote and each backslash, which reading takes for a part of the string.
Main statement: `Value.ofLiteral_render_eq_iff`, by which a string is read back exactly when it has
neither of these characters.
-/

namespace Testwright

open Text

namespace Value

variable {v : Value}

/-- Whether the value is one that a literal stands for. -/
def isLiteral : Value → Bool
  | null => true
  | bool _ => true
  | int _ => true
  | str _ => true
  | _ => false

/-- Whether a character is written with a backslash before it. -/
def isEscaped (c : Char) : Bool := c == '"' || c == '\\'

/-- The characters of a string; other values have none. -/
def content : Value → List Char
  | str s => s.toList
  | _ => []

/-- The value with the text that is written between the quotes as its content. -/
def escaped : Value → Value
  | str s => str (String.ofList (s.toList.flatMap escapeChar))
  | w => w

/-! ## Escapes -/

theorem length_escapeChar (c : Char) :
    (escapeChar c).length = 1 + if isEscaped c then 1 else 0 := by
  unfold escapeChar isEscaped
  by_cases hslash : c = '\\'
  · simp [hslash]
  · by_cases hquote : c = '"'
    · simp [hquote]
    · simp [hslash, hquote]

/-- What is written between the quotes is longer by a character for each escape. -/
theorem length_flatMap_escapeChar (cs : List Char) :
    (cs.flatMap escapeChar).length = cs.length + cs.countP isEscaped := by
  induction cs with
  | nil => rfl
  | cons c cs ih =>
      rw [List.flatMap_cons, List.length_append, length_escapeChar, ih, List.countP_cons,
        List.length_cons]
      omega

theorem flatMap_escapeChar_eq_self {cs : List Char} (h : ∀ c ∈ cs, isEscaped c = false) :
    cs.flatMap escapeChar = cs := by
  induction cs with
  | nil => rfl
  | cons c cs ih =>
      obtain ⟨hc, hcs⟩ := List.forall_mem_cons.mp h
      have hplain : escapeChar c = [c] := by
        unfold isEscaped at hc
        unfold escapeChar
        simp_all
      rw [List.flatMap_cons, hplain, ih hcs]
      rfl

/-- A value stays the same when nothing in it is escaped, and only then. -/
theorem escaped_eq_self_iff : v.escaped = v ↔ ∀ c ∈ v.content, isEscaped c = false := by
  cases v with
  | str s =>
      constructor
      · intro h
        have htext : String.ofList (s.toList.flatMap escapeChar) = s := Value.str.inj h
        have hlength := length_flatMap_escapeChar s.toList
        rw [← String.toList_ofList (l := s.toList.flatMap escapeChar), htext] at hlength
        have hnone : s.toList.countP isEscaped = 0 := by omega
        intro c hc
        exact Bool.eq_false_iff.mpr (List.countP_eq_zero.mp hnone c hc)
      · intro h
        have hplain : s.toList.flatMap escapeChar = s.toList := flatMap_escapeChar_eq_self h
        show str (String.ofList (s.toList.flatMap escapeChar)) = str s
        rw [hplain, String.ofList_toList]
  | _ => simp [escaped, content]

/-! ## Reading -/

/-- A text between quotes has no white space at its ends. -/
theorem trim_quoted (l : List Char) : trim ('"' :: (l ++ ['"'])) = '"' :: (l ++ ['"']) := by
  refine trim_of_ends ?_ ?_
  · intro c hc
    cases hc
    decide
  · intro c hc
    rw [← List.cons_append, List.getLast?_concat] at hc
    cases hc
    decide

/-- The quotes are taken off a string, and the escapes stay. -/
theorem ofLiteral_render_str (s : String) : ofLiteral (str s).render.toList = (str s).escaped := by
  show ofLiteral (String.ofList ('"' :: (s.toList.flatMap escapeChar ++ ['"']))).toList = _
  rw [String.toList_ofList, ofLiteral, trim_quoted, ofTrimmed_quoted rfl]
  rfl

/-- **What is read of a written value.** The value itself, except that the escapes of a string are
not undone: so it is read back exactly when there is no quote and no backslash in it. -/
theorem ofLiteral_render_eq_iff (hv : v.isLiteral = true) :
    ofLiteral v.render.toList = v.escaped ∧
      (ofLiteral v.render.toList = v ↔ ∀ c ∈ v.content, isEscaped c = false) := by
  have hread : ofLiteral v.render.toList = v.escaped := by
    cases v with
    | str s => exact ofLiteral_render_str s
    | null => exact ofLiteral_render rfl
    | bool b => exact ofLiteral_render rfl
    | int n => exact ofLiteral_render rfl
    | _ => cases hv
  refine ⟨hread, ?_⟩
  rw [hread]
  exact escaped_eq_self_iff

theorem apostrophes_read_back :
    (str " it's 'so' ").isLiteral = true ∧
      ofLiteral (str " it's 'so' ").render.toList = str " it's 'so' " :=
  ⟨rfl, (ofLiteral_render_eq_iff rfl).2.mpr (by decide)⟩

/-- **A quote in a string is not read back**, and neither is a backslash. -/
theorem quote_not_read_back :
    (str "a\"b").isLiteral = true ∧ ofLiteral (str "a\"b").render.toList ≠ str "a\"b" ∧
      ofLiteral (str "a\\b").render.toList ≠ str "a\\b" := by
  decide

end Value

end Testwright
