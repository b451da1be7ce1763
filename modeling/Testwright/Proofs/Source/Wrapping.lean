import Testwright.Proofs.Source.Conditions

/-!
# Redundant parentheses

A text may be wrapped in pairs of parentheses, with white space around each of them (`Wraps`). Main
statement: if the parentheses of the text are nested, it is read as the same condition, wrapped or
not (`parseCondition_eq_of_wraps`). Every pair around the whole text is taken off (`core_parens`),
and none that closes before the end (`core_of_split`).
-/

namespace Testwright

namespace Source

open Text

variable {cs s t fuel fuel' g g' : List Char}

/-! ## Wrapped texts -/

/-- The texts that are `t` in some pairs of parentheses, with any white space around each pair. -/
inductive Wraps (t : List Char) : List Char → Prop where
  | self : Wraps t t
  | spaced {g cs g' : List Char} (hg : ∀ x ∈ g, isBlank x = true)
      (hg' : ∀ x ∈ g', isBlank x = true) (h : Wraps t cs) : Wraps t (g ++ (cs ++ g'))
  | parens {cs : List Char} (h : Wraps t cs) : Wraps t ('(' :: (cs ++ [')']))

theorem Wraps.isNested (h : Wraps t cs) (ht : IsNested t) : IsNested cs := by
  induction h with
  | self => exact ht
  | spaced hg hg' _ ih =>
      exact (Marks.nested_append_iff (isNested_of_blank hg)).mpr
        ((Marks.nested_append_iff ih).mpr (isNested_of_blank hg'))
  | parens _ ih => exact .group ih .nil

/-! ## What is left without parentheses -/

/-- The text inside all parentheses and white space that enclose the whole of it. -/
def core (cs : List Char) : List Char := stripParens cs (trim cs)

theorem closeAfter_parens_iff {rest : List Char} :
    closeAfter '(' ')' cs = some (s, rest) ↔ cs = s ++ ')' :: rest ∧ IsNested s :=
  Delimiters.closeAfter_eq_some_iff (d := .parens)

/-- A pair of parentheses around a nested text is taken off. -/
theorem stripParens_parens (x : Char) (hs : IsNested s) :
    stripParens (x :: fuel) ('(' :: (s ++ [')'])) = stripParens fuel (trim s) := by
  have hclose : closeAfter '(' ')' (s ++ [')']) = some (s, []) :=
    closeAfter_parens_iff.mpr ⟨rfl, hs⟩
  rw [stripParens, hclose]

/-- A text is left as it is unless parentheses enclose the whole of it. -/
theorem stripParens_of_not (h : ∀ s, IsNested s → cs ≠ '(' :: (s ++ [')'])) :
    stripParens fuel cs = cs := by
  fun_induction stripParens fuel cs with
  | case1 _ more rest inner hclose _ =>
      obtain ⟨rfl, hinner⟩ := closeAfter_parens_iff.mp hclose
      exact absurd rfl (h inner hinner)
  | _ => rfl

/-- The text is fuel enough: every pair takes two characters off. -/
theorem stripParens_congr (hfuel : cs.length ≤ fuel.length) (hfuel' : cs.length ≤ fuel'.length) :
    stripParens fuel cs = stripParens fuel' cs := by
  induction fuel generalizing cs fuel' with
  | nil =>
      rw [List.length_eq_zero_iff.mp (Nat.le_zero.mp hfuel)]
      cases fuel' <;> rfl
  | cons x fuel ih =>
      by_cases h : ∃ s, IsNested s ∧ cs = '(' :: (s ++ [')'])
      · obtain ⟨s, hs, rfl⟩ := h
        have hshorter := length_trim_le s
        simp only [List.length_cons, List.length_append, List.length_nil] at hfuel hfuel'
        cases fuel' with
        | nil => simp at hfuel'
        | cons y fuel' =>
            simp only [List.length_cons] at hfuel'
            rw [stripParens_parens x hs, stripParens_parens y hs]
            exact ih (by omega) (by omega)
      · have hnot : ∀ s, IsNested s → cs ≠ '(' :: (s ++ [')']) := fun s hs hcs => h ⟨s, hs, hcs⟩
        rw [stripParens_of_not hnot, stripParens_of_not hnot]

theorem core_spaced (hg : ∀ x ∈ g, isBlank x = true) (hg' : ∀ x ∈ g', isBlank x = true) :
    core (g ++ (cs ++ g')) = core cs := by
  have hshorter := length_trim_le cs
  rw [core, core, trim_append_blank hg hg']
  refine stripParens_congr ?_ hshorter
  simp only [List.length_append]
  omega

theorem core_parens (hs : IsNested s) : core ('(' :: (s ++ [')'])) = core s := by
  have htrim : trim ('(' :: (s ++ [')'])) = '(' :: (s ++ [')']) := by
    refine trim_of_ends (fun c hc => ?_) fun c hc => ?_
    · cases hc
      decide
    · rw [← List.cons_append, List.getLast?_concat] at hc
      cases hc
      decide
  have hshorter := length_trim_le s
  rw [core, htrim, stripParens_parens _ hs, core]
  refine stripParens_congr ?_ hshorter
  rw [List.length_append]
  omega

/-- The first pair stays where it does not enclose the whole text. -/
theorem core_of_split (hs : IsNested s) (ht : t ≠ [])
    (hlast : ∀ c ∈ ('(' :: (s ++ ')' :: t)).getLast?, isBlank c = false) :
    core ('(' :: (s ++ ')' :: t)) = '(' :: (s ++ ')' :: t) := by
  have htrim : trim ('(' :: (s ++ ')' :: t)) = '(' :: (s ++ ')' :: t) := by
    refine trim_of_ends (fun c hc => ?_) hlast
    cases hc
    decide
  rw [core, htrim]
  refine stripParens_of_not fun s' hs' heq => ht ?_
  -- the text before the parenthesis that belongs to the first one is determined
  have hfirst : closeAfter '(' ')' (s ++ ')' :: t) = some (s, t) :=
    closeAfter_parens_iff.mpr ⟨rfl, hs⟩
  have hwhole : closeAfter '(' ')' (s' ++ [')']) = some (s', []) :=
    closeAfter_parens_iff.mpr ⟨rfl, hs'⟩
  rw [(List.cons.inj heq).2, hwhole] at hfirst
  cases hfirst
  rfl

theorem Wraps.core_eq (h : Wraps t cs) (ht : IsNested t) : core cs = core t := by
  induction h with
  | self => rfl
  | spaced hg hg' _ ih => rw [core_spaced hg hg', ih]
  | parens h ih => rw [core_parens (h.isNested ht), ih]

/-! ## Conditions -/

/-- A condition is read from what is left of its text. -/
theorem readCondition_congr (h : core cs = core s) : readCondition cs = readCondition s := by
  rw [core, core] at h
  rw [readCondition, readCondition, h]

/-- **Redundant parentheses do not matter.** A text with nested parentheses is read as the same
condition, or as none, in any number of pairs of parentheses and with any white space around
them. -/
theorem parseCondition_eq_of_wraps (text wrapped : String) (htext : IsNested text.toList)
    (h : Wraps text.toList wrapped.toList) : parseCondition wrapped = parseCondition text :=
  readCondition_congr (h.core_eq htext)

/-- Two sides in parentheses keep them, in two further pairs as well. -/
theorem parseCondition_of_wrapped_sides :
    IsNested "(a) == (b)".toList ∧ Wraps "(a) == (b)".toList "( ((a) == (b) ))".toList ∧
      parseCondition "( ((a) == (b) ))" = parseCondition "(a) == (b)" := by
  have htext : IsNested "(a) == (b)".toList := by decide
  have hblank : ∀ x ∈ [' '], isBlank x = true := by decide
  have hnone : ∀ x ∈ ([] : List Char), isBlank x = true := by decide
  have hinner : Wraps "(a) == (b)".toList "((a) == (b) )".toList :=
    .parens (@Wraps.spaced _ [] _ [' '] hnone hblank .self)
  have hwraps : Wraps "(a) == (b)".toList "( ((a) == (b) ))".toList :=
    .parens (@Wraps.spaced _ [' '] _ [] hblank hnone hinner)
  exact ⟨htext, hwraps, parseCondition_eq_of_wraps _ _ htext hwraps⟩

end Source

end Testwright
