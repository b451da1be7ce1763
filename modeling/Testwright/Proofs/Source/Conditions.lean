import Testwright.Proofs.Source.Bindings
import Testwright.Proofs.Text.Nesting
import Testwright.Proofs.Text.Spelling
import Testwright.Source.Predicate

/-!
# The parts of a condition

How the text of a condition is cut into parts, for each of its shapes, and when the parts have
their parentheses nested. Nothing keeps a shape from being cut inside of parentheses: the parts of
`check(x > 3)` are `check(x` and `3)`. Main statement: they are nested exactly when the part that
decides on the cut is (`parts_nested_iff`).
-/

namespace Testwright.Source

open Text Text.Pattern

variable {cs s t : List Char} {k : List (List Char)}

/-! ## Shapes -/

theorem spells_shortText :
    shortText.Spells s k ↔ (s ≠ [] ∧ ∀ x ∈ s, isInline x = true) ∧ k = [] := spells_whole

theorem spells_negation : negation.Spells s k ↔ (s = ['!'] ∨ s = []) ∧ k = [s] := by
  refine spells_capture (P := fun s => s = ['!'] ∨ s = []) fun s k => ?_
  rw [spells_optional, spells_char, or_and_right]

/-- The text of a test for a type. -/
theorem of_captures?_instanceOf (h : instanceOfPattern.captures? cs = some k) :
    ∃ var gap gap' name arguments,
      k = [var, name ++ arguments] ∧
        cs = var ++ gap ++ "instanceof".toList ++ gap' ++ (name ++ arguments) ∧
        (gap ≠ [] ∧ ∀ x ∈ gap, isBlank x = true) ∧ (gap' ≠ [] ∧ ∀ x ∈ gap', isBlank x = true) ∧
        (name ≠ [] ∧ ∀ x ∈ name, isDotted x = true) ∧
        (arguments = [] ∨ ∃ inner, arguments = '<' :: inner ++ ['>']) := by
  have hspells := spells_of_captures? h
  simp only [spells_seq, spells_word, spells_gap, spells_capture fun _ _ => spells_shortText]
    at hspells
  obtain ⟨_, _, _, _, rfl, hk, ⟨_, gap', _, _, rfl, rfl, ⟨_, _, _, _, rfl, rfl,
    ⟨var, gap, _, _, rfl, rfl, ⟨-, rfl⟩, hgap, rfl⟩, rfl, rfl⟩, hgap', rfl⟩, kept, htype, rfl⟩ :=
    hspells
  have harguments : ∀ s k, (optional (char '<' ++ all (· != '>') ++ char '>')).Spells s k →
      (s = [] ∨ ∃ inner, s = '<' :: inner ++ ['>']) ∧ k = [] := by
    rintro s k (⟨_, _, _, _, rfl, rfl, ⟨_, inner, _, _, rfl, rfl, hopen, -, rfl⟩, hclose⟩ |
      ⟨rfl, rfl⟩)
    · obtain ⟨rfl, rfl⟩ := spells_char.mp hopen
      obtain ⟨rfl, rfl⟩ := spells_char.mp hclose
      exact ⟨.inr ⟨inner, rfl⟩, rfl⟩
    · exact ⟨.inl rfl, rfl⟩
  obtain ⟨name, arguments, _, _, rfl, rfl, hspells, hrest⟩ := htype
  obtain ⟨hname, rfl⟩ := spells_whole.mp hspells
  obtain ⟨harguments, rfl⟩ := harguments _ _ hrest
  refine ⟨var, gap, gap', name, arguments, ?_, rfl, hgap, hgap', hname, harguments⟩
  rw [← List.reverse_reverse k, hk]
  rfl

/-- The text of a call of `equals`. -/
theorem of_captures?_equals (h : equalsPattern.captures? cs = some k) :
    ∃ bang gap var argument,
      k = [bang, var, argument] ∧
        cs = bang ++ gap ++ var ++ ".equals(".toList ++ argument ++ [')'] ∧
        (bang = ['!'] ∨ bang = []) ∧ (∀ x ∈ gap, isBlank x = true) ∧
        ∀ x ∈ var, isDotted x = true := by
  have hspells := spells_of_captures? h
  simp only [spells_seq, spells_negation, spells_blank, spells_word, spells_char,
    spells_capture fun _ _ => spells_oneOrMore] at hspells
  obtain ⟨_, _, _, _, rfl, hk, ⟨_, argument, _, _, rfl, rfl, ⟨_, _, _, _, rfl, rfl,
    ⟨_, var, _, _, rfl, rfl, ⟨bang, gap, _, _, rfl, rfl, ⟨hbang, rfl⟩, hgap, rfl⟩, hvar, rfl⟩,
    rfl, rfl⟩, -, rfl⟩, rfl, rfl⟩ := hspells
  refine ⟨bang, gap, var, argument, ?_, rfl, hbang, hgap, hvar.2⟩
  rw [← List.reverse_reverse k, hk]
  rfl

/-- The text of a comparison. -/
theorem of_captures?_comparison (h : comparisonPattern.captures? cs = some k) :
    ∃ left gap token gap' right,
      k = [left, token.toList, right] ∧ cs = left ++ gap ++ token.toList ++ gap' ++ right ∧
        (∀ x ∈ gap, isBlank x = true) ∧ token ∈ relationTokens.map (·.1) ∧
        ∀ x ∈ gap', isBlank x = true := by
  have hrun : ∀ s k, (run isBlank).Spells s k ↔ (∀ x ∈ s, isBlank x = true) ∧ k = [] :=
    fun _ _ => Iff.rfl
  have hspells := spells_of_captures? h
  simp only [spells_seq, spells_blank, hrun, restOfRow, spells_capture fun _ _ => spells_shortText,
    spells_capture fun _ _ => spells_anyOf, spells_capture fun _ _ => spells_whole] at hspells
  obtain ⟨_, right, _, _, rfl, hk, ⟨_, gap', _, _, rfl, rfl, ⟨_, _, _, _, rfl, rfl,
    ⟨left, gap, _, _, rfl, rfl, ⟨-, rfl⟩, hgap, rfl⟩, ⟨token, htoken, rfl⟩, rfl⟩, hgap', rfl⟩,
    -, rfl⟩ := hspells
  refine ⟨left, gap, token, gap', right, ?_, rfl, hgap, htoken, hgap'⟩
  rw [← List.reverse_reverse k, hk]
  rfl

/-- The text of a flag. -/
theorem of_captures?_flag (h : flagPattern.captures? cs = some k) :
    ∃ bang name call, k = [bang, name ++ call] ∧ (∀ x ∈ name, isDotted x = true) ∧
      (call = "()".toList ∨ call = []) := by
  have hspells := spells_of_captures? h
  simp only [spells_seq, spells_negation, spells_blank] at hspells
  obtain ⟨_, _, _, _, rfl, hk, ⟨bang, _, _, _, rfl, rfl, ⟨-, rfl⟩, -, rfl⟩, kept, hvar, rfl⟩ :=
    hspells
  obtain ⟨_, call, _, _, rfl, rfl, ⟨_, rest, _, _, rfl, rfl, ⟨⟨x, hx, rfl⟩, rfl⟩, hrest, rfl⟩,
    hspells⟩ := hvar
  have hname : ∀ y ∈ [x] ++ rest, isDotted y = true := by
    refine List.forall_mem_cons.mpr ⟨?_, hrest⟩
    rw [isDotted, (of_isNameStart hx).1, Bool.true_or]
  have hcall : ∀ {s k}, (optional (word "()")).Spells s k →
      (s = "()".toList ∨ s = []) ∧ k = [] := by
    intro s k h
    rwa [spells_optional, spells_word, ← or_and_right] at h
  obtain ⟨hcall, rfl⟩ := hcall hspells
  refine ⟨bang, [x] ++ rest, call, ?_, hname, hcall⟩
  rw [← List.reverse_reverse k, hk]
  rfl

/-- The shape in which a text without parentheses around it is read, after the shapes that are tried
before. -/
inductive IsReadAs (cs : List Char) (c : Comparison) : Prop
  | instanceOf {var type : List Char}
      (hinstance : instanceOfPattern.captures? cs = some [var, type])
      (hread : readInstanceOf cs = some c)
  | equals {bang var argument : List Char} (hinstance : instanceOfPattern.captures? cs = none)
      (hequals : equalsPattern.captures? cs = some [bang, var, argument])
      (hread : readEquals cs = some c)
  | comparison {left token right : List Char} (hinstance : instanceOfPattern.captures? cs = none)
      (hequals : equalsPattern.captures? cs = none)
      (hcomparison : comparisonPattern.captures? cs = some [left, token, right])
      (hchain : comparisonPattern.isMatch (trim right) = false)
      (hread : compareSides (trim left) (relationOf token) (trim right) = some c)
  | flag (hinstance : instanceOfPattern.captures? cs = none)
      (hequals : equalsPattern.captures? cs = none)
      (hcomparison : comparisonPattern.captures? cs = none) (hread : readFlag cs = some c)

/-- What is read has one of the shapes, and all that its pattern captures. -/
theorem isReadAs_of_readCondition {c : Comparison} (hc : readCondition cs = some c) :
    IsReadAs (stripParens cs (trim cs)) c := by
  rw [readCondition] at hc
  generalize stripParens cs (trim cs) = stripped at hc ⊢
  dsimp only at hc
  split at hc
  · cases hc
  cases hinstance : instanceOfPattern.captures? stripped with
  | some k =>
      obtain ⟨var, -, -, name, arguments, rfl, -⟩ := of_captures?_instanceOf hinstance
      have hread : readInstanceOf stripped = some c := by
        rw [readInstanceOf, hinstance] at hc ⊢
        exact hc
      exact .instanceOf hinstance hread
  | none =>
      rw [readInstanceOf, hinstance] at hc
      dsimp only at hc
      cases hequals : equalsPattern.captures? stripped with
      | some k =>
          obtain ⟨bang, -, var, argument, rfl, -⟩ := of_captures?_equals hequals
          have hread : readEquals stripped = some c := by
            rw [readEquals, hequals] at hc ⊢
            exact hc
          exact .equals hinstance hequals hread
      | none =>
          rw [readEquals, hequals] at hc
          dsimp only at hc
          cases hcomparison : comparisonPattern.captures? stripped with
          | some k =>
              obtain ⟨left, -, token, -, right, rfl, -⟩ := of_captures?_comparison hcomparison
              rw [hcomparison] at hc
              dsimp only at hc
              split at hc
              · cases hc
              · rename_i hchain
                exact .comparison hinstance hequals hcomparison (Bool.eq_false_iff.mpr hchain) hc
          | none =>
              rw [hcomparison] at hc
              exact .flag hinstance hequals hcomparison hc

/-! ## Nested texts -/

/-- The parentheses of a text are nested. -/
abbrev IsNested (cs : List Char) : Prop := Delimiters.parens.marks.Nested cs

/-- A class without the parentheses and the quotes holds plain characters only. -/
theorem isPlain_of_class {f : Char → Bool} {c : Char}
    (hf : ['(', ')', '"', '\''].any f = false) (hc : f c = true) :
    Delimiters.parens.marks.IsPlain c := by
  have hne : ∀ x ∈ ['(', ')', '"', '\''], c ≠ x := by
    rintro x hx rfl
    rw [forall_mem_of_any_eq_false hf c hx] at hc
    cases hc
  exact ⟨hne _ (by decide), hne _ (by decide), not_or.mpr ⟨hne _ (by decide), hne _ (by decide)⟩⟩

theorem isPlain_of_isBlank : ∀ {c : Char}, isBlank c = true → Delimiters.parens.marks.IsPlain c :=
  isPlain_of_class (by decide)

theorem isPlain_of_isDotted : ∀ {c : Char}, isDotted c = true → Delimiters.parens.marks.IsPlain c :=
  isPlain_of_class (by decide)

theorem isNested_of_blank (hs : ∀ x ∈ s, isBlank x = true) : IsNested s :=
  Marks.nested_of_plain fun x hx => isPlain_of_isBlank (hs x hx)

theorem isNested_of_dotted (hs : ∀ x ∈ s, isDotted x = true) : IsNested s :=
  Marks.nested_of_plain fun x hx => isPlain_of_isDotted (hs x hx)

/-- White space at the ends of a text is of no account. -/
theorem isNested_trim_iff : IsNested (trim cs) ↔ IsNested cs := by
  obtain ⟨a, b, hcs, ha, hb⟩ := exists_trim cs
  have hiff := Marks.nested_append_iff (t := trim cs ++ b) (isNested_of_blank ha)
  rw [← hcs] at hiff
  rw [IsNested, IsNested, hiff]
  refine ⟨fun h => (Marks.nested_append_iff h).mpr (isNested_of_blank hb), fun h => ?_⟩
  exact h.of_append_plain fun x hx => isPlain_of_isBlank (hb x hx)

theorem isNested_stripParens (fuel : List Char) (h : IsNested cs) :
    IsNested (stripParens fuel cs) := by
  fun_induction stripParens fuel cs with
  | case1 _ more rest inner hclose ih =>
      obtain ⟨-, hinner⟩ := Delimiters.closeAfter_eq_some_iff (d := .parens).mp hclose
      exact ih (isNested_trim_iff.mpr hinner)
  | _ => exact h

/-! ## Nested parts -/

/-- The parentheses of the variable are nested, and those of the value as well where it is no
literal. -/
def Comparison.HasNestedParts (c : Comparison) : Prop :=
  IsNested c.var.toList ∧ ∀ s, c.value = .symbol s → IsNested s.toList

/-- The part of a condition that decides where it is cut: the left side of a test for a type or of a
comparison, or the argument of a call of `equals`. A flag is not cut. -/
def decidingPart? (text : List Char) : Option (List Char) :=
  let cs := stripParens text (trim text)
  match instanceOfPattern.captures? cs with
  | some parts => parts.head?
  | none =>
    match equalsPattern.captures? cs with
    | some parts => parts[2]?
    | none => (comparisonPattern.captures? cs).bind List.head?

/-- A condition whose deciding part is nested has nested parts, and the other way round if it
compares with a symbol. -/
def Comparison.IsDecidedBy (c : Comparison) (part : List Char) : Prop :=
  (IsNested part → c.HasNestedParts) ∧
    (c.value.isSymbol = true → c.HasNestedParts → IsNested part)

theorem toList_of_ofLiteral {v : String} (h : Value.ofLiteral cs = .symbol v) :
    v.toList = trim cs := by
  rw [Value.ofLiteral, Value.ofTrimmed] at h
  split at h
  · cases h
  split at h
  · cases h
  split at h
  · cases h
  split at h
  · cases h
  split at h
  · cases h
  · cases h
    exact String.toList_ofList

theorem isNested_of_ofLiteral {v : String} (h : Value.ofLiteral cs = .symbol v) :
    IsNested v.toList ↔ IsNested cs := by
  rw [toList_of_ofLiteral h, isNested_trim_iff]

/-- What follows a nested part and a word between white space is nested. -/
theorem isNested_rest {part gap word gap' rest : List Char}
    (hcs : IsNested (part ++ gap ++ word ++ gap' ++ rest)) (hgap : ∀ x ∈ gap, isBlank x = true)
    (hword : IsNested word) (hgap' : ∀ x ∈ gap', isBlank x = true) (hpart : IsNested part) :
    IsNested rest := by
  have hbefore : IsNested (part ++ gap) :=
    (Marks.nested_append_iff hpart).mpr (isNested_of_blank hgap)
  have hafter : IsNested (part ++ gap ++ word) := (Marks.nested_append_iff hbefore).mpr hword
  have hstart : IsNested (part ++ gap ++ word ++ gap') :=
    (Marks.nested_append_iff hafter).mpr (isNested_of_blank hgap')
  exact (Marks.nested_append_iff hstart).mp hcs

theorem isDecidedBy_instanceOf (hcs : IsNested cs) {var type : List Char} {c : Comparison}
    (h : instanceOfPattern.captures? cs = some [var, type]) (hc : readInstanceOf cs = some c) :
    c.IsDecidedBy var := by
  obtain ⟨_, gap, gap', _, _, hk, rfl, hgap, hgap', -, -⟩ := of_captures?_instanceOf h
  cases hk
  rw [readInstanceOf, h] at hc
  cases hc
  have hvar : IsNested (String.ofList (trim var)).toList ↔ IsNested var := by
    rw [String.toList_ofList, isNested_trim_iff]
  have hkeyword : IsNested "instanceof".toList :=
    isNested_of_dotted (List.all_eq_true.mp (by decide))
  refine ⟨fun hpart => ⟨hvar.mpr hpart, ?_⟩, fun _ hparts => hvar.mp hparts.1⟩
  intro v hv
  cases hv
  rw [String.toList_ofList]
  exact isNested_rest hcs hgap.2 hkeyword hgap'.2 hpart

theorem isDecidedBy_equals {bang var argument : List Char} {c : Comparison}
    (h : equalsPattern.captures? cs = some [bang, var, argument])
    (hc : readEquals cs = some c) : c.IsDecidedBy argument := by
  obtain ⟨_, gap, _, _, hk, -, -, -, hvar⟩ := of_captures?_equals h
  cases hk
  rw [readEquals, h] at hc
  cases hc
  refine ⟨fun hpart => ⟨?_, fun v hv => ?_⟩, fun hsymbol hparts => ?_⟩
  · rw [String.toList_ofList]
    exact isNested_of_dotted hvar
  · exact (isNested_of_ofLiteral hv).mpr hpart
  · cases hv : Value.ofLiteral argument with
    | symbol v => exact (isNested_of_ofLiteral hv).mp (hparts.2 v hv)
    | _ =>
        dsimp only at hsymbol
        rw [hv] at hsymbol
        cases hsymbol

/-- Either side of a comparison may become the variable. -/
theorem isDecidedBy_compareSides {left right : List Char} {r : Relation} {c : Comparison}
    (hright : IsNested left → IsNested right) (hc : compareSides left r right = some c) :
    c.IsDecidedBy left := by
  rw [compareSides] at hc
  split at hc
  · cases hc
  by_cases hconverse : (isLiteral left && !isLiteral right) = true
  · rw [if_pos hconverse] at hc
    cases hc
    have hliteral : (Value.ofLiteral left).isSymbol = false := by
      simpa [isLiteral] using (Bool.and_eq_true_iff.mp hconverse).1
    have hnone : ∀ v, Value.ofLiteral left ≠ .symbol v := by
      intro v hv
      rw [hv] at hliteral
      cases hliteral
    refine ⟨fun hpart => ⟨?_, fun v hv => absurd hv (hnone v)⟩, fun hsymbol => ?_⟩
    · rw [String.toList_ofList]
      exact hright hpart
    · rw [hliteral] at hsymbol
      cases hsymbol
  · rw [if_neg hconverse] at hc
    cases hc
    have hvar : IsNested (String.ofList left).toList ↔ IsNested left := by
      rw [String.toList_ofList]
    exact ⟨fun hpart => ⟨hvar.mpr hpart, fun v hv => (isNested_of_ofLiteral hv).mpr (hright hpart)⟩,
      fun _ hparts => hvar.mp hparts.1⟩

theorem isDecidedBy_comparison (hcs : IsNested cs) {left token right : List Char} {r : Relation}
    {c : Comparison} (h : comparisonPattern.captures? cs = some [left, token, right])
    (hc : compareSides (trim left) r (trim right) = some c) : c.IsDecidedBy left := by
  obtain ⟨_, gap, token, gap', _, hk, rfl, hgap, htoken, hgap'⟩ := of_captures?_comparison h
  cases hk
  have hsigns : ∀ token ∈ relationTokens.map (·.1),
      token.toList.all (fun x => ['=', '!', '<', '>'].contains x) = true := by
    decide
  have hword : IsNested token.toList := Marks.nested_of_plain fun x hx =>
    isPlain_of_class (by decide) (List.all_eq_true.mp (hsigns token htoken) x hx)
  have hright : IsNested (trim left) → IsNested (trim right) := by
    rw [isNested_trim_iff, isNested_trim_iff]
    exact isNested_rest hcs hgap hword hgap'
  have hdecided := isDecidedBy_compareSides hright hc
  rwa [Comparison.IsDecidedBy, isNested_trim_iff] at hdecided

theorem hasNestedParts_flag {c : Comparison} (hc : readFlag cs = some c) : c.HasNestedParts := by
  rw [readFlag] at hc
  split at hc
  · rename_i h
    cases hc
    obtain ⟨_, name, call, hk, hname, hcall⟩ := of_captures?_flag h
    cases hk
    refine ⟨?_, fun v hv => by cases hv⟩
    rw [String.toList_ofList]
    refine (Marks.nested_append_iff (isNested_of_dotted hname)).mpr ?_
    rcases hcall with rfl | rfl
    · exact .group .nil .nil
    · exact .nil
  · cases hc

/-- Every shape is decided by its deciding part, if it has one. -/
theorem isDecidedBy_readCondition {c : Comparison} (hcs : IsNested cs)
    (hc : readCondition cs = some c) :
    (decidingPart? cs = none → c.HasNestedParts) ∧
      ∀ part, decidingPart? cs = some part → c.IsDecidedBy part := by
  have hsome : ∀ {part : List Char}, c.IsDecidedBy part →
      (some part = none → c.HasNestedParts) ∧
        ∀ part', some part = some part' → c.IsDecidedBy part' := by
    intro part hdecided
    refine ⟨fun h => ?_, fun part' h => ?_⟩
    · cases h
    · cases h
      exact hdecided
  have hstripped : IsNested (stripParens cs (trim cs)) :=
    isNested_stripParens cs (isNested_trim_iff.mpr hcs)
  have hshape := isReadAs_of_readCondition hc
  rw [decidingPart?]
  generalize stripParens cs (trim cs) = stripped at hstripped hshape ⊢
  cases hshape with
  | instanceOf hinstance hread =>
      rw [hinstance]
      exact hsome (isDecidedBy_instanceOf hstripped hinstance hread)
  | equals hinstance hequals hread =>
      rw [hinstance, hequals]
      exact hsome (isDecidedBy_equals hequals hread)
  | comparison hinstance hequals hcomparison _ hread =>
      rw [hinstance, hequals, hcomparison]
      exact hsome (isDecidedBy_comparison hstripped hcomparison hread)
  | flag hinstance hequals hcomparison hread =>
      rw [hinstance, hequals, hcomparison]
      refine ⟨fun _ => hasNestedParts_flag hread, fun part hpart => ?_⟩
      cases hpart

/-- **When the parts of a condition are nested.** If the part that decides on the cut is nested, so
are the variable and the value of a nested condition. Where the value is a symbol, they are nested
in no other case. -/
theorem parts_nested_iff (text : String) (c : Comparison) (htext : IsNested text.toList)
    (hc : parseCondition text = some c) :
    ((∀ part, decidingPart? text.toList = some part → IsNested part) → c.HasNestedParts) ∧
      (c.value.isSymbol = true → c.HasNestedParts →
        ∀ part, decidingPart? text.toList = some part → IsNested part) := by
  obtain ⟨hflag, hdecided⟩ := isDecidedBy_readCondition htext hc
  refine ⟨fun hparts => ?_, fun hsymbol hnested part hpart =>
    (hdecided part hpart).2 hsymbol hnested⟩
  cases hpart : decidingPart? text.toList with
  | none => exact hflag hpart
  | some part => exact (hdecided part hpart).1 (hparts part hpart)

/-- A comparison of a call with a call is cut between the two. -/
theorem parts_nested_of_calls :
    let text := "size(a) > size(b)"
    let c : Comparison := ⟨"size(a)", .gt, .symbol "size(b)"⟩
    IsNested text.toList ∧ parseCondition text = some c ∧ c.HasNestedParts := by
  have htext : IsNested "size(a) > size(b)".toList := by decide
  have hc : parseCondition "size(a) > size(b)" =
      some ⟨"size(a)", .gt, .symbol "size(b)"⟩ := by decide +kernel
  have hleft : decidingPart? "size(a) > size(b)".toList = some "size(a)".toList := by
    decide +kernel
  refine ⟨htext, hc, (parts_nested_iff _ _ htext hc).1 fun part hpart => ?_⟩
  rw [hleft] at hpart
  cases hpart
  decide

/-- A comparison inside of a call is cut there, so that neither part is nested. -/
theorem parts_of_call_not_nested :
    IsNested "check(x > 3)".toList ∧
      parseCondition "check(x > 3)" = some ⟨"check(x", .gt, .symbol "3)"⟩ ∧
      ¬ IsNested "check(x".toList ∧ ¬ IsNested "3)".toList := by
  have hread : parseCondition "check(x > 3)" = some ⟨"check(x", .gt, .symbol "3)"⟩ := by
    decide +kernel
  exact ⟨by decide, hread, by decide, by decide⟩

end Testwright.Source
