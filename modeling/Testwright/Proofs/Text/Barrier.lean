import Mathlib.Data.List.Forall2
import Testwright.Proofs.Text.Spelling
import Testwright.Text.Basic

/-!
# Matches before a brace

A pattern that reads no opening brace does not get past one, so what stands behind the brace makes
no difference to it (`Pattern.IsLocal`). With a rule for each way to build a pattern. Main
statement: a pattern that goes on to an opening brace reads the same from two texts that are the
same up to their braces (`Pattern.EndsAtBrace.reads`).
-/

namespace Testwright.Text

/-- Every opening parenthesis of the text is followed by a closing one. -/
def Answered (v : List Char) : Prop := ∀ a b, v = a ++ '(' :: b → ')' ∈ b

variable {a b v r r' : List Char} {x : Char}

theorem Answered.of_append (h : Answered (a ++ v)) : Answered v :=
  fun a' b hv => h (a ++ a') b (by rw [hv, List.append_assoc])

/-- The last parenthesis of the text is a closing one. -/
def ClosesLast (v : List Char) : Prop := ∃ a b, v = a ++ ')' :: b ∧ '(' ∉ b

theorem ClosesLast.append (h : ClosesLast v) (s : List Char) : ClosesLast (s ++ v) := by
  obtain ⟨a, b, rfl, hb⟩ := h
  exact ⟨s ++ a, b, (List.append_assoc s a _).symm, hb⟩

theorem ClosesLast.answered (h : ClosesLast v) : Answered v := by
  obtain ⟨a, b, rfl, hb⟩ := h
  intro a' b' h
  rcases append_eq_append_cons_iff.mp h with ⟨t, -, ht⟩ | ⟨t, -, rfl⟩
  · cases t with
    | nil =>
        cases ht
    | cons y t =>
        refine absurd ?_ hb
        rw [(List.cons.inj ht).2]
        exact List.mem_append_right t List.mem_cons_self
  · exact List.mem_append_right t List.mem_cons_self

namespace Cursor

variable {c c' d d' : Cursor} {s : List Char}

/-- From two places the same text `v` follows up to an opening brace, and behind it the texts `r`
and `r'`; on the way to them the same was read and captured. -/
structure SameUpTo (v r r' : List Char) (c c' : Cursor) : Prop where
  answered : Answered v
  left : c.rest = v ++ '\x7b' :: r
  right : c'.rest = v ++ '\x7b' :: r'
  before : c.before = c'.before
  read : c.read = c'.read
  captured : c.spans.map Span.text = c'.spans.map Span.text

/-- The same text follows up to an opening brace. -/
def Follows (r r' : List Char) (c c' : Cursor) : Prop := ∃ v, SameUpTo v r r' c c'

theorem SameUpTo.step (h : SameUpTo (x :: v) r r' c c') :
    SameUpTo v r r' (c.step x (v ++ '\x7b' :: r)) (c'.step x (v ++ '\x7b' :: r')) :=
  ⟨h.answered.of_append (a := [x]), rfl, rfl, rfl, congrArg (· + 1) h.read, h.captured⟩

theorem SameUpTo.past (h : SameUpTo (s ++ v) r r' c c') :
    SameUpTo v r r' (c.past s (v ++ '\x7b' :: r)) (c'.past s (v ++ '\x7b' :: r')) :=
  ⟨h.answered.of_append, rfl, rfl, congrArg s.getLast?.or h.before,
    congrArg (· + s.length) h.read, h.captured⟩

/-- What is read before the brace is a part of the text before it. -/
theorem SameUpTo.eq_append (h : SameUpTo v r r' c c') {u : List Char} (hd : SameUpTo u r r' d d')
    (hs : c.rest = s ++ d.rest) : v = s ++ u := by
  rw [h.left, hd.left, ← List.append_assoc] at hs
  exact List.append_cancel_right hs

end Cursor

namespace Pattern

open Cursor

variable {p q : Pattern} {f : Char → Bool} {c c' d : Cursor} {s : List Char}

/-- Matches that begin before an opening brace end before it, and do not depend on what stands behind
it. -/
def IsLocal (p : Pattern) : Prop :=
  ∀ ⦃r r' : List Char⦄ ⦃c c' : Cursor⦄, Follows r r' c c' →
    List.Forall₂ (Follows r r') (p.ends c) (p.ends c')

/-! ## Local patterns -/

theorem isLocal_empty : IsLocal empty := fun _ _ _ _ h => .cons h .nil

theorem isLocal_one (hf : f '\x7b' = false) : (one f).IsLocal := by
  rintro r r' c c' ⟨v, h⟩
  cases v with
  | nil =>
      rw [ends_one_of_cons h.left, ends_one_of_cons h.right, hf]
      exact .nil
  | cons x v =>
      rw [ends_one_of_cons h.left, ends_one_of_cons h.right]
      cases f x with
      | false => exact .nil
      | true => exact .cons ⟨v, h.step⟩ .nil

theorem isLocal_run (hf : f '\x7b' = false) : (run f).IsLocal := by
  have hall : ∀ {r r' v : List Char} {c c' : Cursor} {nearer nearer' : List Cursor},
      SameUpTo v r r' c c' → List.Forall₂ (Follows r r') nearer nearer' →
      List.Forall₂ (Follows r r') (stopsFrom f (v ++ '\x7b' :: r) c nearer)
        (stopsFrom f (v ++ '\x7b' :: r') c' nearer') := by
    intro r r' v
    induction v with
    | nil =>
        intro c c' nearer nearer' h hnearer
        rw [List.nil_append, List.nil_append, stopsFrom, stopsFrom, hf]
        exact .cons ⟨[], h⟩ hnearer
    | cons x v ih =>
        intro c c' nearer nearer' h hnearer
        rw [List.cons_append, List.cons_append, stopsFrom, stopsFrom]
        cases f x with
        | false => exact .cons ⟨x :: v, h⟩ hnearer
        | true => exact ih h.step (.cons ⟨x :: v, h⟩ hnearer)
  rintro r r' c c' ⟨v, h⟩
  have hstops := hall h List.Forall₂.nil
  rwa [← h.left, ← h.right] at hstops

theorem isLocal_all (hf : f '\x7b' = false) : (all f).IsLocal := by
  have hall : ∀ {r r' v : List Char} {c c' : Cursor}, SameUpTo v r r' c c' →
      Follows r r' (passFrom f (v ++ '\x7b' :: r) c) (passFrom f (v ++ '\x7b' :: r') c') := by
    intro r r' v
    induction v with
    | nil =>
        intro c c' h
        rw [List.nil_append, List.nil_append, passFrom, passFrom, hf]
        exact ⟨[], h⟩
    | cons x v ih =>
        intro c c' h
        rw [List.cons_append, List.cons_append, passFrom, passFrom]
        cases f x with
        | false => exact ⟨x :: v, h⟩
        | true => exact ih h.step
  rintro r r' c c' ⟨v, h⟩
  have hpass := hall h
  rw [← h.left, ← h.right] at hpass
  exact .cons hpass .nil

theorem isLocal_edge : IsLocal edge := by
  rintro r r' c c' ⟨v, h⟩
  have hhead : c.rest.head? = c'.rest.head? := by
    rw [h.left, h.right]
    cases v <;> rfl
  have hedge : c.atEdge = c'.atEdge := by rw [atEdge, atEdge, h.before, hhead]
  show List.Forall₂ _ (if c.atEdge then [c] else []) (if c'.atEdge then [c'] else [])
  rw [← hedge]
  split
  · exact .cons ⟨v, h⟩ .nil
  · exact .nil

theorem IsLocal.seq (hp : p.IsLocal) (hq : q.IsLocal) : (p ++ q).IsLocal :=
  fun _ _ _ _ h => List.rel_flatMap (hp h) fun _ _ h' => hq h'

theorem IsLocal.either (hp : p.IsLocal) (hq : q.IsLocal) : (either p q).IsLocal :=
  fun _ _ _ _ h => List.rel_append (hp h) (hq h)

theorem IsLocal.optional (hp : p.IsLocal) : (optional p).IsLocal := hp.either isLocal_empty

/-- Each repetition reads something of the text before the brace, which so bounds their number. -/
theorem IsLocal.many (hp : p.IsLocal) (hne : ∀ s k, p.Spells s k → s ≠ []) :
    (many p).IsLocal := by
  have hall : ∀ {r r' : List Char} (fuel fuel' : List Char) {v : List Char} {c c' : Cursor},
      SameUpTo v r r' c c' → v.length < fuel.length → v.length < fuel'.length →
      List.Forall₂ (Follows r r') (repeatEnds p.ends fuel c) (repeatEnds p.ends fuel' c') := by
    intro r r' fuel
    induction fuel with
    | nil => exact fun _ _ _ _ _ hfuel => absurd hfuel (Nat.not_lt_zero _)
    | cons x more ih =>
        intro fuel' v c c' h hfuel hfuel'
        cases fuel' with
        | nil => exact absurd hfuel' (Nat.not_lt_zero _)
        | cons x' more' =>
            have hread : ∀ d ∈ p.ends c, ∃ s, s ≠ [] ∧ c.rest = s ++ d.rest := by
              intro d hd
              obtain ⟨s, k, hs, hto⟩ := each_spells p c d hd
              exact ⟨s, hne s k hs, hto.1⟩
            have hboth := (List.forall₂_and_left _ _).mpr ⟨hread, hp ⟨v, h⟩⟩
            rw [repeatEnds, repeatEnds]
            refine List.rel_append (List.rel_flatMap hboth ?_) (.cons ⟨v, h⟩ .nil)
            rintro d d' ⟨⟨s, hs, hrest⟩, u, hu⟩
            have hlength := congrArg List.length (h.eq_append hu hrest)
            have hpos := List.length_pos_iff.mpr hs
            rw [List.length_append] at hlength
            rw [List.length_cons] at hfuel hfuel'
            exact ih more' hu (by omega) (by omega)
  rintro r r' c c' ⟨v, h⟩
  refine hall c.rest c'.rest h ?_ ?_
  · rw [h.left, List.length_append, List.length_cons]
    omega
  · rw [h.right, List.length_append, List.length_cons]
    omega

theorem IsLocal.capture (hp : p.IsLocal) : (capture p).IsLocal := by
  rintro r r' c c' ⟨v, h⟩
  have hread : ∀ d ∈ p.ends c, ∃ s, c.rest = s ++ d.rest ∧ d.read = c.read + s.length := by
    intro d hd
    obtain ⟨s, k, -, hto⟩ := each_spells p c d hd
    exact ⟨s, hto.1, hto.2.1⟩
  have hboth := (List.forall₂_and_left _ _).mpr ⟨hread, hp ⟨v, h⟩⟩
  refine List.rel_map ?_ hboth
  rintro d d' ⟨⟨s, hrest, hlength⟩, u, hu⟩
  refine ⟨u, hu.answered, hu.left, hu.right, hu.before, hu.read, ?_⟩
  have htext : c.rest.take (d.read - c.read) = c'.rest.take (d'.read - c'.read) := by
    rw [← hu.read, ← h.read, hlength, Nat.add_sub_cancel_left, h.left, h.right,
      h.eq_append hu hrest, List.append_assoc, List.append_assoc, List.take_left, List.take_left]
  show c.rest.take (d.read - c.read) :: _ = c'.rest.take (d'.read - c'.read) :: _
  rw [htext, hu.captured]

theorem isLocal_ofList {cs : List Char} (h : '\x7b' ∉ cs) : (ofList cs).IsLocal := by
  have hchar : ∀ {x : Char}, x ≠ '\x7b' → (char x).IsLocal := fun hx =>
    isLocal_one (beq_eq_false_iff_ne.mpr hx.symm)
  induction cs with
  | nil => exact isLocal_empty
  | cons x cs ih =>
      have hx : x ≠ '\x7b' := fun hx => h (hx ▸ List.mem_cons_self)
      have hcs : '\x7b' ∉ cs := fun hmem => h (List.mem_cons_of_mem x hmem)
      cases cs with
      | nil => exact hchar hx
      | cons y cs => exact (hchar hx).seq (ih hcs)

theorem isLocal_word {w : String} (h : '\x7b' ∉ w.toList) : (word w).IsLocal := isLocal_ofList h

theorem isLocal_anyOf {words : List String} (h : ∀ w ∈ words, '\x7b' ∉ w.toList) :
    (anyOf words).IsLocal := by
  induction words with
  | nil => exact isLocal_one rfl
  | cons w words ih =>
      obtain ⟨hw, hwords⟩ := List.forall_mem_cons.mp h
      cases words with
      | nil => exact isLocal_word hw
      | cons w' words => exact (isLocal_word hw).either (ih hwords)

theorem isLocal_whole (hf : f '\x7b' = false) : (whole f).IsLocal :=
  (isLocal_one hf).seq (isLocal_all hf)

theorem isLocal_blank : blank.IsLocal := isLocal_all (by decide)

theorem isLocal_gap : gap.IsLocal := isLocal_whole (by decide)

/-! ## Patterns up to the brace -/

/-- Matches that begin before an opening brace end after it at most, and do not depend on what stands
behind it. -/
def EndsAtBrace (p : Pattern) : Prop :=
  ∀ ⦃r r' : List Char⦄ ⦃c c' : Cursor⦄, Follows r r' c c' →
    List.Forall₂ (fun d d' => (∃ w, d.rest = w ++ r ∧ d'.rest = w ++ r') ∧ d.read = d'.read ∧
      d.spans.map Span.text = d'.spans.map Span.text) (p.ends c) (p.ends c')

theorem endsAtBrace_brace : (char '\x7b').EndsAtBrace := by
  rintro r r' c c' ⟨v, h⟩
  have hread : c.read + 1 = c'.read + 1 := congrArg (· + 1) h.read
  rw [char]
  cases v with
  | nil =>
      rw [ends_one_of_cons h.left, ends_one_of_cons h.right]
      exact .cons ⟨⟨[], rfl, rfl⟩, hread, h.captured⟩ .nil
  | cons x v =>
      rw [ends_one_of_cons h.left, ends_one_of_cons h.right]
      split
      · exact .cons ⟨⟨v ++ ['\x7b'], List.append_cons _ _ _, List.append_cons _ _ _⟩, hread,
          h.captured⟩ .nil
      · exact .nil

theorem IsLocal.endsAtBrace_seq (hp : p.IsLocal) (hq : q.EndsAtBrace) : (p ++ q).EndsAtBrace :=
  fun _ _ _ _ h => List.rel_flatMap (hp h) fun _ _ h' => hq h'

theorem EndsAtBrace.fails (hp : p.EndsAtBrace) (h : Follows r r' c c') (hfails : p.Fails c) :
    p.Fails c' := by
  have hends := hp h
  rw [hfails] at hends
  exact List.forall₂_nil_left_iff.mp hends

/-- The same is read from both texts, and the same is left of them up to the brace. -/
theorem EndsAtBrace.reads {k : List (List Char)} (hp : p.EndsAtBrace) (h : SameUpTo v r r' c c')
    (hreads : p.Reads c d) (hto : c.ReadsTo d s k) :
    ∃ w d', v ++ ['\x7b'] = s ++ w ∧ d.rest = w ++ r ∧ d'.rest = w ++ r' ∧ p.Reads c' d' ∧
      c'.ReadsTo d' s k := by
  obtain ⟨later, hlater⟩ := List.head?_eq_some_iff.mp hreads
  have hends := hp ⟨v, h⟩
  rw [hlater] at hends
  obtain ⟨d', later', ⟨⟨w, hleft, hright⟩, hread, hcaptured⟩, -, hlater'⟩ :=
    List.forall₂_cons_left_iff.mp hends
  have hpieces : v ++ ['\x7b'] = s ++ w := by
    have hrest := hto.1
    rw [h.left, hleft, List.append_cons, ← List.append_assoc s] at hrest
    exact List.append_cancel_right hrest
  refine ⟨w, d', hpieces, hleft, hright, List.head?_eq_some_iff.mpr ⟨later', hlater'⟩, ?_, ?_, ?_⟩
  · rw [h.right, List.append_cons, hpieces, hright, List.append_assoc]
  · rw [← hread, hto.2.1, h.read]
  · rw [← hcaptured, hto.2.2, h.captured]

end Pattern

end Testwright.Text
