import Testwright.Proofs.Text.Spacing
import Testwright.Text.Balanced

/-!
# Nested delimiters

The texts in which every opening delimiter is closed again and every literal comes to an end, as a
grammar over any alphabet (`Marks.Nested`). Main statements: these are the texts that a scan leaves
where it began (`Marks.nested_iff_scan`), and the text before the closing delimiter is the one of
them that a closing delimiter follows (`Delimiters.closeAfter_eq_some_iff`).
-/

namespace Testwright.Text

/-- The five signs of an alphabet that nesting depends on. -/
structure Marks (α : Type) where
  opener : α
  closer : α
  double : α
  single : α
  escape : α
  nodup : [opener, closer, double, single, escape].Nodup

namespace Marks

variable {α : Type} (m : Marks α)

/-- One of the two quotes. -/
def IsQuote (x : α) : Prop := x = m.double ∨ x = m.single

/-- Neither a delimiter nor a quote. -/
def IsPlain (x : α) : Prop := x ≠ m.opener ∧ x ≠ m.closer ∧ ¬ m.IsQuote x

/-- What may stand between the quotes `q` of a literal. -/
inductive Inside (q : α) : List α → Prop where
  | nil : Inside q []
  | plain {x : α} {s : List α} (hquote : x ≠ q) (hescape : x ≠ m.escape) (h : Inside q s) :
      Inside q (x :: s)
  | escaped (x : α) {s : List α} (h : Inside q s) : Inside q (m.escape :: x :: s)

/-- The texts whose delimiters are nested, outside of literals. -/
inductive Nested : List α → Prop where
  | nil : Nested []
  | plain {x : α} {s : List α} (hx : m.IsPlain x) (h : Nested s) : Nested (x :: s)
  | literal {q : α} {l s : List α} (hq : m.IsQuote q) (hl : m.Inside q l) (h : Nested s) :
      Nested (q :: (l ++ q :: s))
  | group {s t : List α} (hs : Nested s) (ht : Nested t) :
      Nested (m.opener :: (s ++ m.closer :: t))

theorem opener_ne_closer : m.opener ≠ m.closer := by
  have h := m.nodup
  simp at h
  exact h.1.1

theorem not_isQuote_opener : ¬ m.IsQuote m.opener := by
  have h := m.nodup
  simp at h
  exact not_or.mpr ⟨h.1.2.1, h.1.2.2.1⟩

theorem not_isQuote_closer : ¬ m.IsQuote m.closer := by
  have h := m.nodup
  simp at h
  exact not_or.mpr ⟨h.2.1.1, h.2.1.2.1⟩

theorem not_isQuote_escape : ¬ m.IsQuote m.escape := by
  have h := m.nodup
  simp at h
  exact not_or.mpr ⟨Ne.symm h.2.2.1.2, Ne.symm h.2.2.2⟩

theorem kinds (x : α) : m.IsQuote x ∨ x = m.opener ∨ x = m.closer ∨ m.IsPlain x := by
  by_cases hopener : x = m.opener
  · exact .inr (.inl hopener)
  by_cases hcloser : x = m.closer
  · exact .inr (.inr (.inl hcloser))
  by_cases hquote : m.IsQuote x
  · exact .inl hquote
  · exact .inr (.inr (.inr ⟨hopener, hcloser, hquote⟩))

variable {m} {n : Nat} {q x : α} {s t : List α}

theorem nested_of_plain (hs : ∀ x ∈ s, m.IsPlain x) : m.Nested s := by
  induction s with
  | nil => exact .nil
  | cons x s ih =>
      exact .plain (hs x List.mem_cons_self) (ih fun y hy => hs y (List.mem_cons_of_mem x hy))

/-- Plain text at the end of a nested text is of no account. -/
theorem Nested.of_append_plain (h : m.Nested (s ++ t)) (ht : ∀ x ∈ t, m.IsPlain x) :
    m.Nested s := by
  generalize hcs : s ++ t = cs at h
  induction h generalizing s with
  | nil =>
      rw [(List.append_eq_nil_iff.mp hcs).1]
      exact .nil
  | plain hx _ ih =>
      rcases List.append_eq_cons_iff.mp hcs with ⟨rfl, -⟩ | ⟨r, rfl, hr⟩
      · exact .nil
      · exact .plain hx (ih hr.symm)
  | @literal q l u hq hl _ ih =>
      have hnot : q ∉ t := fun hmem => (ht q hmem).2.2 hq
      obtain ⟨r, rfl, hr⟩ := exists_append_of_notMem (u := q :: l) hnot hcs
      exact .literal hq hl (ih hr.symm)
  | @group u v hu _ _ ih =>
      have hnot : m.closer ∉ t := fun hmem => (ht _ hmem).2.1 rfl
      obtain ⟨r, rfl, hr⟩ := exists_append_of_notMem (u := m.opener :: u) hnot hcs
      exact .group hu (ih hr.symm)

/-! ## Texts that close delimiters -/

/-- The texts that close a number of delimiters. -/
inductive Closing (m : Marks α) : Nat → List α → Prop where
  | done {s : List α} (hs : m.Nested s) : Closing m 0 s
  | close {n : Nat} {s t : List α} (hs : m.Nested s) (ht : Closing m n t) :
      Closing m (n + 1) (s ++ m.closer :: t)

theorem Closing.plain (hx : m.IsPlain x) (h : Closing m n s) : Closing m n (x :: s) := by
  cases h with
  | done hs => exact .done (.plain hx hs)
  | close hs ht => exact .close (.plain hx hs) ht

theorem Closing.literal {l : List α} (hq : m.IsQuote q) (hl : m.Inside q l) (h : Closing m n s) :
    Closing m n (q :: (l ++ q :: s)) := by
  cases h with
  | done hs => exact .done (.literal hq hl hs)
  | close hs ht =>
      have hclose := Closing.close (.literal hq hl hs) ht
      simpa using hclose

theorem Closing.opener (h : Closing m (n + 1) s) : Closing m n (m.opener :: s) := by
  cases h with
  | close hs ht =>
      cases ht with
      | done ht => exact .done (.group hs ht)
      | close ht hu =>
          have hclose := Closing.close (.group hs ht) hu
          simpa using hclose

/-! ## The scan -/

/-- What a scan is in the middle of: plain text, a literal, or a literal right after the escape
sign. -/
inductive Mode (α : Type) where
  | text
  | literal (quote : α)
  | escaped (quote : α)
  deriving DecidableEq

variable (m) [DecidableEq α]

instance : DecidablePred m.IsQuote := fun x => inferInstanceAs (Decidable (x = _ ∨ x = _))

/-- One step of a scan, which keeps the number of open delimiters. There is none where a delimiter
is closed that was not opened. -/
def step : Nat × Mode α → α → Option (Nat × Mode α)
  | (n, .escaped q), _ => some (n, .literal q)
  | (n, .literal q), x =>
    some (n, if x = m.escape then .escaped q else if x = q then .text else .literal q)
  | (n, .text), x =>
    if m.IsQuote x then some (n, .literal x)
    else if x = m.opener then some (n + 1, .text)
    else if x = m.closer then
      match n with
      | 0 => none
      | n + 1 => some (n, .text)
    else some (n, .text)

/-- A scan of a text. -/
def scan (p : Nat × Mode α) (s : List α) : Option (Nat × Mode α) := s.foldlM m.step p

variable {m} {p p' : Nat × Mode α}

@[simp] theorem scan_nil : m.scan p [] = some p := rfl

@[simp] theorem scan_cons : m.scan p (x :: s) = (m.step p x).bind fun p' => m.scan p' s := rfl

theorem scan_append : m.scan p (s ++ t) = (m.scan p s).bind fun p' => m.scan p' t :=
  List.foldlM_append

theorem step_isPlain (hx : m.IsPlain x) : m.step (n, .text) x = some (n, .text) := by
  obtain ⟨hopener, hcloser, hquote⟩ := hx
  simp [step, hopener, hcloser, hquote]

theorem step_isQuote (hx : m.IsQuote x) : m.step (n, .text) x = some (n, .literal x) := by
  simp [step, hx]

theorem step_opener : m.step (n, .text) m.opener = some (n + 1, .text) := by
  simp [step, m.not_isQuote_opener]

theorem step_closer : m.step (n + 1, .text) m.closer = some (n, .text) := by
  simp [step, m.not_isQuote_closer, m.opener_ne_closer.symm]

theorem step_closer_zero : m.step (0, .text) m.closer = none := by
  simp [step, m.not_isQuote_closer, m.opener_ne_closer.symm]

theorem step_escape : m.step (n, .literal q) m.escape = some (n, .escaped q) := by
  simp [step]

theorem step_endQuote (hq : m.IsQuote q) : m.step (n, .literal q) q = some (n, .text) := by
  have hescape : q ≠ m.escape := fun h => m.not_isQuote_escape (h ▸ hq)
  simp [step, hescape]

theorem step_insideLiteral (hx : x ≠ q) (hescape : x ≠ m.escape) :
    m.step (n, .literal q) x = some (n, .literal q) := by
  simp [step, hx, hescape]

/-! ## Nested texts are scanned -/

theorem scan_inside (hs : m.Inside q s) : m.scan (n, .literal q) s = some (n, .literal q) := by
  induction hs with
  | nil => rfl
  | plain hquote hescape _ ih =>
      rw [scan_cons, step_insideLiteral hquote hescape, Option.bind_some, ih]
  | escaped x _ ih =>
      rw [scan_cons, step_escape, Option.bind_some, scan_cons]
      exact ih

theorem scan_nested (hs : m.Nested s) (n : Nat) : m.scan (n, .text) s = some (n, .text) := by
  induction hs generalizing n with
  | nil => rfl
  | plain hx _ ih => rw [scan_cons, step_isPlain hx, Option.bind_some, ih]
  | literal hq hl _ ih =>
      rw [scan_cons, step_isQuote hq, Option.bind_some, scan_append, scan_inside hl,
        Option.bind_some, scan_cons, step_endQuote hq, Option.bind_some, ih]
  | group _ _ ihs iht =>
      rw [scan_cons, step_opener, Option.bind_some, scan_append, ihs, Option.bind_some, scan_cons,
        step_closer, Option.bind_some, iht]

/-! ## Scanned texts are nested -/

/-- The three statements are proved together, as the scan goes from one mode to another. -/
theorem closing_of_scan (s : List α) (n : Nat) :
    (m.scan (n, .text) s = some (0, .text) → Closing m n s) ∧
      (∀ q, m.IsQuote q → m.scan (n, .literal q) s = some (0, .text) →
        ∃ l t, s = l ++ q :: t ∧ m.Inside q l ∧ Closing m n t) ∧
      (∀ q, m.IsQuote q → m.scan (n, .escaped q) s = some (0, .text) →
        ∃ x l t, s = x :: (l ++ q :: t) ∧ m.Inside q l ∧ Closing m n t) := by
  induction s generalizing n with
  | nil =>
      refine ⟨fun h => ?_, fun q _ h => ?_, fun q _ h => ?_⟩
      · cases h
        exact .done .nil
      · cases h
      · cases h
  | cons x s ih =>
      refine ⟨fun h => ?_, fun q hq h => ?_, fun q hq h => ?_⟩
      · rcases m.kinds x with hquote | rfl | rfl | hplain
        · rw [scan_cons, step_isQuote hquote] at h
          obtain ⟨l, t, rfl, hl, ht⟩ := (ih n).2.1 x hquote h
          exact ht.literal hquote hl
        · rw [scan_cons, step_opener] at h
          exact ((ih (n + 1)).1 h).opener
        · cases n with
          | zero =>
              rw [scan_cons, step_closer_zero] at h
              cases h
          | succ n =>
              rw [scan_cons, step_closer] at h
              exact .close .nil ((ih n).1 h)
        · rw [scan_cons, step_isPlain hplain] at h
          exact ((ih n).1 h).plain hplain
      · by_cases hescape : x = m.escape
        · rw [hescape, scan_cons, step_escape] at h
          obtain ⟨y, l, t, rfl, hl, ht⟩ := (ih n).2.2 q hq h
          exact ⟨x :: y :: l, t, rfl, hescape ▸ .escaped y hl, ht⟩
        by_cases hx : x = q
        · rw [hx, scan_cons, step_endQuote hq] at h
          exact ⟨[], s, by rw [hx]; rfl, .nil, (ih n).1 h⟩
        · rw [scan_cons, step_insideLiteral hx hescape] at h
          obtain ⟨l, t, rfl, hl, ht⟩ := (ih n).2.1 q hq h
          exact ⟨x :: l, t, rfl, .plain hx hescape hl, ht⟩
      · obtain ⟨l, t, rfl, hl, ht⟩ := (ih n).2.1 q hq h
        exact ⟨x, l, t, rfl, hl, ht⟩

/-- **The nested texts are those that a scan leaves where it began.** -/
theorem nested_iff_scan : m.Nested s ↔ m.scan (0, .text) s = some (0, .text) := by
  refine ⟨fun h => scan_nested h 0, fun h => ?_⟩
  cases (closing_of_scan s 0).1 h with
  | done hs => exact hs

instance : DecidablePred m.Nested := fun _ => decidable_of_iff _ nested_iff_scan.symm

theorem nested_append_iff (hs : m.Nested s) : m.Nested (s ++ t) ↔ m.Nested t := by
  rw [nested_iff_scan, nested_iff_scan, scan_append, scan_nested hs, Option.bind_some]

/-! ## Signs without a meaning -/

/-- The literal that a scan is in has a quote. -/
def HasQuote (m : Marks α) : Mode α → Prop
  | .text => True
  | .literal q => m.IsQuote q
  | .escaped q => m.IsQuote q

/-- The mode after a sign that has no meaning, which may have been escaped. -/
def Mode.settled : Mode α → Mode α
  | .escaped q => .literal q
  | mode => mode

/-- Neither a delimiter nor a quote nor the escape sign. -/
def IsNeutral (m : Marks α) (x : α) : Prop := m.IsPlain x ∧ x ≠ m.escape

theorem HasQuote.step {p' : Nat × Mode α} (hp : m.HasQuote p.2) (h : m.step p x = some p') :
    m.HasQuote p'.2 := by
  obtain ⟨n, mode⟩ := p
  cases mode with
  | escaped q =>
      cases h
      exact hp
  | literal q =>
      cases h
      dsimp only
      split
      · exact hp
      · split
        · trivial
        · exact hp
  | text =>
      rcases m.kinds x with hquote | rfl | rfl | hplain
      · rw [step_isQuote hquote] at h
        cases h
        exact hquote
      · rw [step_opener] at h
        cases h
        trivial
      · cases n with
        | zero =>
            rw [step_closer_zero] at h
            cases h
        | succ n =>
            rw [step_closer] at h
            cases h
            trivial
      · rw [step_isPlain hplain] at h
        cases h
        trivial

theorem step_isNeutral (hx : m.IsNeutral x) (hp : m.HasQuote p.2) :
    m.step p x = some (p.1, p.2.settled) := by
  obtain ⟨n, mode⟩ := p
  cases mode with
  | text => exact step_isPlain hx.1
  | escaped q => rfl
  | literal q =>
      have hquote : x ≠ q := fun h => hx.1.2.2 (h ▸ hp)
      simp [Marks.step, Mode.settled, hx.2, hquote]

/-- All such signs together have the effect of one. -/
theorem scan_isNeutral (hs : ∀ x ∈ s, m.IsNeutral x) (hne : s ≠ []) (hp : m.HasQuote p.2) :
    m.scan p s = some (p.1, p.2.settled) := by
  have hsettled : ∀ mode : Mode α, mode.settled.settled = mode.settled := by
    intro mode
    cases mode <;> rfl
  induction s generalizing p with
  | nil => exact absurd rfl hne
  | cons x s ih =>
      have hstep := step_isNeutral (hs x List.mem_cons_self) hp
      rw [scan_cons, hstep, Option.bind_some]
      cases s with
      | nil => rfl
      | cons y s =>
          rw [ih (fun z hz => hs z (List.mem_cons_of_mem x hz)) (List.cons_ne_nil y s)
            (hp.step hstep), hsettled]

/-! ## Texts of no account -/

theorem step_eq_none (h : m.step p x = none) : p = (0, .text) ∧ x = m.closer := by
  obtain ⟨n, mode⟩ := p
  cases mode with
  | escaped q => cases h
  | literal q => cases h
  | text =>
      rcases m.kinds x with hquote | rfl | rfl | hplain
      · rw [step_isQuote hquote] at h
        cases h
      · rw [step_opener] at h
        cases h
      · cases n with
        | zero => exact ⟨rfl, rfl⟩
        | succ n =>
            rw [step_closer] at h
            cases h
      · rw [step_isPlain hplain] at h
        cases h

/-- A scan that does not get to the end of the text stops at a closing delimiter that is too much. -/
theorem exists_of_scan_eq_none (h : m.scan p s = none) :
    ∃ s₁ s₂, s = s₁ ++ m.closer :: s₂ ∧ m.scan p s₁ = some (0, .text) := by
  induction s generalizing p with
  | nil => cases h
  | cons x s ih =>
      rw [scan_cons] at h
      cases hstep : m.step p x with
      | none =>
          obtain ⟨rfl, rfl⟩ := step_eq_none hstep
          exact ⟨[], s, rfl, rfl⟩
      | some p' =>
          rw [hstep, Option.bind_some] at h
          obtain ⟨s₁, s₂, rfl, hs₁⟩ := ih h
          refine ⟨x :: s₁, s₂, rfl, ?_⟩
          rw [scan_cons, hstep, Option.bind_some, hs₁]

theorem HasQuote.scan (hp : m.HasQuote p.2) (h : m.scan p s = some p') : m.HasQuote p'.2 := by
  induction s generalizing p with
  | nil =>
      cases h
      exact hp
  | cons x s ih =>
      rw [scan_cons] at h
      obtain ⟨p₁, hstep, hlater⟩ := Option.bind_eq_some_iff.mp h
      exact ih (hp.step hstep) hlater

/-- A scan after an opening delimiter is not right after an escape sign. -/
theorem settled_of_step_opener (h : m.step p m.opener = some p') : p'.2.settled = p'.2 := by
  obtain ⟨n, mode⟩ := p
  cases mode with
  | escaped q =>
      cases h
      rfl
  | literal q =>
      have hescape : m.opener ≠ m.escape := by
        have hnodup := m.nodup
        simp at hnodup
        exact hnodup.1.2.2.2
      cases h
      dsimp only
      rw [if_neg hescape]
      split <;> rfl
  | text =>
      rw [step_opener] at h
      cases h
      rfl

/-- A literal goes on where no quote stands, and nothing is closed in it. -/
theorem scan_ne_none_of_literal (hs : ∀ x ∈ s, ¬ m.IsQuote x) (hp : m.HasQuote p.2)
    (hmode : p.2 ≠ .text) : m.scan p s ≠ none := by
  induction s generalizing p with
  | nil => exact Option.some_ne_none p
  | cons x s ih =>
      rw [scan_cons]
      cases hstep : m.step p x with
      | none => exact absurd (congrArg Prod.snd (step_eq_none hstep).1) hmode
      | some p' =>
          refine ih (fun y hy => hs y (List.mem_cons_of_mem x hy)) (hp.step hstep) ?_
          obtain ⟨n, mode⟩ := p
          cases mode with
          | text => exact absurd rfl hmode
          | escaped q =>
              cases hstep
              exact nofun
          | literal q =>
              have hquote : x ≠ q := fun h => hs x List.mem_cons_self (h ▸ hp)
              cases hstep
              dsimp only
              rw [if_neg hquote]
              split <;> exact nofun

/-- The text leaves every scan as it was that does not come to it right after an escape sign. -/
def IsInert (m : Marks α) (s : List α) : Prop :=
  ∀ p : Nat × Mode α, m.HasQuote p.2 → p.2.settled = p.2 → m.scan p s = some p

theorem IsInert.scan_append (hs : m.IsInert s) (hp : m.HasQuote p.2) (hsettled : p.2.settled = p.2)
    (t : List α) : m.scan p (s ++ t) = m.scan p t := by
  rw [Marks.scan_append, hs p hp hsettled, Option.bind_some]

theorem IsInert.append (hs : m.IsInert s) (ht : m.IsInert t) : m.IsInert (s ++ t) := by
  intro p hp hsettled
  rw [hs.scan_append hp hsettled, ht p hp hsettled]

theorem isInert_of_isNeutral (hs : ∀ x ∈ s, m.IsNeutral x) : m.IsInert s := by
  intro p hp hsettled
  cases s with
  | nil => rfl
  | cons x s =>
      rw [scan_isNeutral hs (List.cons_ne_nil x s) hp, hsettled]

end Marks

/-! ## Steps of the search for a closing delimiter -/

section

variable {opener closer : Char} {depth : Nat} {cs seen : List Char}

theorem closeFrom_escape {q x : Char} :
    closeFrom opener closer depth (some q) seen ('\\' :: x :: cs) =
      closeFrom opener closer depth (some q) (x :: '\\' :: seen) cs := by
  rw [closeFrom.eq_def]
  simp

theorem closeFrom_some_cons {c q : Char} (hc : c ≠ '\\') :
    closeFrom opener closer depth (some q) seen (c :: cs) =
      closeFrom opener closer depth (if c = q then none else some q) (c :: seen) cs := by
  rw [closeFrom.eq_def]
  simp

theorem closeFrom_none_cons (c : Char) :
    closeFrom opener closer depth none seen (c :: cs) =
      if isQuote c then closeFrom opener closer depth (some c) (c :: seen) cs
      else if c = opener then closeFrom opener closer (depth + 1) none (c :: seen) cs
      else if c = closer then
        match depth with
        | 0 => some (seen.reverse, cs)
        | d + 1 => closeFrom opener closer d none (c :: seen) cs
      else closeFrom opener closer depth none (c :: seen) cs := by
  rw [closeFrom.eq_def]
  cases depth <;> simp

/-- A character that means nothing between two delimiters, outside of literals. -/
def isPlainBetween (opener closer c : Char) : Bool := !isQuote c && c != opener && c != closer

end

/-! ## The two pairs of delimiters -/

/-- The pairs of delimiters that texts are searched for. -/
inductive Delimiters where
  | parens
  | braces

namespace Delimiters

/-- The opening one. -/
def opener : Delimiters → Char
  | parens => '('
  | braces => '\x7b'

/-- The closing one. -/
def closer : Delimiters → Char
  | parens => ')'
  | braces => '\x7d'

/-- The marks of a source text. -/
def marks (d : Delimiters) : Marks Char where
  opener := d.opener
  closer := d.closer
  double := '"'
  single := '\''
  escape := '\\'
  nodup := by cases d <;> decide

variable {d : Delimiters} {n : Nat} {quote : Option Char} {q c : Char}
  {s t cs seen inner rest : List Char}

theorem isQuote_iff : isQuote c = true ↔ d.marks.IsQuote c := by
  simp [isQuote, Marks.IsQuote, marks]

theorem isQuote_opener (d : Delimiters) : isQuote d.opener = false := by cases d <;> decide

theorem isQuote_closer (d : Delimiters) : isQuote d.closer = false := by cases d <;> decide

theorem closer_ne_opener (d : Delimiters) : d.closer ≠ d.opener := d.marks.opener_ne_closer.symm

/-! ### What the scan passes over -/

theorem closeFrom_append_inside (hs : d.marks.Inside q s) :
    closeFrom d.opener d.closer n (some q) seen (s ++ t) =
      closeFrom d.opener d.closer n (some q) (s.reverse ++ seen) t := by
  induction hs generalizing seen with
  | nil => rfl
  | plain hquote hescape _ ih =>
      rw [List.cons_append, closeFrom_some_cons hescape, if_neg hquote, ih]
      simp
  | @escaped x s _ ih =>
      show closeFrom _ _ n (some q) seen ('\\' :: x :: (s ++ t)) = _
      rw [closeFrom_escape, ih]
      simp [marks]

/-- The scan passes over nested text. -/
theorem closeFrom_append_nested (hs : d.marks.Nested s) :
    closeFrom d.opener d.closer n none seen (s ++ t) =
      closeFrom d.opener d.closer n none (s.reverse ++ seen) t := by
  induction hs generalizing n seen t with
  | nil => rfl
  | @plain x s hx _ ih =>
      have hquote : isQuote x = false := Bool.eq_false_iff.mpr (mt isQuote_iff.mp hx.2.2)
      have hopener : x ≠ d.opener := hx.1
      have hcloser : x ≠ d.closer := hx.2.1
      rw [List.cons_append, closeFrom_none_cons, hquote, if_neg Bool.false_ne_true, if_neg hopener,
        if_neg hcloser, ih]
      simp
  | @literal q l s hq hl _ ih =>
      have hescape : q ≠ '\\' := by
        rintro rfl
        exact d.marks.not_isQuote_escape hq
      rw [List.cons_append, closeFrom_none_cons, if_pos (isQuote_iff.mpr hq), List.append_assoc,
        closeFrom_append_inside hl, List.cons_append, closeFrom_some_cons hescape, if_pos rfl, ih]
      simp
  | @group u v _ _ ihu ihv =>
      show closeFrom _ _ n none seen (d.opener :: (u ++ d.closer :: v ++ t)) = _
      rw [closeFrom_none_cons, isQuote_opener, if_neg Bool.false_ne_true, if_pos rfl,
        List.append_assoc, ihu, List.cons_append, closeFrom_none_cons, isQuote_closer,
        if_neg Bool.false_ne_true, if_neg d.closer_ne_opener, if_pos rfl]
      simp [ihv, marks]

/-! ### What the scan finds -/

/-- The mode of a scan that is in a literal or in none. -/
def modeOf : Option Char → Marks.Mode Char
  | none => .text
  | some q => .literal q

/-- The result of a scan, with the text `read` before it. -/
theorem exists_scan_append (read : List Char) {n' : Nat} {quote' : Option Char}
    (hread : d.marks.scan (n, modeOf quote) read = some (n', modeOf quote'))
    (h : ∃ s, cs = s ++ d.closer :: rest ∧ inner = (read.reverse ++ seen).reverse ++ s ∧
      d.marks.scan (n', modeOf quote') s = some (0, .text)) :
    ∃ s, read ++ cs = s ++ d.closer :: rest ∧ inner = seen.reverse ++ s ∧
      d.marks.scan (n, modeOf quote) s = some (0, .text) := by
  obtain ⟨s, rfl, rfl, hs⟩ := h
  refine ⟨read ++ s, by simp, by simp, ?_⟩
  rw [Marks.scan_append, hread, Option.bind_some, hs]

/-- What the scan has passed over when it ends closes the delimiters that were open. -/
theorem exists_scan_of_closeFrom
    (h : closeFrom d.opener d.closer n quote seen cs = some (inner, rest)) :
    ∃ s, cs = s ++ d.closer :: rest ∧ inner = seen.reverse ++ s ∧
      d.marks.scan (n, modeOf quote) s = some (0, .text) := by
  fun_induction closeFrom d.opener d.closer n quote seen cs with
  | case1 => cases h
  | case2 => cases h
  | case3 n q seen x rest ih =>
      have hread : d.marks.scan (n, modeOf (some q)) ['\\', x] = some (n, modeOf (some q)) := by
        simp [Marks.step, marks, modeOf]
      exact exists_scan_append _ hread (ih h)
  | case4 n q seen c rest hescape ih =>
      have hread : d.marks.scan (n, modeOf (some q)) [c] =
          some (n, modeOf (if c = q then none else some q)) := by
        have hc : c ≠ d.marks.escape := hescape
        by_cases hq : c = q
        · subst hq
          simp [Marks.step, modeOf, hc]
        · simp [Marks.step, modeOf, hc, hq]
      exact exists_scan_append _ hread (ih h)
  | case5 n seen c rest hquote ih =>
      have hread : d.marks.scan (n, modeOf none) [c] = some (n, modeOf (some c)) := by
        simp [modeOf, Marks.step_isQuote (isQuote_iff.mp hquote)]
      exact exists_scan_append _ hread (ih h)
  | case6 n seen rest _ ih =>
      have hread : d.marks.scan (n, modeOf none) [d.marks.opener] = some (n + 1, modeOf none) := by
        simp [modeOf, Marks.step_opener]
      exact exists_scan_append _ hread (ih h)
  | case7 seen rest =>
      cases h
      exact ⟨[], rfl, by simp, rfl⟩
  | case8 seen rest n _ _ ih =>
      have hread : d.marks.scan (n + 1, modeOf none) [d.marks.closer] = some (n, modeOf none) := by
        simp [modeOf, Marks.step_closer]
      exact exists_scan_append _ hread (ih h)
  | case9 n seen c rest hquote hopener hcloser ih =>
      have hplain : d.marks.IsPlain c := ⟨hopener, hcloser, mt isQuote_iff.mpr hquote⟩
      have hread : d.marks.scan (n, modeOf none) [c] = some (n, modeOf none) := by
        simp [modeOf, Marks.step_isPlain hplain]
      exact exists_scan_append _ hread (ih h)

/-- **What stands before the closing delimiter.** It is nested, and it is the only nested text that
a closing delimiter follows. -/
theorem closeAfter_eq_some_iff :
    closeAfter d.opener d.closer cs = some (s, rest) ↔
      cs = s ++ d.closer :: rest ∧ d.marks.Nested s := by
  constructor
  · intro h
    obtain ⟨s', rfl, rfl, hs⟩ := exists_scan_of_closeFrom h
    exact ⟨rfl, Marks.nested_iff_scan.mpr hs⟩
  · rintro ⟨rfl, hs⟩
    rw [closeAfter, closeFrom_append_nested hs, closeFrom_none_cons, isQuote_closer,
      if_neg Bool.false_ne_true, if_neg d.closer_ne_opener, if_pos rfl]
    simp

/-- There is a closing delimiter where a scan does not get to the end. -/
theorem isSome_closeAfter_iff :
    (closeAfter d.opener d.closer cs).isSome = true ↔ d.marks.scan (0, .text) cs = none := by
  constructor
  · intro h
    obtain ⟨⟨s, rest⟩, hclose⟩ := Option.isSome_iff_exists.mp h
    obtain ⟨rfl, hs⟩ := closeAfter_eq_some_iff.mp hclose
    have hcloser : d.marks.step (0, .text) d.closer = none := d.marks.step_closer_zero
    rw [Marks.scan_append, Marks.scan_nested hs, Option.bind_some, Marks.scan_cons, hcloser]
    rfl
  · intro h
    obtain ⟨s, rest, rfl, hs⟩ := Marks.exists_of_scan_eq_none h
    have hclose : closeAfter d.opener d.closer (s ++ d.closer :: rest) = some (s, rest) :=
      closeAfter_eq_some_iff.mpr ⟨rfl, Marks.nested_iff_scan.mpr hs⟩
    exact Option.isSome_iff_exists.mpr ⟨_, hclose⟩

/-- Plain text around another text does not matter: inside a literal nothing is closed, with it or
without it. -/
theorem isSome_closeAfter_append {a b : List Char} (ha : ∀ x ∈ a, d.marks.IsPlain x)
    (hb : ∀ x ∈ b, d.marks.IsPlain x) :
    (closeAfter d.opener d.closer (a ++ (cs ++ (b ++ [d.closer])))).isSome =
      (closeAfter d.opener d.closer (cs ++ [d.closer])).isSome := by
  have hpass := Marks.scan_nested (Marks.nested_of_plain ha) 0
  rw [Bool.eq_iff_iff, isSome_closeAfter_iff, isSome_closeAfter_iff, Marks.scan_append, hpass,
    Option.bind_some, Marks.scan_append, Marks.scan_append]
  cases hscan : d.marks.scan (0, .text) cs with
  | none => rfl
  | some p =>
      have hquote : d.marks.HasQuote p.2 := Marks.HasQuote.scan (p := (0, .text)) trivial hscan
      rw [Option.bind_some, Option.bind_some]
      by_cases hmode : p.2 = .text
      · obtain ⟨n, mode⟩ := p
        cases hmode
        rw [Marks.scan_append, Marks.scan_nested (Marks.nested_of_plain hb), Option.bind_some]
      · have hcloser : ∀ x ∈ [d.closer], ¬ d.marks.IsQuote x :=
          List.forall_mem_singleton.mpr d.marks.not_isQuote_closer
        have hwith := List.forall_mem_append.mpr ⟨fun x hx => (hb x hx).2.2, hcloser⟩
        exact iff_of_false (Marks.scan_ne_none_of_literal hwith hquote hmode)
          (Marks.scan_ne_none_of_literal hcloser hquote hmode)

theorem isPlain_of_isPlainBetween (h : isPlainBetween d.opener d.closer c = true) :
    d.marks.IsPlain c := by
  simp only [isPlainBetween, Bool.and_eq_true, Bool.not_eq_true', bne_iff_ne] at h
  obtain ⟨⟨hquote, hopener⟩, hcloser⟩ := h
  exact ⟨hopener, hcloser, fun h => Bool.eq_false_iff.mp hquote (isQuote_iff.mpr h)⟩

/-! ### White space -/

theorem isNeutral_of_isBlank (hx : isBlank c = true) : d.marks.IsNeutral c := by
  have hother : ∀ x ∈ [d.opener, d.closer, '"', '\'', '\\'], c ≠ x := by
    have hnot : ∀ x ∈ [d.opener, d.closer, '"', '\'', '\\'], isBlank x = false := by
      cases d <;> decide
    rintro x hmem rfl
    rw [hnot c hmem] at hx
    cases hx
  have hquote : ¬ d.marks.IsQuote c := by
    rintro (h | h)
    · exact hother '"' (by simp) h
    · exact hother '\'' (by simp) h
  exact ⟨⟨hother d.opener (by simp), hother d.closer (by simp), hquote⟩, hother '\\' (by simp)⟩

/-- How long the white space is makes no difference to a scan. -/
theorem scan_eq_of_alike {a b : List Char} {p : Nat × Marks.Mode Char} (h : Alike a b)
    (hp : d.marks.HasQuote p.2) : d.marks.scan p a = d.marks.scan p b := by
  induction h generalizing p with
  | nil => rfl
  | same x _ ih =>
      rw [Marks.scan_cons, Marks.scan_cons]
      cases hstep : d.marks.step p x with
      | none => rfl
      | some p' => exact ih (hp.step hstep)
  | @gap g g' a b hne hg hne' hg' _ ih =>
      have hsettled : ∀ {g}, g ≠ [] → (∀ x ∈ g, isBlank x = true) →
          d.marks.scan p g = some (p.1, p.2.settled) := fun hne hg =>
        Marks.scan_isNeutral (fun x hx => isNeutral_of_isBlank (hg x hx)) hne hp
      have hlater : d.marks.HasQuote p.2.settled := by
        obtain ⟨n, mode⟩ := p
        cases mode <;> exact hp
      rw [Marks.scan_append, Marks.scan_append, hsettled hne hg, hsettled hne' hg',
        Option.bind_some, Option.bind_some]
      exact ih hlater

theorem nested_iff_of_alike {a b : List Char} (h : Alike a b) :
    d.marks.Nested a ↔ d.marks.Nested b := by
  have hscan : d.marks.scan (0, .text) a = d.marks.scan (0, .text) b := scan_eq_of_alike h trivial
  rw [Marks.nested_iff_scan, Marks.nested_iff_scan, hscan]

end Delimiters

end Testwright.Text
