import Testwright.Proofs.Source.Callees
import Testwright.Proofs.Text.Finding

/-!
# Patterns of calls

A pattern of calls reads a called name and the parenthesis after it (`IsCallPattern`), so its
matches in a text are the calls of some kind (`IsCallPattern.exists_finds`). Main statements: the
assertions that are found in a text are its calls of a name that goes on after `assert`
(`length_assertionCalls`), and the methods that are found are its calls after a dot
(`firstCaptures_methodCall`).
-/

namespace Testwright.Source

open Text Pattern

variable {a b g r s cs u w : List Char} {x : Char} {k : Callee}

/-- A pattern of calls reads `lead`, a word of some kind as the called name, and the parenthesis
after it. -/
structure IsCallPattern (p : Pattern) (lead : List Char) (isName : List Char → Bool) : Prop where
  lead_cases : lead = [] ∨ lead = ['.']
  reads : ∀ {before : Option Char} {w g : List Char} (r : List Char), w ≠ [] →
    (∀ x ∈ w, isWord x = true) → isName w = true → (∀ x ∈ g, isBlank x = true) →
    (∀ x ∈ lead.getLast?.or before, isWord x = false) →
    ∃ c, p.Reads ⟨before, lead ++ (w ++ (g ++ '(' :: r)), 0, []⟩ c ∧
      Cursor.ReadsTo ⟨before, lead ++ (w ++ (g ++ '(' :: r)), 0, []⟩ c
        (lead ++ (w ++ (g ++ ['(']))) [w]
  each : ∀ (before : Option Char) (cs : List Char), p.Each ⟨before, cs, 0, []⟩ fun c =>
    ∃ w g, cs = lead ++ (w ++ (g ++ '(' :: c.rest)) ∧ w ≠ [] ∧ (∀ x ∈ w, isWord x = true) ∧
      isName w = true ∧ (∀ x ∈ g, isBlank x = true) ∧
      ∀ x ∈ lead.getLast?.or before, isWord x = false

/-- The calls that such a pattern is for. -/
def selects (lead : List Char) (isName : List Char → Bool) (k : Callee) : Bool :=
  isName k.name && (lead.isEmpty || k.dotted)

/-- Before the first parenthesis a text can be cut in one way only. -/
theorem eq_of_paren (ha : '(' ∉ a) (hb : '(' ∉ b) (h : a ++ '(' :: r = b ++ '(' :: s) :
    a = b ∧ r = s := by
  have htake : ∀ {a r : List Char}, '(' ∉ a → (a ++ '(' :: r).takeWhile (· != '(') = a := by
    intro a r ha
    have hall : ∀ x ∈ a, (x != '(') = true := by
      intro x hx
      rw [bne_iff_ne]
      rintro rfl
      exact ha hx
    rw [List.takeWhile_append_of_pos hall, takeWhile_of_head (fun x hx => by cases hx; rfl),
      List.append_nil]
  have heq : a = b := by rw [← htake (r := r) ha, h, htake hb]
  subst heq
  exact ⟨rfl, (List.cons.inj (List.append_cancel_left h)).2⟩

namespace IsCallPattern

variable {p : Pattern} {lead : List Char} {isName : List Char → Bool} {before : Option Char}
  (hp : IsCallPattern p lead isName)

include hp

/-- A match is one of the name that the text up to the next parenthesis ends in. -/
theorem each_endsInWord (ha : '(' ∉ u ++ a) (r : List Char) :
    p.Each ⟨u.getLast?.or before, a ++ '(' :: r, 0, []⟩ fun _ =>
      ∃ w g, EndsInWord (u ++ a) (u ++ lead) w g ∧ isName w = true := by
  refine (hp.each _ _).mono ?_
  rintro c ⟨w, g, hcs, hne, hw, hname, hg, hlast⟩
  have hlead : '(' ∉ lead ++ (w ++ g) := by
    simp only [List.mem_append, not_or]
    refine ⟨?_, fun hmem => absurd (hw _ hmem) (by decide),
      fun hmem => absurd (hg _ hmem) (by decide)⟩
    rcases hp.lead_cases with rfl | rfl <;> decide
  have hshape : a ++ '(' :: r = lead ++ (w ++ g) ++ '(' :: c.rest := by
    rw [hcs]
    simp
  obtain ⟨rfl, -⟩ := eq_of_paren (fun hmem => ha (List.mem_append_right u hmem)) hlead hshape
  refine ⟨w, g, ⟨(List.append_assoc _ _ _).symm, hne, hw, hg, fun x hx => hlast x ?_⟩, hname⟩
  rw [List.getLast?_append] at hx
  cases hlead : lead.getLast? with
  | some y =>
      rw [hlead] at hx
      exact hx
  | none =>
      rw [hlead, Option.none_or] at hx
      rw [Option.none_or, Option.mem_def.mp hx]
      rfl

/-- A match at a place is for a call that the pattern is for. -/
theorem selects_of_endsInWord (h : EndsInWord a (u ++ lead) w g) (hname : isName w = true) :
    ∃ k, calleeOf a.reverse = some k ∧ selects lead isName k = true := by
  refine ⟨_, h.calleeOf, ?_⟩
  rw [selects, hname]
  rcases hp.lead_cases with rfl | rfl
  · rfl
  · rw [List.getLast?_append]
    rfl

/-- No match is found up to a parenthesis that calls nothing, or nothing that the pattern is for. -/
theorem finds_append_of_not {l : List (List (List Char) × List Char)} (ha : '(' ∉ a)
    (hnot : ∀ k, calleeOf a.reverse = some k → selects lead isName k = false)
    (h : p.Finds (some '(') r l) : p.Finds before (a ++ '(' :: r) l := by
  have hcs : a ++ '(' :: r = (a ++ ['(']) ++ r := by simp
  rw [hcs]
  refine Finds.append ?_ (by rwa [List.getLast?_concat])
  intro pre x t hsplit
  -- the place lies before the parenthesis, or is the place of the parenthesis
  obtain ⟨a', rfl, htext⟩ : ∃ a', a = pre ++ a' ∧ x :: t = a' ++ ['('] := by
    have hlast := List.dropLast_concat_getLast (List.cons_ne_nil x t)
    rw [← hlast, ← List.append_assoc] at hsplit
    obtain ⟨rfl, heq⟩ := List.append_inj' hsplit rfl
    exact ⟨_, rfl, by rw [heq, hlast]⟩
  have hrest : x :: (t ++ r) = a' ++ '(' :: r := by
    rw [← List.cons_append, htext, List.append_assoc]
    rfl
  rw [hrest]
  refine ((hp.each_endsInWord ha r).mono ?_).fails
  rintro - ⟨w, g, hends, hname⟩
  obtain ⟨k, hk, hselects⟩ := hp.selects_of_endsInWord hends hname
  rw [hnot k hk] at hselects
  cases hselects

/-- What the pattern is for is called by a name of its kind, after what it reads before names. -/
theorem exists_endsInWord_of_selects (hk : calleeOf a.reverse = some k)
    (hselects : selects lead isName k = true) :
    isName k.name = true ∧ ∃ u g, EndsInWord a (u ++ lead) k.name g := by
  obtain ⟨u, g, hends, hdotted⟩ := exists_of_calleeOf hk
  rw [selects, Bool.and_eq_true] at hselects
  obtain ⟨hname, hlead⟩ := hselects
  refine ⟨hname, ?_⟩
  rcases hp.lead_cases with rfl | rfl
  · exact ⟨u, g, (List.append_nil u).symm ▸ hends⟩
  · have hdot : u.getLast? = some '.' := by
      rw [← beq_iff_eq, ← hdotted]
      exact hlead
    obtain ⟨u', rfl⟩ := List.getLast?_eq_some_iff.mp hdot
    exact ⟨u', g, hends⟩

/-- The name that a text ends in is read, with the parenthesis after it. -/
theorem exists_reads_of_endsInWord (hends : EndsInWord a (u ++ lead) w g)
    (hname : isName w = true) (hbefore : ∀ x ∈ before, isWord x = false) (r : List Char) :
    ∃ c, p.Reads ⟨u.getLast?.or before, lead ++ (w ++ (g ++ '(' :: r)), 0, []⟩ c ∧
      Cursor.ReadsTo ⟨u.getLast?.or before, lead ++ (w ++ (g ++ '(' :: r)), 0, []⟩ c
        (lead ++ (w ++ (g ++ ['(']))) [w] ∧ c.rest = r := by
  have hlast : ∀ x ∈ lead.getLast?.or (u.getLast?.or before), isWord x = false := by
    intro x hx
    rw [← Option.or_assoc, ← List.getLast?_append] at hx
    cases hu : (u ++ lead).getLast? with
    | some y =>
        rw [hu] at hx
        exact hends.last x (hu.trans hx)
    | none =>
        rw [hu] at hx
        exact hbefore x hx
  obtain ⟨c, hreads, hto⟩ := hp.reads r hends.ne_nil hends.word hname hends.blank hlast
  refine ⟨c, hreads, hto, ?_⟩
  have hcs := hto.1
  simp only [List.append_assoc, List.singleton_append] at hcs
  exact (List.cons.inj (List.append_cancel_left (List.append_cancel_left
    (List.append_cancel_left hcs)))).2.symm

/-- Nothing is read from an earlier place: there is one only from which a text ends in a name. -/
theorem fails_of_endsInWord {pre t : List Char} (ha : '(' ∉ a)
    (hends : EndsInWord a (pre ++ x :: t ++ lead) w g) (r : List Char) :
    p.Fails ⟨pre.getLast?.or before, x :: (t ++ (lead ++ (w ++ (g ++ '(' :: r)))), 0, []⟩ := by
  have hsplit : x :: (t ++ (lead ++ (w ++ (g ++ '(' :: r)))) =
      (x :: t ++ (lead ++ (w ++ g))) ++ '(' :: r := by simp
  have hwhole : pre ++ (x :: t ++ (lead ++ (w ++ g))) = a := by
    rw [hends.eq]
    simp
  rw [hsplit]
  refine ((hp.each_endsInWord (hwhole ▸ ha) r).mono ?_).fails
  rintro - ⟨w', g', hends', -⟩
  rw [hwhole] at hends'
  have hpre := List.append_cancel_right (hends'.unique hends).1
  simp at hpre

/-- A match is found before a parenthesis that calls what the pattern is for. -/
theorem finds_append_of_selects {l : List (List (List Char) × List Char)} (ha : '(' ∉ a)
    (hk : calleeOf a.reverse = some k) (hselects : selects lead isName k = true)
    (hbefore : ∀ x ∈ before, isWord x = false) (h : p.Finds (some '(') r l) :
    p.Finds before (a ++ '(' :: r) (([k.name], r) :: l) := by
  obtain ⟨hname, u, g, hends⟩ := hp.exists_endsInWord_of_selects hk hselects
  obtain ⟨c, hreads, hto, hrest⟩ := hp.exists_reads_of_endsInWord hends hname hbefore r
  have hfound : p.Finds (u.getLast?.or before) (lead ++ (k.name ++ (g ++ '(' :: r)))
      (([k.name], r) :: l) := by
    have hall := Finds.found hreads hto (by simp) (l := l) (by
      rw [hrest, ← List.append_assoc, ← List.append_assoc, List.getLast?_concat]
      exact h)
    rwa [hrest] at hall
  have htext : a ++ '(' :: r = u ++ (lead ++ (k.name ++ (g ++ '(' :: r))) := by
    rw [hends.eq]
    simp
  rw [htext]
  refine Finds.append ?_ hfound
  rintro pre x t rfl
  exact hp.fails_of_endsInWord ha hends r

/-- Nothing is found where there is no parenthesis. -/
theorem finds_of_notMem (hcs : '(' ∉ cs) : p.Finds before cs [] := by
  have hfails : ∀ {before : Option Char} {a : List Char}, '(' ∉ a → p.Fails ⟨before, a, 0, []⟩ := by
    intro before a ha
    refine ((hp.each before a).mono ?_).fails
    rintro c ⟨w, g, rfl, -⟩
    exact ha (by simp)
  rw [← List.append_nil cs]
  refine Finds.append (fun pre x t hsplit => hfails ?_) (.done (hfails List.not_mem_nil))
  rw [List.append_nil]
  exact fun hmem => hcs (hsplit ▸ List.mem_append_right pre hmem)

/-- The matches of such a pattern are the calls that it is for. -/
theorem exists_finds (hbefore : ∀ x ∈ before, isWord x = false) (cs : List Char) :
    ∃ l, p.Finds before cs l ∧
      l.map (·.1) = ((callees cs).filter (selects lead isName)).map fun k => [k.name] := by
  have hall : ∀ (cs seen : List Char) (before : Option Char), (∀ x ∈ before, isWord x = false) →
      '(' ∉ seen → ∃ l, p.Finds before (seen.reverse ++ cs) l ∧
        l.map (·.1) = ((calleesFrom seen cs).filter (selects lead isName)).map
          fun k => [k.name] := by
    intro cs
    induction cs with
    | nil =>
        intro seen before _ hseen
        refine ⟨[], hp.finds_of_notMem ?_, rfl⟩
        rw [List.append_nil]
        exact fun hmem => hseen (List.mem_reverse.mp hmem)
    | cons c r ih =>
        intro seen before hbefore hseen
        by_cases hc : c = '('
        · obtain ⟨l, hfinds, hl⟩ := ih [] (some '(') (fun x hx => by cases hx; decide)
            List.not_mem_nil
          have hparen : '(' ∉ seen.reverse := fun hmem => hseen (List.mem_reverse.mp hmem)
          rw [hc, calleesFrom_paren, List.filter_append, List.map_append, callees, ← hl]
          by_cases hselects : ∃ k, calleeOf seen = some k ∧ selects lead isName k = true
          · obtain ⟨k, hk, hselects⟩ := hselects
            refine ⟨_, hp.finds_append_of_selects hparen (by rwa [List.reverse_reverse]) hselects
              hbefore hfinds, ?_⟩
            simp [hk, hselects]
          · have hnot : ∀ k, calleeOf seen = some k → selects lead isName k = false :=
              fun k hk => Bool.eq_false_iff.mpr fun h => hselects ⟨k, hk, h⟩
            refine ⟨l, hp.finds_append_of_not hparen (by rwa [List.reverse_reverse]) hfinds, ?_⟩
            cases hk : calleeOf seen with
            | none => rfl
            | some k =>
                simp [hnot k hk]
        · have hlater := ih (c :: seen) before hbefore
            (fun hmem => (List.mem_cons.mp hmem).elim (fun heq => hc heq.symm) hseen)
          rwa [calleesFrom_cons hc, List.reverse_cons, List.append_assoc] at *
  exact hall cs [] before hbefore List.not_mem_nil

end IsCallPattern

/-! ## Calls of methods -/

/-- After a name, white space and the parenthesis are read. -/
theorem exists_reads_call {p : Pattern} {c c₁ : Cursor} {k : List (List Char)}
    (hp : p.Only c c₁) (hto : c.ReadsTo c₁ s k) (hrest : c₁.rest = g ++ '(' :: r)
    (hg : ∀ x ∈ g, isBlank x = true) :
    ∃ c', (p ++ .blank ++ .char '(' : Pattern).Reads c c' ∧ c.ReadsTo c' (s ++ (g ++ ['('])) k := by
  have hblank : Pattern.blank.Only c₁ (c₁.past g ('(' :: r)) :=
    only_all hrest hg (head?_cons (by decide))
  have hparen : (Pattern.char '(').Only (c₁.past g ('(' :: r))
      ((c₁.past g ('(' :: r)).past ['('] r) := only_one (x := '(') rfl rfl
  refine ⟨_, ((hp.seq hblank).seq hparen).reads, ?_⟩
  exact hto.trans ((Cursor.readsTo_past hrest).trans (Cursor.readsTo_past rfl))

theorem each_call {p : Pattern} {c : Cursor} :
    (p ++ .blank ++ .char '(' : Pattern).Each c fun c' =>
      ∃ s k g, p.Spells s k ∧ (∀ x ∈ g, isBlank x = true) ∧
        c.rest = s ++ (g ++ '(' :: c'.rest) := by
  refine (each_spells _ c).mono ?_
  rintro c' ⟨_, _, ⟨_, _, _, _, rfl, -, ⟨s, g, k, _, rfl, -, hp, hg, -⟩, hparen⟩, hrest, -⟩
  obtain ⟨rfl, -⟩ := spells_char.mp hparen
  refine ⟨s, k, g, hp, hg, ?_⟩
  rw [hrest]
  simp

theorem head?_append_paren (hg : ∀ x ∈ g, isBlank x = true) :
    ∀ x ∈ (g ++ '(' :: r).head?, isWord x = false := by
  intro x hx
  cases g with
  | nil =>
      cases hx
      decide
  | cons y g =>
      cases hx
      exact isWord_of_isBlank (hg _ List.mem_cons_self)

theorem isCallPattern_methodCall : IsCallPattern methodCall ['.'] fun _ => true where
  lead_cases := .inr rfl
  reads := by
    intro before w g r hne hw _ hg _
    obtain ⟨x, s, rfl⟩ := List.exists_cons_of_ne_nil hne
    let c : Cursor := ⟨before, '.' :: (x :: s ++ (g ++ '(' :: r)), 0, []⟩
    let c₁ := c.past ['.'] (x :: s ++ (g ++ '(' :: r))
    let c₂ := c₁.past (x :: s) (g ++ '(' :: r)
    have hdot : (Pattern.char '.').Only c c₁ := only_one (x := '.') rfl rfl
    have hname : (Pattern.capture name).Only c₁ (c₁.capture c₂) :=
      (only_whole rfl hw (head?_append_paren hg)).capture
    have hto : c.ReadsTo (c₁.capture c₂) (['.'] ++ x :: s) [x :: s] :=
      (Cursor.readsTo_past rfl).trans (Cursor.readsTo_past rfl).capture
    have hall := exists_reads_call (hdot.seq hname) hto rfl hg
    rwa [List.append_assoc] at hall
  each := by
    intro before cs
    refine each_call.mono ?_
    rintro c ⟨_, _, g, ⟨_, w, _, _, rfl, -, hdot, hname⟩, hg, hcs⟩
    obtain ⟨rfl, -⟩ := spells_char.mp hdot
    obtain ⟨⟨hne, hw⟩, -⟩ := (spells_capture fun _ _ => spells_whole).mp hname
    rw [List.append_assoc] at hcs
    exact ⟨w, g, hcs, hne, hw, rfl, hg, fun x hx => by cases hx; decide⟩

/-! ## Calls of assertions -/

/-- Whether a text begins with some letters, each in either case. -/
def beginsInAnyCase : List Char → List Char → Bool
  | [], _ => true
  | _ :: _, [] => false
  | l :: ls, x :: w => sameLetter l x && beginsInAnyCase ls w

/-- What the names of assertions begin with. -/
def assertLetters : List Char := "assert".toList

/-- Whether a name is that of an assertion. The letters alone are none. -/
def isAssertionName (w : List Char) : Bool :=
  beginsInAnyCase assertLetters w && decide (assertLetters.length < w.length)

variable {ls : List Char}

theorem beginsInAnyCase_append (h : s.length = ls.length) (t : List Char) :
    beginsInAnyCase ls (s ++ t) = beginsInAnyCase ls s := by
  induction ls generalizing s with
  | nil => rw [beginsInAnyCase, beginsInAnyCase]
  | cons l ls ih =>
      cases s with
      | nil => cases h
      | cons x s =>
          rw [List.cons_append, beginsInAnyCase, beginsInAnyCase, ih (Nat.succ.inj h)]

theorem exists_of_beginsInAnyCase (h : beginsInAnyCase ls w = true) :
    ∃ s t, w = s ++ t ∧ s.length = ls.length ∧ beginsInAnyCase ls s = true := by
  induction ls generalizing w with
  | nil => exact ⟨[], w, rfl, rfl, h⟩
  | cons l ls ih =>
      cases w with
      | nil => cases h
      | cons x w =>
          rw [beginsInAnyCase, Bool.and_eq_true] at h
          obtain ⟨hx, hw⟩ := h
          obtain ⟨s, t, rfl, hlength, hs⟩ := ih hw
          refine ⟨x :: s, t, rfl, congrArg Nat.succ hlength, ?_⟩
          rw [beginsInAnyCase, hx, hs]
          rfl

theorem only_anyCase {c : Cursor} (hlength : s.length = ls.length)
    (hs : beginsInAnyCase ls s = true) (hc : c.rest = s ++ r) :
    (anyCase ls).Only c (c.past s r) := by
  induction ls generalizing s c with
  | nil =>
      rw [List.length_eq_zero_iff.mp hlength, List.nil_append] at hc
      rw [List.length_eq_zero_iff.mp hlength, Cursor.past_nil hc]
      rfl
  | cons l ls ih =>
      cases s with
      | nil => cases hlength
      | cons x s =>
          rw [beginsInAnyCase, Bool.and_eq_true] at hs
          have hx : (Pattern.one (sameLetter l)).Only c (c.past [x] (s ++ r)) := only_one hc hs.1
          have hall := hx.seq (ih (c := c.past [x] (s ++ r)) (Nat.succ.inj hlength) hs.2 rfl)
          rwa [Cursor.past_past] at hall

theorem spells_anyCase {k : List (List Char)} :
    (anyCase ls).Spells s k ↔ (s.length = ls.length ∧ beginsInAnyCase ls s = true) ∧ k = [] := by
  induction ls generalizing s k with
  | nil =>
      show s = [] ∧ k = [] ↔ _
      rw [List.length_nil, List.length_eq_zero_iff, beginsInAnyCase]
      simp
  | cons l ls ih =>
      show (Pattern.one (sameLetter l) ++ anyCase ls).Spells s k ↔ _
      simp only [spells_seq, ih, Spells]
      constructor
      · rintro ⟨_, s, _, _, rfl, rfl, ⟨⟨x, hx, rfl⟩, rfl⟩, ⟨hlength, hs⟩, rfl⟩
        refine ⟨⟨congrArg Nat.succ hlength, ?_⟩, rfl⟩
        rw [List.singleton_append, beginsInAnyCase, hx, hs]
        rfl
      · rintro ⟨⟨hlength, hs⟩, rfl⟩
        cases s with
        | nil => cases hlength
        | cons x s =>
            rw [beginsInAnyCase, Bool.and_eq_true] at hs
            exact ⟨[x], s, [], [], rfl, rfl, ⟨⟨x, hs.1, rfl⟩, rfl⟩,
              ⟨Nat.succ.inj hlength, hs.2⟩, rfl⟩

theorem isWord_of_sameLetter {l : Char} (hl : l ∈ assertLetters) (h : sameLetter l x = true) :
    isWord x = true := by
  have hletters : ∀ l ∈ assertLetters, isWord l = true := by decide
  simp only [sameLetter, Bool.or_eq_true, Bool.and_eq_true, beq_iff_eq] at h
  rcases h with (rfl | hlower) | ⟨-, hlong⟩
  · exact hletters _ hl
  · by_cases hupper : x.isUpper = true
    · have halpha : x.isAlpha = true := Bool.or_eq_true_iff.mpr (.inl hupper)
      have hascii : x.toNat < 128 := toNat_lt_of_isAlpha halpha
      exact forall_ascii (P := fun x => x.toLower ∈ assertLetters → isWord x = true) (by decide)
        hascii (hlower ▸ hl)
    · have hsame : x.toLower = x := dif_neg fun h => hupper (decide_eq_true h)
      exact hletters _ (hsame ▸ hlower ▸ hl)
  · have hx : x = Char.ofNat 0x17F := by rw [← hlong, Char.ofNat_toNat]
    rw [hx]
    decide

theorem isWord_of_beginsInAnyCase (hls : ls ⊆ assertLetters) (hlength : s.length = ls.length)
    (hs : beginsInAnyCase ls s = true) : ∀ x ∈ s, isWord x = true := by
  induction ls generalizing s with
  | nil =>
      rw [List.length_eq_zero_iff.mp hlength]
      exact fun _ hx => absurd hx List.not_mem_nil
  | cons l ls ih =>
      cases s with
      | nil => cases hlength
      | cons x s =>
          rw [beginsInAnyCase, Bool.and_eq_true] at hs
          obtain ⟨hl, hls⟩ := List.cons_subset.mp hls
          exact List.forall_mem_cons.mpr
            ⟨isWord_of_sameLetter hl hs.1, ih hls (Nat.succ.inj hlength) hs.2⟩

/-- The name of an assertion goes on after the letters. -/
theorem isAssertionName_iff : isAssertionName w = true ↔
    ∃ s t, w = s ++ t ∧ s.length = assertLetters.length ∧
      beginsInAnyCase assertLetters s = true ∧ t ≠ [] := by
  rw [isAssertionName, Bool.and_eq_true, decide_eq_true_iff]
  constructor
  · rintro ⟨hbegins, hlong⟩
    obtain ⟨s, t, rfl, hlength, hs⟩ := exists_of_beginsInAnyCase hbegins
    refine ⟨s, t, rfl, hlength, hs, ?_⟩
    rintro rfl
    rw [List.append_nil, hlength] at hlong
    exact absurd hlong (Nat.lt_irrefl _)
  · rintro ⟨s, t, rfl, hlength, hs, hne⟩
    have hpos := List.length_pos_iff.mpr hne
    rw [beginsInAnyCase_append hlength, List.length_append]
    exact ⟨hs, by omega⟩

/-- A word begins at a place where no word character stands before it. -/
theorem atEdge_iff_of_word {c : Cursor} (hne : w ≠ []) (hw : ∀ x ∈ w, isWord x = true)
    (hc : c.rest = w ++ r) : c.atEdge = true ↔ ∀ x ∈ c.before, isWord x = false := by
  obtain ⟨x, s, rfl⟩ := List.exists_cons_of_ne_nil hne
  exact Cursor.atEdge_iff hc (hw x List.mem_cons_self)

theorem isCallPattern_assertionCall : IsCallPattern assertionCall [] isAssertionName where
  lead_cases := .inl rfl
  reads := by
    intro before w g r hne' hw hname hg hbefore
    obtain ⟨s, t, rfl, hlength, hs, hne⟩ := isAssertionName_iff.mp hname
    obtain ⟨y, t, rfl⟩ := List.exists_cons_of_ne_nil hne
    let c : Cursor := ⟨before, s ++ y :: t ++ (g ++ '(' :: r), 0, []⟩
    let c₁ := c.past s (y :: t ++ (g ++ '(' :: r))
    let c₂ := c₁.past (y :: t) (g ++ '(' :: r)
    have hedge : Pattern.edge.Only c c := only_edge ((atEdge_iff_of_word hne' hw rfl).mpr hbefore)
    have hletters : (anyCase assertLetters).Only c c₁ :=
      only_anyCase hlength hs (List.append_assoc _ _ _)
    have hrest : Pattern.Only name c₁ c₂ :=
      only_whole rfl (fun x hx => hw x (List.mem_append_right s hx)) (head?_append_paren hg)
    have hto : c.ReadsTo (c.capture c₂) (s ++ y :: t) [s ++ y :: t] :=
      ((Cursor.readsTo_past (List.append_assoc _ _ _)).trans (Cursor.readsTo_past rfl)).capture
    exact exists_reads_call (hedge.seq (hletters.seq hrest).capture) hto rfl hg
  each := by
    intro before cs
    cases hedge : Cursor.atEdge ⟨before, cs, 0, []⟩ with
    | false => exact ((((fails_edge hedge).seq _).seq _).seq _).each
    | true =>
        refine each_call.mono ?_
        rintro c ⟨_, _, g, ⟨_, w, _, _, rfl, -, ⟨rfl, -⟩, _, hname, -⟩, hg, hcs⟩
        obtain ⟨s, t, _, _, rfl, -, hletters, hrest⟩ := hname
        obtain ⟨⟨hlength, hs⟩, -⟩ := spells_anyCase.mp hletters
        obtain ⟨⟨hne, ht⟩, -⟩ := spells_whole.mp hrest
        have hw : ∀ x ∈ s ++ t, isWord x = true := List.forall_mem_append.mpr
          ⟨isWord_of_beginsInAnyCase (List.Subset.refl _) hlength hs, ht⟩
        have hnil : s ++ t ≠ [] := fun h => hne (List.append_eq_nil_iff.mp h).2
        exact ⟨s ++ t, g, hcs, hnil, hw, isAssertionName_iff.mpr ⟨s, t, rfl, hlength, hs, hne⟩, hg,
          (atEdge_iff_of_word hnil hw hcs).mp hedge⟩

/-! ## What is found in a text -/

variable {p : Pattern} {lead : List Char} {isName : List Char → Bool}

theorem IsCallPattern.captures_findAll (hp : IsCallPattern p lead isName) (cs : List Char) :
    (p.findAll cs).map (·.captures) =
      ((callees cs).filter (selects lead isName)).map fun k => [k.name] := by
  have hnone : ∀ x ∈ (none : Option Char), isWord x = false := fun x hx => nomatch hx
  obtain ⟨l, hfinds, hl⟩ := hp.exists_finds hnone cs
  rw [← hl, ← hfinds.findAll, List.map_map]
  rfl

/-- The assertions that a text calls. -/
def calledAssertions (cs : List Char) : List Callee :=
  (callees cs).filter fun k => isAssertionName k.name

theorem calledAssertions_append_stop (hx : isStop x = true) (a b : List Char) :
    calledAssertions (a ++ x :: b) = calledAssertions a ++ calledAssertions b := by
  rw [calledAssertions, callees_append_stop hx, List.filter_append]
  rfl

theorem calledAssertions_cons_stop (hx : isStop x = true) (b : List Char) :
    calledAssertions (x :: b) = calledAssertions b := calledAssertions_append_stop hx [] b

theorem calledAssertions_append_blank (hg : ∀ x ∈ g, isBlank x = true) (cs : List Char) :
    calledAssertions (g ++ cs) = calledAssertions cs := by
  rw [calledAssertions, callees_append_blank hg]
  rfl

theorem calledAssertions_of_notMem (hcs : '(' ∉ cs) : calledAssertions cs = [] := by
  rw [calledAssertions, callees_of_notMem hcs]
  rfl

/-- **The assertions of a text.** As many are found as the text has calls of a name that goes on
after `assert`, in whichever case. -/
theorem length_assertionCalls (cs : List Char) :
    (assertionCall.findAll cs).length = (calledAssertions cs).length := by
  have hlength := congrArg List.length (isCallPattern_assertionCall.captures_findAll cs)
  rw [List.length_map, List.length_map] at hlength
  have hselects : selects [] isAssertionName = fun k => isAssertionName k.name :=
    funext fun k => Bool.and_true _
  rw [hlength, hselects]
  rfl

/-- **The methods that a text calls.** Those called after a dot are found, in this order. -/
theorem firstCaptures_methodCall (cs : List Char) :
    firstCaptures methodCall cs =
      ((callees cs).filter (·.dotted)).map fun k => String.ofList k.name := by
  have hfirst : firstCaptures methodCall cs = ((methodCall.findAll cs).map (·.captures)).filterMap
      fun captures => captures.head?.map String.ofList := by
    rw [List.filterMap_map]
    rfl
  have hselects : selects ['.'] (fun _ => true) = (·.dotted) := funext fun k => Bool.true_and _
  rw [hfirst, isCallPattern_methodCall.captures_findAll, List.filterMap_map, hselects]
  simp [Function.comp_def]

end Testwright.Source
