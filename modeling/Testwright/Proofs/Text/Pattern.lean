import Testwright.Text.Search

/-!
# Reading with patterns

Where the best match of a pattern ends (`Pattern.Reads`) and where a pattern has no match
(`Pattern.Fails`), with a rule for each way to build a pattern. A search passes over the places
where its pattern fails, and finds the best match at the first place where there is one.
-/

namespace Testwright.Text

theorem forall_mem_of_any_eq_false {p : Char → Bool} {s : List Char} (h : s.any p = false) :
    ∀ x ∈ s, p x = false :=
  fun x hx => Bool.eq_false_iff.mpr (List.any_eq_false.mp h x hx)

/-- What a class of characters passes over at the beginning of a text, and what follows. -/
theorem exists_split (p : Char → Bool) (cs : List Char) :
    ∃ s r, cs = s ++ r ∧ (∀ x ∈ s, p x = true) ∧ ∀ x ∈ r.head?, p x = false := by
  refine ⟨cs.takeWhile p, cs.dropWhile p, List.takeWhile_append_dropWhile.symm,
    List.all_eq_true.mp List.all_takeWhile, fun x hx => ?_⟩
  have hdrop := List.head?_dropWhile_not p cs
  rw [Option.mem_def.mp hx] at hdrop
  exact hdrop

/-- What a class of characters makes up at the end of a text, and what stands before it. -/
theorem exists_split_last (p : Char → Bool) (cs : List Char) :
    ∃ s r, cs = s ++ r ∧ (∀ x ∈ r, p x = true) ∧ ∀ x ∈ s.getLast?, p x = false := by
  obtain ⟨r, s, hcs, hr, hs⟩ := exists_split p cs.reverse
  refine ⟨s.reverse, r.reverse, ?_, fun x hx => hr x (List.mem_reverse.mp hx), fun x hx => ?_⟩
  · rw [← List.reverse_append, ← hcs, List.reverse_reverse]
  · rw [List.getLast?_reverse] at hx
    exact hs x hx

namespace Cursor

/-- The place after the text `s`, which `r` follows. -/
def past (c : Cursor) (s r : List Char) : Cursor :=
  ⟨s.getLast?.or c.before, r, c.read + s.length, c.spans⟩

variable {c : Cursor} {s r s' r' : List Char}

theorem past_nil (hc : c.rest = r) : c.past [] r = c := by
  rw [← hc]
  rfl

theorem past_past : (c.past s r).past s' r' = c.past (s ++ s') r' := by
  simp [past, List.getLast?_append, Option.or_assoc, Nat.add_assoc]

theorem step_eq_past (x : Char) : c.step x r = c.past [x] r := rfl

/-- At the first character of a word, there is an edge if no word character stands before it. -/
theorem atEdge_iff {x : Char} (hc : c.rest = x :: r) (hx : isWord x = true) :
    c.atEdge = true ↔ ∀ y ∈ c.before, isWord y = false := by
  rw [Cursor.atEdge, hc, List.head?_cons, Option.any_some, hx]
  cases c.before with
  | none => simp
  | some y => cases hy : isWord y <;> simp [hy]

theorem passFrom_append {p : Char → Bool} (hs : ∀ x ∈ s, p x = true)
    (hr : ∀ x ∈ r.head?, p x = false) (c : Cursor) (hc : c.rest = s ++ r) :
    passFrom p (s ++ r) c = c.past s r := by
  induction s generalizing c with
  | nil =>
      rw [List.nil_append, past_nil (r := r) hc]
      cases r with
      | nil => rfl
      | cons x r => rw [passFrom, hr x rfl, if_neg Bool.false_ne_true]
  | cons x s ih =>
      rw [List.cons_append, passFrom, hs x List.mem_cons_self, if_pos rfl,
        ih (fun y hy => hs y (List.mem_cons_of_mem x hy)) _ rfl, step_eq_past, past_past]
      rfl

/-- Places from which the task fails are passed over. -/
theorem nearest_append {α : Type} {p : Char → Bool} {task : Cursor → Option α}
    (hs : ∀ x ∈ s, p x = true) (hc : c.rest = s ++ r)
    (hfails : ∀ t x t', s = t ++ x :: t' → task (c.past t (x :: (t' ++ r))) = none) :
    nearest p task (s ++ r) c = nearest p task r (c.past s r) := by
  induction s generalizing c with
  | nil =>
      rw [List.nil_append, past_nil (r := r) hc]
  | cons x s ih =>
      have hhere : task c = none := by
        rw [← past_nil (c := c) hc]
        exact hfails [] x s rfl
      rw [List.cons_append, nearest, hhere, hs x List.mem_cons_self]
      dsimp only
      rw [if_pos rfl, step_eq_past, ih (fun y hy => hs y (List.mem_cons_of_mem x hy)) rfl,
        past_past]
      · rfl
      · rintro t y t' rfl
        rw [past_past]
        exact hfails (x :: t) y t' rfl

theorem nearest_of_some {α : Type} {p : Char → Bool} {task : Cursor → Option α} {a : α}
    (h : task c = some a) : nearest p task r c = some a := by
  cases r with
  | nil => exact h
  | cons x r => rw [nearest, h]

/-- The furthest place after characters of a class is the one after all of them. -/
theorem head?_stopsFrom (p : Char → Bool) (cs : List Char) (c : Cursor) (nearer : List Cursor) :
    (stopsFrom p cs c nearer).head? = some (passFrom p cs c) := by
  induction cs generalizing c nearer with
  | nil => rfl
  | cons x r ih =>
      rw [stopsFrom, passFrom]
      split
      · exact ih _ _
      · rfl

end Cursor

namespace Pattern

variable {p q : Pattern} {c c₁ c₂ : Cursor} {s r : List Char}

/-- The only match of the pattern from `c` ends at `c'`. -/
def Only (p : Pattern) (c c' : Cursor) : Prop := p.ends c = [c']

/-- The best match of the pattern from `c` ends at `c'`. -/
def Reads (p : Pattern) (c c' : Cursor) : Prop := (p.ends c).head? = some c'

/-- The pattern has no match from `c`. -/
def Fails (p : Pattern) (c : Cursor) : Prop := p.ends c = []

theorem Only.reads (h : p.Only c c₁) : p.Reads c c₁ := congrArg List.head? h

/-- There is only one best match. -/
theorem Reads.unique (h : p.Reads c c₁) (h' : p.Reads c c₂) : c₁ = c₂ :=
  Option.some.inj (h.symm.trans h')

theorem Reads.not_fails (h : p.Reads c c₁) : ¬ p.Fails c := by
  intro hfails
  rw [Reads, hfails] at h
  cases h

theorem reads_iff_run? : p.Reads c c₁ ↔ p.run? c some = some c₁ := by
  rw [Reads, run_eq_findSome?]
  cases p.ends c <;> rfl

theorem Only.run? {α : Type} (h : p.Only c c₁) (task : Cursor → Option α) :
    p.run? c task = task c₁ := by
  rw [run_eq_findSome?, h]
  exact List.findSome?_singleton

theorem Fails.run? {α : Type} (h : p.Fails c) (task : Cursor → Option α) :
    p.run? c task = none := by
  rw [run_eq_findSome?, h]
  rfl

/-! ## Single characters and classes -/

theorem ends_one_of_nil {f : Char → Bool} (hc : c.rest = []) : (one f).ends c = [] := by
  rw [ends, hc]

theorem ends_one_of_cons {f : Char → Bool} {x : Char} (hc : c.rest = x :: r) :
    (one f).ends c = if f x then [c.past [x] r] else [] := by
  rw [ends, hc]
  rfl

theorem only_one {f : Char → Bool} {x : Char} (hc : c.rest = x :: r) (hx : f x = true) :
    (one f).Only c (c.past [x] r) := by
  rw [Only, ends_one_of_cons hc]
  exact if_pos hx

theorem fails_one {f : Char → Bool} (h : ∀ x ∈ c.rest.head?, f x = false) : (one f).Fails c := by
  cases hc : c.rest with
  | nil => exact ends_one_of_nil hc
  | cons x r =>
      rw [hc] at h
      rw [Fails, ends_one_of_cons hc]
      exact if_neg (by rw [h x rfl]; exact Bool.false_ne_true)

theorem only_all {f : Char → Bool} (hc : c.rest = s ++ r) (hs : ∀ x ∈ s, f x = true)
    (hr : ∀ x ∈ r.head?, f x = false) : (all f).Only c (c.past s r) := by
  show [Cursor.passFrom f c.rest c] = _
  rw [← Cursor.passFrom_append hs hr c hc, hc]

/-- Nothing is read where no character of the class follows. -/
theorem only_all_nil {f : Char → Bool} (h : ∀ x ∈ c.rest.head?, f x = false) :
    (all f).Only c c :=
  only_all (List.nil_append _).symm (fun _ hx => absurd hx List.not_mem_nil) h

theorem reads_run {f : Char → Bool} (hc : c.rest = s ++ r) (hs : ∀ x ∈ s, f x = true)
    (hr : ∀ x ∈ r.head?, f x = false) : (run f).Reads c (c.past s r) := by
  show (Cursor.stopsFrom f c.rest c []).head? = _
  rw [Cursor.head?_stopsFrom, ← Cursor.passFrom_append hs hr c hc, hc]

theorem only_atEnd (h : c.rest = []) : atEnd.Only c c := if_pos (List.isEmpty_iff.mpr h)

theorem only_edge (h : c.atEdge = true) : edge.Only c c := if_pos h

theorem fails_edge (h : c.atEdge = false) : edge.Fails c :=
  if_neg (by rw [h]; exact Bool.false_ne_true)

/-! ## One pattern after another -/

theorem Only.seq (hp : p.Only c c₁) (hq : q.Only c₁ c₂) : (p ++ q).Only c c₂ := by
  show (p.ends c).flatMap q.ends = [c₂]
  rw [hp, List.flatMap_singleton]
  exact hq

theorem Reads.seq (hp : p.Reads c c₁) (hq : q.Reads c₁ c₂) : (p ++ q).Reads c c₂ := by
  obtain ⟨later, hends⟩ := List.head?_eq_some_iff.mp hp
  show ((p.ends c).flatMap q.ends).head? = some c₂
  rw [hends, List.flatMap_cons, List.head?_append, hq]
  rfl

theorem Fails.seq (h : p.Fails c) (q : Pattern) : (p ++ q).Fails c := by
  show (p.ends c).flatMap q.ends = []
  rw [h]
  rfl

theorem Only.seq_fails (hp : p.Only c c₁) (hq : q.Fails c₁) : (p ++ q).Fails c := by
  show (p.ends c).flatMap q.ends = []
  rw [hp, List.flatMap_singleton]
  exact hq

/-! ## Choices -/

theorem Reads.either_left (h : p.Reads c c₁) (q : Pattern) : (either p q).Reads c c₁ := by
  show (p.ends c ++ q.ends c).head? = some c₁
  rw [List.head?_append, h]
  rfl

theorem Fails.either_reads (hp : p.Fails c) (hq : q.Reads c c₁) : (either p q).Reads c c₁ := by
  show (p.ends c ++ q.ends c).head? = some c₁
  rw [hp]
  exact hq

theorem Fails.either (hp : p.Fails c) (hq : q.Fails c) : (either p q).Fails c := by
  show p.ends c ++ q.ends c = []
  rw [hp, hq]
  rfl

theorem Reads.optional (h : p.Reads c c₁) : (optional p).Reads c c₁ := h.either_left empty

theorem Fails.optional (h : p.Fails c) : (optional p).Only c c := by
  show p.ends c ++ [c] = [c]
  rw [h]
  rfl

/-! ## Repetitions and captures -/

theorem Fails.many (h : p.Fails c) : (many p).Reads c c := by
  show (repeatEnds p.ends c.rest c).head? = some c
  cases c.rest with
  | nil => rfl
  | cons x more =>
      rw [repeatEnds, h]
      rfl

/-- A single repetition, after which there is no other. -/
theorem Reads.many (h : p.Reads c c₁) (hc : c.rest ≠ []) (hlast : p.Fails c₁) :
    (many p).Reads c c₁ := by
  obtain ⟨later, hends⟩ := List.head?_eq_some_iff.mp h
  show (repeatEnds p.ends c.rest c).head? = some c₁
  cases hrest : c.rest with
  | nil => exact absurd hrest hc
  | cons x more =>
      have hstop : (repeatEnds p.ends more c₁).head? = some c₁ := by
        cases more with
        | nil => rfl
        | cons y more =>
            rw [repeatEnds, hlast]
            rfl
      rw [repeatEnds, hends, List.flatMap_cons, List.append_assoc, List.head?_append, hstop]
      rfl

theorem Only.capture (h : p.Only c c₁) : (capture p).Only c (c.capture c₁) := by
  show (p.ends c).map c.capture = _
  rw [h]
  rfl

theorem Reads.capture (h : p.Reads c c₁) : (capture p).Reads c (c.capture c₁) := by
  show ((p.ends c).map c.capture).head? = _
  rw [List.head?_map, h]
  rfl

theorem Fails.capture (h : p.Fails c) : (capture p).Fails c := by
  show (p.ends c).map c.capture = []
  rw [h]
  rfl

/-- What a capture keeps is the text that was read. -/
theorem text_capture (hc : c.rest = s ++ r) :
    (c.capture (c.past s r)).spans.map Span.text = s :: c.spans.map Span.text := by
  show (c.rest.take (c.read + s.length - c.read)) :: _ = _
  rw [hc, Nat.add_sub_cancel_left, List.take_left]
  rfl

/-! ## Words -/

theorem only_ofList (hc : c.rest = s ++ r) : (ofList s).Only c (c.past s r) := by
  induction s generalizing c with
  | nil =>
      rw [List.nil_append] at hc
      rw [← hc]
      rfl
  | cons x s ih =>
      have hx : (char x).Only c (c.past [x] (s ++ r)) := only_one hc (beq_self_eq_true x)
      cases s with
      | nil => exact hx
      | cons y s =>
          have hall := hx.seq (ih (c := c.past [x] (y :: s ++ r)) rfl)
          rwa [Cursor.past_past] at hall

theorem only_word {w : String} (hc : c.rest = w.toList ++ r) :
    (word w).Only c (c.past w.toList r) := only_ofList hc

/-- A word is not found where another character stands than its first. -/
theorem fails_ofList {x : Char} (h : ∀ y ∈ c.rest.head?, y ≠ x) (s : List Char) :
    (ofList (x :: s)).Fails c := by
  have hx : (char x).Fails c := fails_one fun y hy => beq_eq_false_iff_ne.mpr (h y hy)
  cases s with
  | nil => exact hx
  | cons y s => exact hx.seq _

theorem only_whole {f : Char → Bool} {x : Char} (hc : c.rest = x :: s ++ r)
    (hs : ∀ y ∈ x :: s, f y = true) (hr : ∀ y ∈ r.head?, f y = false) :
    (whole f).Only c (c.past (x :: s) r) := by
  have hx : (one f).Only c (c.past [x] (s ++ r)) := only_one hc (hs x List.mem_cons_self)
  have hall := hx.seq (only_all (c := c.past [x] (s ++ r)) rfl
    (fun y hy => hs y (List.mem_cons_of_mem x hy)) hr)
  rwa [Cursor.past_past] at hall

theorem reads_oneOrMore {f : Char → Bool} {x : Char} (hc : c.rest = x :: s ++ r)
    (hs : ∀ y ∈ x :: s, f y = true) (hr : ∀ y ∈ r.head?, f y = false) :
    (oneOrMore f).Reads c (c.past (x :: s) r) := by
  have hx : (one f).Only c (c.past [x] (s ++ r)) := only_one hc (hs x List.mem_cons_self)
  have hall := hx.reads.seq (reads_run (c := c.past [x] (s ++ r)) rfl
    (fun y hy => hs y (List.mem_cons_of_mem x hy)) hr)
  rwa [Cursor.past_past] at hall

/-- As few characters as possible are captured: before the text that is, no other one can be. -/
theorem reads_capture_few {f : Char → Bool} {x : Char} {q : Pattern} {c' : Cursor}
    (hc : c.rest = x :: s ++ r) (hs : ∀ y ∈ x :: s, f y = true)
    (hfails : ∀ t y t', s = t ++ y :: t' →
      q.Fails (c.capture (c.past (x :: t) (y :: (t' ++ r)))))
    (hq : q.Reads (c.capture (c.past (x :: s) r)) c') :
    (capture (one f ++ few f) ++ q).Reads c c' := by
  obtain ⟨hx, hrest⟩ := List.forall_mem_cons.mp hs
  have hfirst : (one f).run? c (fun c₁ => Cursor.nearest f
      (fun c₂ => q.run? (c.capture c₂) some) c₁.rest c₁) =
        Cursor.nearest f (fun c₂ => q.run? (c.capture c₂) some) (s ++ r) (c.past [x] (s ++ r)) := by
    rw [(only_one hc hx).run?]
    rfl
  rw [reads_iff_run?]
  show (one f).run? c (fun c₁ => Cursor.nearest f (fun c₂ => q.run? (c.capture c₂) some)
    c₁.rest c₁) = _
  rw [hfirst, Cursor.nearest_append hrest rfl]
  · rw [Cursor.past_past]
    exact Cursor.nearest_of_some (reads_iff_run?.mp hq)
  · rintro t y t' rfl
    rw [Cursor.past_past]
    exact (hfails t y t' rfl).run? some

/-! ## All matches -/

variable {Q R : Cursor → Prop}

/-- Every match of the pattern from `c`, not only the best, ends at a place with a property. -/
def Each (p : Pattern) (c : Cursor) (Q : Cursor → Prop) : Prop := ∀ c' ∈ p.ends c, Q c'

theorem Each.fails (h : p.Each c fun _ => False) : p.Fails c := List.eq_nil_iff_forall_not_mem.mpr h

theorem Fails.each (h : p.Fails c) : p.Each c Q := by
  intro c' hc'
  rw [h] at hc'
  cases hc'

theorem Only.each (h : p.Only c c₁) (hQ : Q c₁) : p.Each c Q := by
  intro c' hc'
  rw [h] at hc'
  cases List.mem_singleton.mp hc'
  exact hQ

theorem Each.mono (h : p.Each c Q) (hQ : ∀ c', Q c' → R c') : p.Each c R :=
  fun c' hc' => hQ c' (h c' hc')

theorem Each.seq (hp : p.Each c Q) (hq : ∀ c', Q c' → q.Each c' R) : (p ++ q).Each c R := by
  intro c₂ hc₂
  obtain ⟨c₁, hc₁, hends⟩ := List.mem_flatMap.mp hc₂
  exact hq c₁ (hp c₁ hc₁) c₂ hends

theorem Each.seq_fails (hp : p.Each c Q) (hq : ∀ c', Q c' → q.Fails c') : (p ++ q).Fails c :=
  (hp.seq fun c' hc' => (hq c' hc').each).fails

theorem Each.either (hp : p.Each c Q) (hq : q.Each c Q) : (either p q).Each c Q := by
  intro c' hc'
  rcases List.mem_append.mp hc' with h | h
  · exact hp c' h
  · exact hq c' h

theorem Each.optional (hp : p.Each c Q) (hc : Q c) : (optional p).Each c Q :=
  hp.either fun _ hc' => List.mem_singleton.mp hc' ▸ hc

/-- A property that each repetition keeps is there after all of them. -/
theorem Each.many (hp : ∀ c, Q c → p.Each c Q) (hc : Q c) : (many p).Each c Q := by
  have hall : ∀ (fuel : List Char) (c : Cursor), Q c → ∀ c' ∈ repeatEnds p.ends fuel c, Q c' := by
    intro fuel
    induction fuel with
    | nil =>
        intro c hc c' hc'
        cases List.mem_singleton.mp hc'
        exact hc
    | cons x more ih =>
        intro c hc c' hc'
        rcases List.mem_append.mp hc' with h | h
        · obtain ⟨c₁, hc₁, hmore⟩ := List.mem_flatMap.mp h
          exact ih c₁ (hp c hc c₁ hc₁) c' hmore
        · cases List.mem_singleton.mp h
          exact hc
  exact hall c.rest c hc

/-- A run may give back characters, which then stand before what follows it. -/
theorem each_run {f : Char → Bool} (hc : c.rest = s ++ r) (hr : ∀ x ∈ r.head?, f x = false) :
    (run f).Each c fun c' => ∃ t, t <:+ s ∧ c'.rest = t ++ r := by
  have hall : ∀ (s : List Char) (c : Cursor) (nearer : List Cursor), c.rest = s ++ r →
      ∀ c' ∈ Cursor.stopsFrom f (s ++ r) c nearer,
        c' ∈ nearer ∨ ∃ t, t <:+ s ∧ c'.rest = t ++ r := by
    intro s
    induction s with
    | nil =>
        intro c nearer hc c' hc'
        have hstop : Cursor.stopsFrom f r c nearer = c :: nearer := by
          cases r with
          | nil => rfl
          | cons x r => rw [Cursor.stopsFrom, hr x rfl, if_neg Bool.false_ne_true]
        rw [List.nil_append, hstop] at hc'
        rcases List.mem_cons.mp hc' with rfl | h
        · exact .inr ⟨[], List.suffix_rfl, hc⟩
        · exact .inl h
    | cons x s ih =>
        intro c nearer hc c' hc'
        have hhere : c' ∈ c :: nearer →
            c' ∈ nearer ∨ ∃ t, t <:+ x :: s ∧ c'.rest = t ++ r := by
          intro h
          rcases List.mem_cons.mp h with rfl | h
          · exact .inr ⟨x :: s, List.suffix_rfl, hc⟩
          · exact .inl h
        rw [List.cons_append, Cursor.stopsFrom] at hc'
        split at hc'
        · rcases ih _ _ rfl c' hc' with h | ⟨t, ht, hrest⟩
          · exact hhere h
          · exact .inr ⟨t, ht.trans (List.suffix_cons x s), hrest⟩
        · exact hhere hc'
  intro c' hc'
  change c' ∈ Cursor.stopsFrom f c.rest c [] at hc'
  rw [hc] at hc'
  exact (hall s c [] hc c' hc').resolve_left List.not_mem_nil

theorem each_ofList (s : List Char) (c : Cursor) :
    (ofList s).Each c fun c' => c.rest = s ++ c'.rest := by
  have hone : ∀ (x : Char) (c : Cursor), (char x).Each c fun c' => c.rest = x :: c'.rest := by
    intro x c c' hc'
    rw [char] at hc'
    cases hrest : c.rest with
    | nil =>
        rw [ends_one_of_nil hrest] at hc'
        cases hc'
    | cons y r =>
        rw [ends_one_of_cons hrest] at hc'
        split at hc'
        · rename_i hy
          cases List.mem_singleton.mp hc'
          rw [beq_iff_eq.mp hy]
          rfl
        · cases hc'
  induction s generalizing c with
  | nil => exact fun c' hc' => List.mem_singleton.mp hc' ▸ rfl
  | cons x s ih =>
      cases s with
      | nil => exact hone x c
      | cons y s =>
          refine (hone x c).seq fun c₁ hc₁ => (ih c₁).mono fun c₂ hc₂ => ?_
          rw [hc₁, hc₂]
          rfl

theorem each_anyOf (words : List String) (c : Cursor) :
    (anyOf words).Each c fun c' => ∃ w ∈ words, c.rest = w.toList ++ c'.rest := by
  induction words with
  | nil => exact (fails_one fun x _ => rfl).each
  | cons w words ih =>
      have hfirst : (word w).Each c fun c' => ∃ w' ∈ w :: words, c.rest = w'.toList ++ c'.rest :=
        (each_ofList w.toList c).mono fun c' hc' => ⟨w, List.mem_cons_self, hc'⟩
      cases words with
      | nil => exact hfirst
      | cons w' words =>
          exact hfirst.either (ih.mono fun c' ⟨v, hv, hc'⟩ => ⟨v, List.mem_cons_of_mem w hv, hc'⟩)

/-! ## Repetitions that consume -/

/-- Where each repetition consumes a character, all bounds that the text fits in give the same. -/
theorem repeatEnds_eq {step : Cursor → List Cursor}
    (hstep : ∀ c, ∀ c' ∈ step c, c'.rest.length < c.rest.length) {bound bound' : List Char}
    (h : c.rest.length ≤ bound.length) (h' : c.rest.length ≤ bound'.length) :
    repeatEnds step bound c = repeatEnds step bound' c := by
  have hnil : ∀ {c : Cursor}, c.rest.length ≤ 0 → ∀ bound, repeatEnds step bound c = [c] := by
    intro c hc bound
    cases bound with
    | nil => rfl
    | cons x more =>
        have hnone : step c = [] := List.eq_nil_iff_forall_not_mem.mpr fun c' hc' =>
          Nat.not_lt_zero _ (Nat.lt_of_lt_of_le (hstep c c' hc') hc)
        rw [repeatEnds, hnone]
        rfl
  induction bound generalizing c bound' with
  | nil => rw [hnil h, hnil h]
  | cons x more ih =>
      cases bound' with
      | nil => rw [hnil h', hnil h']
      | cons y more' =>
          have hends : (step c).flatMap (repeatEnds step more) =
              (step c).flatMap (repeatEnds step more') := by
            rw [List.flatMap_def, List.flatMap_def]
            refine congrArg List.flatten (List.map_congr_left fun c' hc' => ?_)
            have hless := hstep c c' hc'
            simp only [List.length_cons] at h h'
            exact ih (by omega) (by omega)
          rw [repeatEnds, repeatEnds, hends]

/-- Each match of the pattern consumes a character. -/
def Shortens (p : Pattern) : Prop := ∀ c, p.Each c fun c' => c'.rest.length < c.rest.length

/-- A repetition, after which the others are read. -/
theorem Reads.many_cons (hp : p.Shortens) (h : p.Reads c c₁)
    (hmore : (Pattern.many p).Reads c₁ c₂) : (Pattern.many p).Reads c c₂ := by
  obtain ⟨later, hends⟩ := List.head?_eq_some_iff.mp h
  have hless : c₁.rest.length < c.rest.length := hp c c₁ (hends ▸ List.mem_cons_self)
  obtain ⟨x, more, hc⟩ := List.exists_cons_of_length_pos (Nat.zero_lt_of_lt hless)
  have hfits : c₁.rest.length ≤ more.length := by
    rw [hc] at hless
    exact Nat.le_of_lt_succ hless
  have hsame := repeatEnds_eq hp (c := c₁) (Nat.le_refl _) hfits
  show (repeatEnds p.ends c.rest c).head? = some c₂
  rw [hc, repeatEnds, hends, List.flatMap_cons, ← hsame, List.append_assoc, List.head?_append]
  change (repeatEnds p.ends c₁.rest c₁).head? = some c₂ at hmore
  rw [hmore]
  rfl

/-! ## Reading or failing -/

theorem fails_word {w : String} (h : ¬ w.toList <+: c.rest) : (word w).Fails c :=
  Each.fails fun c' hc' => h ⟨c'.rest, (each_ofList w.toList c c' hc').symm⟩

theorem fails_or_reads_word (w : String) (c : Cursor) :
    (word w).Fails c ∨ ∃ c', (word w).Only c c' ∧ c.rest = w.toList ++ c'.rest := by
  by_cases h : w.toList <+: c.rest
  · obtain ⟨r, hc⟩ := h
    exact .inr ⟨_, only_word hc.symm, hc.symm⟩
  · exact .inl (fails_word h)

theorem fails_or_reads_char (x : Char) (c : Cursor) :
    (char x).Fails c ∨ ∃ c', (char x).Only c c' ∧ c.rest = x :: c'.rest := by
  cases hc : c.rest with
  | nil => exact .inl (ends_one_of_nil hc)
  | cons y r =>
      by_cases hy : y = x
      · exact .inr ⟨_, only_one hc (beq_iff_eq.mpr hy), by rw [hy]; rfl⟩
      · refine .inl (fails_one fun z hz => ?_)
        rw [hc] at hz
        cases hz
        exact beq_eq_false_iff_ne.mpr hy

theorem reads_all (f : Char → Bool) (c : Cursor) :
    ∃ s c', (all f).Only c c' ∧ c.rest = s ++ c'.rest ∧ ∀ x ∈ s, f x = true := by
  obtain ⟨s, r, hc, hs, hr⟩ := exists_split f c.rest
  exact ⟨s, _, only_all hc hs hr, hc, hs⟩

theorem fails_or_reads_whole (f : Char → Bool) (c : Cursor) :
    (whole f).Fails c ∨ ∃ s c', (whole f).Only c c' ∧ c.rest = s ++ c'.rest ∧ s ≠ [] ∧
      ∀ x ∈ s, f x = true := by
  obtain ⟨s, r, hc, hs, hr⟩ := exists_split f c.rest
  cases s with
  | nil => exact .inl ((fails_one (by rwa [hc])).seq _)
  | cons x s => exact .inr ⟨x :: s, _, only_whole hc hs hr, hc, List.cons_ne_nil x s, hs⟩

theorem fails_anyOf {words : List String} (h : ∀ w ∈ words, ¬ w.toList <+: c.rest) :
    (anyOf words).Fails c := by
  refine Each.fails fun c' hc' => ?_
  obtain ⟨w, hw, hrest⟩ := each_anyOf words c c' hc'
  exact h w hw ⟨c'.rest, hrest.symm⟩

/-- The first of the words that the text begins with is read. -/
theorem reads_anyOf {before after : List String} {w : String} (hc : c.rest = w.toList ++ r)
    (hbefore : ∀ w' ∈ before, ¬ w'.toList <+: c.rest) :
    (anyOf (before ++ w :: after)).Reads c (c.past w.toList r) := by
  have hw : (word w).Reads c (c.past w.toList r) := (only_word hc).reads
  induction before with
  | nil =>
      cases after with
      | nil => exact hw
      | cons w' after => exact hw.either_left _
  | cons w' before ih =>
      obtain ⟨v, words, hwords⟩ : ∃ v words, before ++ w :: after = v :: words :=
        List.exists_cons_of_ne_nil (List.append_ne_nil_of_right_ne_nil _ (List.cons_ne_nil _ _))
      have hfails : (word w').Fails c := fails_word (hbefore w' List.mem_cons_self)
      have hlater := ih fun v hv => hbefore v (List.mem_cons_of_mem _ hv)
      rw [List.cons_append, hwords]
      rw [hwords] at hlater
      exact hfails.either_reads hlater

/-- What begins with one pattern still does so with another pattern after it. -/
theorem ends_seq_of_ends_eq {p₁ p₂ : Pattern} (h : ∀ c, p.ends c = (p₁ ++ p₂).ends c) (q : Pattern)
    (c : Cursor) : (p ++ q).ends c = (p₁ ++ (p₂ ++ q)).ends c := by
  show (p.ends c).flatMap q.ends = (p₁.ends c).flatMap fun c₁ => (p₂.ends c₁).flatMap q.ends
  rw [h]
  exact List.flatMap_assoc

/-! ## Searching -/

variable {before : Option Char} {skipped cs : List Char}

theorem matchAt_of_reads (h : p.Reads ⟨before, cs, 0, []⟩ c) :
    p.matchAt before cs =
      some (cs.take c.read, c.spans.reverse.map Span.text, c.rest) := by
  rw [matchAt, reads_iff_run?.mp h]
  rfl

theorem matchAt_of_past
    (h : p.Reads ⟨before, s ++ r, 0, []⟩ (Cursor.past ⟨before, s ++ r, 0, []⟩ s r)) :
    p.matchAt before (s ++ r) = some (s, [], r) := by
  rw [matchAt_of_reads h]
  show some ((s ++ r).take (0 + s.length), _, r) = _
  rw [Nat.zero_add, List.take_left]
  rfl

theorem matchAt_of_fails (h : p.Fails ⟨before, cs, 0, []⟩) : p.matchAt before cs = none := by
  rw [matchAt, h.run?]
  rfl

theorem findFrom_of_matchAt {m : List Char × List (List Char) × List Char}
    (h : p.matchAt before cs = some m) (skipped : List Char) :
    p.findFrom skipped before cs = some ⟨skipped.reverse, m.1, m.2.1, m.2.2⟩ := by
  cases cs with
  | nil =>
      rw [findFrom, h]
      rfl
  | cons x r => rw [findFrom, h]

theorem findFrom_of_reads (h : p.Reads ⟨before, cs, 0, []⟩ c) :
    p.findFrom skipped before cs =
      some ⟨skipped.reverse, cs.take c.read, c.spans.reverse.map Span.text, c.rest⟩ :=
  findFrom_of_matchAt (matchAt_of_reads h) skipped

theorem findFrom_cons_of_fails {x : Char} (h : p.Fails ⟨before, x :: r, 0, []⟩) :
    p.findFrom skipped before (x :: r) = p.findFrom (x :: skipped) (some x) r := by
  rw [findFrom, matchAt_of_fails h]

/-! ## What a search passes over -/

/-- The pattern has no match that begins in the text `s`, which `r` follows. -/
def Skips (p : Pattern) (before : Option Char) (s r : List Char) : Prop :=
  ∀ u x v, s = u ++ x :: v → p.matchAt (u.getLast?.or before) (x :: (v ++ r)) = none

theorem skips_nil (p : Pattern) (before : Option Char) (r : List Char) : p.Skips before [] r :=
  fun u x v h => absurd h.symm (List.append_ne_nil_of_right_ne_nil u (List.cons_ne_nil x v))

theorem getLast?_cons_or (x : Char) (u : List Char) (before : Option Char) :
    (x :: u).getLast?.or before = u.getLast?.or (some x) := by
  rw [List.getLast?_cons]
  cases u.getLast? <;> rfl

theorem skips_cons_iff {x : Char} :
    p.Skips before (x :: s) r ↔ p.matchAt before (x :: (s ++ r)) = none ∧ p.Skips (some x) s r := by
  constructor
  · intro h
    refine ⟨h [] x s rfl, ?_⟩
    rintro u y v rfl
    have hlater := h (x :: u) y v rfl
    rwa [getLast?_cons_or] at hlater
  · rintro ⟨hhere, hlater⟩ u y v h
    cases u with
    | nil =>
        cases h
        exact hhere
    | cons z u =>
        obtain ⟨rfl, rfl⟩ := List.cons.inj h
        rw [getLast?_cons_or]
        exact hlater u y v rfl

/-- A search passes over text in which no match begins. -/
theorem Skips.findFrom_append (h : p.Skips before s r) (skipped : List Char) :
    p.findFrom skipped before (s ++ r) =
      p.findFrom (s.reverse ++ skipped) (s.getLast?.or before) r := by
  induction s generalizing skipped before with
  | nil => rfl
  | cons x s ih =>
      obtain ⟨hhere, hlater⟩ := skips_cons_iff.mp h
      rw [List.cons_append, Pattern.findFrom, hhere, getLast?_cons_or]
      dsimp only
      rw [ih hlater, List.reverse_cons, List.append_assoc, List.singleton_append]

/-- A search passes over text in which the pattern fails everywhere. -/
theorem findFrom_append
    (h : ∀ x t, x :: t <:+ s → ∀ before, p.Fails ⟨before, x :: (t ++ r), 0, []⟩) :
    p.findFrom skipped before (s ++ r) =
      p.findFrom (s.reverse ++ skipped) (s.getLast?.or before) r := by
  have hskips : p.Skips before s r := by
    rintro u x v rfl
    exact matchAt_of_fails (h x v (List.suffix_append u (x :: v)) _)
  exact hskips.findFrom_append skipped

end Pattern

end Testwright.Text
