import Testwright.Proofs.Text.Search

/-!
# Whole words

The words of a text are its longest runs of word characters (`wordsOf`). Where no word reaches from
one part of a text into the next, the words of the text are those of its parts (`wordsOf_append`).
A pattern that reads words between two edges (`Pattern.ReadsWords`) matches a word as a whole or not
at all, so what it finds depends on the words alone. Main statements: it finds all the words that it
reads, in their order (`Pattern.ReadsWords.texts_findAll`), and the first of them is its leftmost
match (`Pattern.ReadsWords.find_eq_some_iff`).
-/

namespace Testwright.Text

variable {u v w r s cs fuel : List Char} {x : Char} {before : Option Char}

/-! ## The words of a text -/

/-- The longest runs of word characters in a text, in their order. -/
def wordsOf (cs : List Char) : List (List Char) :=
  (cs.splitOnP fun x => !isWord x).filter fun w => !w.isEmpty

/-- No word reaches over the place between a character and a text. -/
def Parted (before : Option Char) (cs : List Char) : Prop :=
  (∀ x ∈ before, isWord x = false) ∨ ∀ x ∈ cs.head?, isWord x = false

theorem parted_nil (before : Option Char) : Parted before [] :=
  .inr fun x hx => absurd hx (Option.not_mem_none x)

theorem parted_none (cs : List Char) : Parted none cs :=
  .inl fun x hx => absurd hx (Option.not_mem_none x)

theorem wordsOf_append_cons (hx : isWord x = false) (u v : List Char) :
    wordsOf (u ++ x :: v) = wordsOf u ++ wordsOf v := by
  rw [wordsOf, List.splitOnP_append_cons u v (by rw [hx]; rfl), List.filter_append]
  rfl

theorem wordsOf_cons (hx : isWord x = false) (v : List Char) : wordsOf (x :: v) = wordsOf v :=
  wordsOf_append_cons hx [] v

theorem wordsOf_word (hne : w ≠ []) (hw : ∀ x ∈ w, isWord x = true) : wordsOf w = [w] := by
  rw [wordsOf, List.splitOnP_eq_singleton fun x hx => by rw [hw x hx]; rfl]
  exact List.filter_eq_self.mpr fun v hv => by simpa [List.mem_singleton.mp hv] using hne

/-- The words of a text are those of its parts, if none reaches from one into the other. -/
theorem wordsOf_append (h : Parted u.getLast? v) : wordsOf (u ++ v) = wordsOf u ++ wordsOf v := by
  rcases h with hu | hv
  · cases List.eq_nil_or_concat u with
    | inl hnil =>
        rw [hnil]
        rfl
    | inr hconcat =>
        obtain ⟨u, x, rfl⟩ := hconcat
        rw [List.concat_eq_append] at hu ⊢
        have hx : isWord x = false := hu x (by rw [List.getLast?_concat]; rfl)
        rw [List.append_assoc, List.singleton_append, wordsOf_append_cons hx,
          wordsOf_append_cons hx]
        exact congrArg (· ++ wordsOf v) (List.append_nil _).symm
  · cases v with
    | nil =>
        rw [List.append_nil]
        exact (List.append_nil _).symm
    | cons x v => rw [wordsOf_append_cons (hv x rfl), wordsOf_cons (hv x rfl)]

/-- A run of word characters has no word but itself. -/
theorem eq_of_mem_wordsOf_word (hw : ∀ x ∈ w, isWord x = true) {w' : List Char}
    (h : w' ∈ wordsOf w) : w' = w := by
  cases w with
  | nil => cases h
  | cons x w =>
      rw [wordsOf_word (List.cons_ne_nil x w) hw] at h
      exact List.mem_singleton.mp h

/-- A word of a text stands alone in it. -/
theorem exists_of_mem_wordsOf (h : w ∈ wordsOf cs) :
    ∃ u v, cs = u ++ (w ++ v) ∧ (∀ x ∈ u.getLast?, isWord x = false) ∧
      ∀ x ∈ v.head?, isWord x = false := by
  obtain ⟨n, hn⟩ : ∃ n, cs.length ≤ n := ⟨_, Nat.le_refl _⟩
  induction n generalizing cs with
  | zero =>
      rw [List.length_eq_zero_iff.mp (Nat.le_zero.mp hn)] at h
      cases h
  | succ n ih =>
      -- the text begins with a run, which may be empty
      obtain ⟨s, r, rfl, hs, hr⟩ := exists_split isWord cs
      cases r with
      | nil =>
          rw [List.append_nil] at h
          rw [eq_of_mem_wordsOf_word hs h]
          exact ⟨[], [], rfl, fun x hx => absurd hx (Option.not_mem_none x), hr⟩
      | cons x r =>
          have hx : isWord x = false := hr x rfl
          rw [wordsOf_append_cons hx] at h
          rcases List.mem_append.mp h with hmem | hmem
          · rw [eq_of_mem_wordsOf_word hs hmem]
            exact ⟨[], x :: r, rfl, fun x hx => absurd hx (Option.not_mem_none x), hr⟩
          · rw [List.length_append, List.length_cons] at hn
            obtain ⟨u, v, rfl, hu, hv⟩ := ih hmem (by omega)
            refine ⟨s ++ x :: u, v, by simp, fun y hy => ?_, hv⟩
            rw [List.getLast?_append, List.getLast?_cons] at hy
            cases hlast : u.getLast? with
            | none =>
                rw [hlast] at hy
                cases hy
                exact hx
            | some z =>
                rw [hlast] at hy
                cases hy
                exact hu z hlast

/-- A word ends where no other word character follows. -/
theorem word_append_inj {w' r' : List Char} (hw : ∀ x ∈ w, isWord x = true)
    (hw' : ∀ x ∈ w', isWord x = true) (hr : ∀ x ∈ r.head?, isWord x = false)
    (hr' : ∀ x ∈ r'.head?, isWord x = false) (h : w ++ r = w' ++ r') : w = w' ∧ r = r' := by
  have hbegins : ∀ {w r w' r' : List Char}, (∀ x ∈ w, isWord x = true) →
      (∀ x ∈ r'.head?, isWord x = false) → w ++ r = w' ++ r' → w <+: w' := by
    intro w r w' r' hw hr' h
    rcases List.append_eq_append_iff.mp h with ⟨t, rfl, -⟩ | ⟨t, rfl, ht⟩
    · exact List.prefix_append w t
    · cases t with
      | nil => exact ⟨[], by simp⟩
      | cons x t =>
          have hx : isWord x = true := hw x (by simp)
          rw [hr' x (by rw [ht]; rfl)] at hx
          cases hx
  obtain rfl := (hbegins hw hr' h).eq_of_length_le (hbegins hw' hr h.symm).length_le
  exact ⟨rfl, List.append_cancel_left h⟩

/-- A word that begins in a text ends in it, if no word reaches over the end of the text. -/
theorem exists_of_word_append {r' : List Char} (hs : s ≠ []) (hend : Parted s.getLast? r)
    (hw : ∀ x ∈ w, isWord x = true) (hr' : ∀ x ∈ r'.head?, isWord x = false)
    (h : s ++ r = w ++ r') : ∃ t, s = w ++ t ∧ ∀ x ∈ t.head?, isWord x = false := by
  rcases List.append_eq_append_iff.mp h with ⟨t, rfl, hr⟩ | ⟨t, hst, hr⟩
  · cases t with
    | nil => exact ⟨[], by simp, fun x hx => absurd hx (Option.not_mem_none x)⟩
    | cons x t =>
        -- it would reach over the end
        have hlast : isWord (s.getLast hs) = true :=
          hw _ (List.mem_append_left _ (List.getLast_mem hs))
        have hx : isWord x = true := hw x (by simp)
        rcases hend with hbefore | hhead
        · rw [hbefore _ (List.getLast?_eq_some_getLast hs)] at hlast
          cases hlast
        · rw [hhead x (by rw [hr]; rfl)] at hx
          cases hx
  · refine ⟨t, hst, ?_⟩
    cases t with
    | nil => exact fun x hx => absurd hx (Option.not_mem_none x)
    | cons x t =>
        rw [hr] at hr'
        exact hr'

namespace Pattern

/-! ## The leftmost match -/

variable {p q : Pattern} {skipped : List Char} {f : Found}

/-- Before the leftmost match, the pattern has none. -/
theorem exists_skips_of_findFrom (h : p.findFrom skipped before cs = some f) :
    ∃ s, f.skipped = skipped.reverse ++ s ∧ cs = s ++ (f.text ++ f.rest) ∧
      p.Skips before s (f.text ++ f.rest) ∧
      p.matchAt (s.getLast?.or before) (f.text ++ f.rest) = some (f.text, f.captures, f.rest) := by
  induction cs generalizing skipped before with
  | nil =>
      rw [Pattern.findFrom] at h
      obtain ⟨m, hm, rfl⟩ := Option.map_eq_some_iff.mp h
      have hpieces := eq_append_of_matchAt hm
      refine ⟨[], (List.append_nil _).symm, hpieces, skips_nil p _ _, ?_⟩
      rw [← hpieces]
      exact hm
  | cons x cs ih =>
      rw [Pattern.findFrom] at h
      cases hm : p.matchAt before (x :: cs) with
      | some m =>
          rw [hm] at h
          cases h
          have hpieces := eq_append_of_matchAt hm
          refine ⟨[], (List.append_nil _).symm, hpieces, skips_nil p _ _, ?_⟩
          rw [← hpieces]
          exact hm
      | none =>
          rw [hm] at h
          obtain ⟨s, hskipped, rfl, hskips, hmatch⟩ := ih h
          refine ⟨x :: s, ?_, rfl, skips_cons_iff.mpr ⟨hm, hskips⟩, ?_⟩
          · rw [hskipped, List.reverse_cons, List.append_assoc, List.singleton_append]
          · rw [getLast?_cons_or]
            exact hmatch

/-- Where nothing is found, the pattern has no match. -/
theorem skips_of_findFrom_eq_none (h : p.findFrom skipped before cs = none) :
    p.Skips before cs [] := by
  induction cs generalizing skipped before with
  | nil => exact skips_nil p before []
  | cons x cs ih =>
      rw [Pattern.findFrom] at h
      cases hm : p.matchAt before (x :: cs) with
      | some m =>
          rw [hm] at h
          cases h
      | none =>
          rw [hm] at h
          exact skips_cons_iff.mpr ⟨by rwa [List.append_nil], ih h⟩

/-- Each match that is found is the best one at its place. -/
theorem matchAt_of_findAllFrom {k : Nat} (h : (p.findAllFrom fuel before cs)[k]? = some f) :
    p.matchAt ((((p.findAllFrom fuel before cs).take k).flatMap Found.passed ++
        f.skipped).getLast?.or before) (f.text ++ f.rest) = some (f.text, f.captures, f.rest) := by
  induction fuel generalizing before cs k with
  | nil =>
      rw [findAllFrom, List.getElem?_nil] at h
      cases h
  | cons y fuel ih =>
      rw [findAllFrom] at h ⊢
      cases hfirst : p.findFrom [] before cs with
      | none =>
          rw [hfirst] at h
          cases h
      | some first =>
          rw [hfirst] at h
          cases k with
          | zero =>
              cases h
              obtain ⟨s, hskipped, -, -, hmatch⟩ := exists_skips_of_findFrom hfirst
              rw [List.reverse_nil, List.nil_append] at hskipped
              rwa [hskipped]
          | succ k =>
              have hlater := ih h
              have hlast : lastOf first before = first.passed.getLast?.or before := by
                rw [lastOf, Found.passed, List.getLast?_append, Option.or_assoc]
              rwa [List.take_succ_cons, List.flatMap_cons, List.append_assoc, List.getLast?_append,
                Option.or_assoc, ← hlast]

/-- The text is cut before and after one of the matches that are found in it. -/
def FindsAt (p : Pattern) (cs u w v : List Char) : Prop :=
  ∃ (k : Nat) (f : Found), (p.findAll cs)[k]? = some f ∧
    u = ((p.findAll cs).take k).flatMap Found.passed ++ f.skipped ∧ w = f.text ∧ v = f.rest

theorem FindsAt.eq_append (h : p.FindsAt cs u w v) : cs = u ++ (w ++ v) := by
  obtain ⟨k, f, hf, rfl, rfl, rfl⟩ := h
  have hpieces := findAll_getElem?_eq_some hf
  simpa [Found.passed] using hpieces

/-! ## Patterns that read words -/

/-- The pattern reads words of a kind: all of them where no other word character follows, and
elsewhere perhaps the beginning of a longer word. -/
structure ReadsWords (q : Pattern) (kind : List Char → Bool) : Prop where
  word : ∀ w, kind w = true → w ≠ [] ∧ ∀ x ∈ w, isWord x = true
  sound : ∀ c, q.Each c fun c' => ∃ w r, kind w = true ∧ c.rest = w ++ r ∧ c' = c.past w r
  complete : ∀ c w r, kind w = true → c.rest = w ++ r → (∀ x ∈ r.head?, isWord x = false) →
    c.past w r ∈ q.ends c

/-- The words of a kind in a text, in their order. -/
def selectedWords (kind : List Char → Bool) (cs : List Char) : List (List Char) :=
  (wordsOf cs).filter kind

variable {kind : List Char → Bool}

theorem selectedWords_append (h : Parted u.getLast? v) :
    selectedWords kind (u ++ v) = selectedWords kind u ++ selectedWords kind v := by
  rw [selectedWords, wordsOf_append h, List.filter_append]
  rfl

theorem atEdge_past_iff {c : Cursor} (hne : w ≠ []) (hw : ∀ x ∈ w, isWord x = true) :
    (c.past w r).atEdge = true ↔ ∀ x ∈ r.head?, isWord x = false := by
  have hlast : isWord (w.getLast hne) = true := hw _ (List.getLast_mem hne)
  rw [Cursor.atEdge, Cursor.past, List.getLast?_eq_some_getLast hne, Option.some_or,
    Option.any_some, hlast]
  cases r.head? with
  | none => simp
  | some y => cases hy : isWord y <;> simp [hy]

/-- A word of the kind that stands alone is one of the words. -/
theorem ReadsWords.selectedWords_around (hq : q.ReadsWords kind) (hw : kind w = true)
    (hu : ∀ x ∈ u.getLast?, isWord x = false) (hv : ∀ x ∈ v.head?, isWord x = false) :
    selectedWords kind (u ++ (w ++ v)) = selectedWords kind u ++ w :: selectedWords kind v := by
  have hword : selectedWords kind w = [w] := by
    rw [selectedWords, wordsOf_word (hq.word w hw).1 (hq.word w hw).2, List.filter_cons, if_pos hw]
    rfl
  rw [selectedWords_append (.inl hu), selectedWords_append (.inr hv), hword]
  rfl

theorem ReadsWords.mem_ends_iff (hq : q.ReadsWords kind) {c c' : Cursor} :
    c' ∈ (edge ++ q ++ edge).ends c ↔ ∃ w r, kind w = true ∧ c.rest = w ++ r ∧
      (∀ x ∈ c.before, isWord x = false) ∧ (∀ x ∈ r.head?, isWord x = false) ∧
        c' = c.past w r := by
  have hstart : ∀ {w r}, kind w = true → c.rest = w ++ r →
      (c.atEdge = true ↔ ∀ x ∈ c.before, isWord x = false) := by
    intro w r hw hc
    obtain ⟨hne, hall⟩ := hq.word w hw
    obtain ⟨x, w, rfl⟩ := List.exists_cons_of_ne_nil hne
    exact Cursor.atEdge_iff hc (hall x List.mem_cons_self)
  constructor
  · intro h
    obtain ⟨c₂, hc₂, hend⟩ := List.mem_flatMap.mp h
    obtain ⟨c₁, hbegin, hread⟩ := List.mem_flatMap.mp hc₂
    obtain ⟨hedge, hmem⟩ := List.mem_ite_nil_right.mp hbegin
    obtain rfl := List.mem_singleton.mp hmem
    obtain ⟨hedge', hmem'⟩ := List.mem_ite_nil_right.mp hend
    obtain rfl := List.mem_singleton.mp hmem'
    obtain ⟨w, r, hw, hc, rfl⟩ := hq.sound _ _ hread
    obtain ⟨hne, hall⟩ := hq.word w hw
    exact ⟨w, r, hw, hc, (hstart hw hc).mp hedge, (atEdge_past_iff hne hall).mp hedge', rfl⟩
  · rintro ⟨w, r, hw, hc, hbefore, hr, rfl⟩
    obtain ⟨hne, hall⟩ := hq.word w hw
    have hread := hq.complete c w r hw hc hr
    have hedge : edge.Only c c := only_edge ((hstart hw hc).mpr hbefore)
    have hedge' : edge.Only (c.past w r) (c.past w r) :=
      only_edge ((atEdge_past_iff hne hall).mpr hr)
    refine List.mem_flatMap.mpr ⟨c.past w r, List.mem_flatMap.mpr ⟨c, ?_, hread⟩, ?_⟩
    · rw [show edge.ends c = [c] from hedge]
      exact List.mem_cons_self
    · rw [show edge.ends (c.past w r) = [c.past w r] from hedge']
      exact List.mem_cons_self

/-- Between two edges, such a pattern matches a whole word or nothing. -/
theorem ReadsWords.matchAt_eq_some_iff (hq : q.ReadsWords kind)
    {m : List Char × List (List Char) × List Char} :
    (edge ++ q ++ edge).matchAt before cs = some m ↔ ∃ w r, m = (w, [], r) ∧ kind w = true ∧
      cs = w ++ r ∧ (∀ x ∈ before, isWord x = false) ∧ ∀ x ∈ r.head?, isWord x = false := by
  have hmatch : ∀ {w r c'}, (edge ++ q ++ edge).Reads ⟨before, w ++ r, 0, []⟩ c' →
      c' = Cursor.past ⟨before, w ++ r, 0, []⟩ w r →
        (edge ++ q ++ edge).matchAt before (w ++ r) = some (w, [], r) := by
    rintro w r c' hreads rfl
    exact matchAt_of_past hreads
  constructor
  · intro h
    obtain ⟨c', hrun, -⟩ := Option.map_eq_some_iff.mp h
    have hreads : (edge ++ q ++ edge).Reads ⟨before, cs, 0, []⟩ c' := reads_iff_run?.mpr hrun
    obtain ⟨w, r, hw, rfl, hbefore, hr, hc'⟩ := hq.mem_ends_iff.mp (List.mem_of_head? hreads)
    rw [hmatch hreads hc'] at h
    exact ⟨w, r, (Option.some.inj h).symm, hw, rfl, hbefore, hr⟩
  · rintro ⟨w, r, rfl, hw, rfl, hbefore, hr⟩
    -- there is a match, and any match reads this word
    have hmem := hq.mem_ends_iff.mpr
      ⟨w, r, hw, (rfl : Cursor.rest ⟨before, w ++ r, 0, []⟩ = _), hbefore, hr, rfl⟩
    obtain ⟨c', hreads⟩ :=
      Option.isSome_iff_exists.mp (List.isSome_head?.mpr (List.ne_nil_of_mem hmem))
    obtain ⟨w', r', hw', hc, -, hr', hc'⟩ := hq.mem_ends_iff.mp (List.mem_of_head? hreads)
    obtain ⟨rfl, rfl⟩ := word_append_inj (hq.word w hw).2 (hq.word w' hw').2 hr hr' hc
    exact hmatch hreads hc'

/-- Where no match begins there is no word of the kind. -/
theorem ReadsWords.selectedWords_eq_nil_of_skips (hq : q.ReadsWords kind)
    (hstart : Parted before s) (hend : Parted (s.getLast?.or before) r)
    (hskips : (edge ++ q ++ edge).Skips before s r) : selectedWords kind s = [] := by
  refine List.filter_eq_nil_iff.mpr fun w hmem hw => ?_
  obtain ⟨u, v, rfl, hu, hv⟩ := exists_of_mem_wordsOf hmem
  obtain ⟨hne, hall⟩ := hq.word w hw
  have hlast : w.getLast? = some (w.getLast hne) := List.getLast?_eq_some_getLast hne
  have hbefore : ∀ x ∈ u.getLast?.or before, isWord x = false := by
    cases u with
    | nil =>
        refine hstart.resolve_right fun hhead => ?_
        obtain ⟨x, w, rfl⟩ := List.exists_cons_of_ne_nil hne
        have hx := hall x List.mem_cons_self
        rw [hhead x rfl] at hx
        cases hx
    | cons y u =>
        rw [getLast?_cons_or]
        rwa [← getLast?_cons_or y u none, Option.or_none]
  have hafter : ∀ x ∈ (v ++ r).head?, isWord x = false := by
    cases v with
    | nil =>
        refine hend.resolve_left fun hbefore => ?_
        have hx := hall _ (List.getLast_mem hne)
        rw [hbefore _ (by simp [hlast])] at hx
        cases hx
    | cons y v => exact hv
  have hfound := hq.matchAt_eq_some_iff.mpr ⟨w, v ++ r, rfl, hw, rfl, hbefore, hafter⟩
  obtain ⟨x, w, rfl⟩ := List.exists_cons_of_ne_nil hne
  have hnone := hskips u x (w ++ v) rfl
  rw [List.append_assoc] at hnone
  rw [List.cons_append, hnone] at hfound
  cases hfound

/-- Where there is no word of the kind no match begins. -/
theorem ReadsWords.skips_of_selectedWords_eq_nil (hq : q.ReadsWords kind)
    (hend : Parted (s.getLast?.or before) r) (hnone : selectedWords kind s = []) :
    (edge ++ q ++ edge).Skips before s r := by
  rintro u x v rfl
  refine Option.eq_none_iff_forall_ne_some.mpr fun m hm => ?_
  obtain ⟨w, r', -, hw, hcs, hbefore, hr'⟩ := hq.matchAt_eq_some_iff.mp hm
  have hlast : (u ++ x :: v).getLast?.or before = (x :: v).getLast? := by
    rw [List.getLast?_append, List.getLast?_eq_some_getLast (List.cons_ne_nil x v),
      Option.some_or, Option.some_or]
  rw [hlast] at hend
  obtain ⟨t, hxv, ht⟩ := exists_of_word_append (List.cons_ne_nil x v) hend (hq.word w hw).2 hr' hcs
  have hu : ∀ y ∈ u.getLast?, isWord y = false := by
    intro y hy
    refine hbefore y ?_
    rw [Option.mem_def.mp hy]
    rfl
  have hmem : w ∈ selectedWords kind (u ++ x :: v) := by
    rw [hxv, hq.selectedWords_around hw hu ht]
    simp
  rw [hnone] at hmem
  cases hmem

/-- The text before a match has no word of the kind, and a text without one has no match. -/
theorem ReadsWords.skips_iff (hq : q.ReadsWords kind) (hstart : Parted before s)
    (hend : Parted (s.getLast?.or before) r) :
    (edge ++ q ++ edge).Skips before s r ↔ selectedWords kind s = [] :=
  ⟨hq.selectedWords_eq_nil_of_skips hstart hend, hq.skips_of_selectedWords_eq_nil hend⟩

/-- The leftmost match is the first word of the kind. -/
theorem ReadsWords.exists_of_findFrom (hq : q.ReadsWords kind) (hstart : Parted before cs)
    (h : (edge ++ q ++ edge).findFrom [] before cs = some f) :
    cs = f.skipped ++ (f.text ++ f.rest) ∧ kind f.text = true ∧ f.captures = [] ∧
      selectedWords kind f.skipped = [] ∧ (∀ x ∈ f.skipped.getLast?, isWord x = false) ∧
        ∀ x ∈ f.rest.head?, isWord x = false := by
  obtain ⟨s, hskipped, rfl, hskips, hmatch⟩ := exists_skips_of_findFrom h
  rw [List.reverse_nil, List.nil_append] at hskipped
  obtain ⟨w, r, hm, hw, -, hbefore, hr⟩ := hq.matchAt_eq_some_iff.mp hmatch
  simp only [Prod.mk.injEq] at hm
  obtain ⟨htext, hcaptures, hrest⟩ := hm
  rw [hskipped]
  have hparted : Parted before s := by
    cases s with
    | nil => exact parted_nil before
    | cons x s => exact hstart
  refine ⟨rfl, by rw [htext]; exact hw, hcaptures, (hq.skips_iff hparted (.inl hbefore)).mp hskips,
    fun x hx => hbefore x ?_, by rwa [hrest]⟩
  rw [Option.mem_def.mp hx]
  rfl

theorem ReadsWords.find_eq_some_iff (hq : q.ReadsWords kind) :
    (edge ++ q ++ edge).find cs = some f ↔
      cs = f.skipped ++ (f.text ++ f.rest) ∧ kind f.text = true ∧ f.captures = [] ∧
        selectedWords kind f.skipped = [] ∧ (∀ x ∈ f.skipped.getLast?, isWord x = false) ∧
          ∀ x ∈ f.rest.head?, isWord x = false := by
  refine ⟨hq.exists_of_findFrom (parted_none cs), ?_⟩
  obtain ⟨s, w, k, r⟩ := f
  rintro ⟨rfl, hw, rfl, hnone, hs, hr⟩
  have hlast : ∀ x ∈ s.getLast?.or none, isWord x = false := by rwa [Option.or_none]
  have hskips := (hq.skips_iff (r := w ++ r) (parted_none s) (.inl hlast)).mpr hnone
  have hmatch := hq.matchAt_eq_some_iff.mpr ⟨w, r, rfl, hw, rfl, hlast, hr⟩
  show (edge ++ q ++ edge).findFrom [] none (s ++ (w ++ r)) = _
  rw [hskips.findFrom_append, findFrom_of_matchAt hmatch, List.append_nil, List.reverse_reverse]

theorem ReadsWords.find_eq_none_iff (hq : q.ReadsWords kind) :
    (edge ++ q ++ edge).find cs = none ↔ selectedWords kind cs = [] := by
  constructor
  · intro h
    exact (hq.skips_iff (parted_none cs) (parted_nil _)).mp (skips_of_findFrom_eq_none h)
  · intro hnone
    refine Option.eq_none_iff_forall_ne_some.mpr fun f hf => ?_
    obtain ⟨rfl, hw, -, -, hs, hr⟩ := hq.find_eq_some_iff.mp hf
    rw [hq.selectedWords_around hw hs hr] at hnone
    simp at hnone

theorem ReadsWords.texts_findAllFrom (hq : q.ReadsWords kind) (hstart : Parted before cs)
    (hfuel : cs.length ≤ fuel.length) :
    ((edge ++ q ++ edge).findAllFrom fuel before cs).map Found.text = selectedWords kind cs := by
  induction fuel generalizing before cs with
  | nil =>
      rw [List.length_eq_zero_iff.mp (Nat.le_zero.mp hfuel)]
      rfl
  | cons y fuel ih =>
      rw [findAllFrom]
      cases hfirst : (edge ++ q ++ edge).findFrom [] before cs with
      | none =>
          have hskips := skips_of_findFrom_eq_none hfirst
          exact ((hq.skips_iff hstart (parted_nil _)).mp hskips).symm
      | some f =>
          obtain ⟨rfl, hw, -, hnone, hs, hr⟩ := hq.exists_of_findFrom hstart hfirst
          have hpos := List.length_pos_iff.mpr (hq.word _ hw).1
          rw [List.length_append, List.length_append, List.length_cons] at hfuel
          rw [List.map_cons, ih (.inr hr) (by omega), hq.selectedWords_around hw hs hr, hnone]
          rfl

/-- All words of the kind are found, and nothing else. -/
theorem ReadsWords.texts_findAll (hq : q.ReadsWords kind) (cs : List Char) :
    ((edge ++ q ++ edge).findAll cs).map Found.text = selectedWords kind cs :=
  hq.texts_findAllFrom (parted_none cs) (Nat.le_refl _)

/-- A match is a word of the kind that stands alone. -/
theorem FindsAt.stands_alone (hq : q.ReadsWords kind) (h : (edge ++ q ++ edge).FindsAt cs u w v) :
    kind w = true ∧ (∀ x ∈ u.getLast?, isWord x = false) ∧ ∀ x ∈ v.head?, isWord x = false := by
  obtain ⟨k, f, hf, rfl, rfl, rfl⟩ := h
  obtain ⟨w, r, hm, hw, -, hbefore, hr⟩ := hq.matchAt_eq_some_iff.mp (matchAt_of_findAllFrom hf)
  simp only [Prod.mk.injEq] at hm
  obtain ⟨htext, -, hrest⟩ := hm
  rw [Option.or_none] at hbefore
  exact ⟨by rw [htext]; exact hw, hbefore, by rwa [hrest]⟩

/-! ## Digits and lists of words -/

theorem readsWords_whole {p : Char → Bool} (hp : ∀ x, p x = true → isWord x = true) :
    (whole p).ReadsWords fun w => !w.isEmpty && w.all p where
  word w hw := by
    rw [Bool.and_eq_true, Bool.not_eq_true', List.isEmpty_eq_false_iff, List.all_eq_true] at hw
    exact ⟨hw.1, fun x hx => hp x (hw.2 x hx)⟩
  sound c := by
    obtain ⟨s, r, hc, hs, hr⟩ := exists_split p c.rest
    cases s with
    | nil => exact ((fails_one (by rwa [hc])).seq _).each
    | cons x s =>
        refine (only_whole hc hs hr).each ⟨x :: s, r, ?_, hc, rfl⟩
        exact Bool.and_eq_true_iff.mpr ⟨rfl, List.all_eq_true.mpr hs⟩
  complete c w r hw hc hr := by
    rw [Bool.and_eq_true, Bool.not_eq_true', List.isEmpty_eq_false_iff, List.all_eq_true] at hw
    obtain ⟨hne, hall⟩ := hw
    obtain ⟨x, w, rfl⟩ := List.exists_cons_of_ne_nil hne
    have hend : ∀ y ∈ r.head?, p y = false := fun y hy => Bool.eq_false_iff.mpr fun hyes => by
      have hword := hp y hyes
      rw [hr y hy] at hword
      cases hword
    have honly : (whole p).Only c (c.past (x :: w) r) := only_whole hc hall hend
    rw [show (whole p).ends c = [_] from honly]
    exact List.mem_cons_self

theorem mem_ends_word_iff {w : String} {c c' : Cursor} :
    c' ∈ (word w).ends c ↔ ∃ r, c.rest = w.toList ++ r ∧ c' = c.past w.toList r := by
  by_cases h : w.toList <+: c.rest
  · obtain ⟨r, hc⟩ := h
    have honly : (word w).ends c = [c.past w.toList r] := only_word hc.symm
    rw [honly, List.mem_singleton]
    constructor
    · exact fun heq => ⟨r, hc.symm, heq⟩
    · rintro ⟨r', hc', rfl⟩
      rw [List.append_cancel_left (hc.trans hc')]
  · rw [show (word w).ends c = [] from fails_word h]
    refine iff_of_false List.not_mem_nil ?_
    rintro ⟨r, hc, -⟩
    exact h ⟨r, hc.symm⟩

theorem mem_ends_anyOf_iff {words : List String} {c c' : Cursor} :
    c' ∈ (anyOf words).ends c ↔
      ∃ w ∈ words, ∃ r, c.rest = w.toList ++ r ∧ c' = c.past w.toList r := by
  induction words with
  | nil =>
      have hfails : (anyOf []).ends c = [] := fails_one fun x _ => rfl
      simp [hfails]
  | cons w words ih =>
      cases words with
      | nil =>
          rw [show anyOf [w] = word w from rfl, mem_ends_word_iff]
          simp
      | cons w' words =>
          show c' ∈ (word w).ends c ++ (anyOf (w' :: words)).ends c ↔ _
          rw [List.mem_append, mem_ends_word_iff, ih]
          simp

theorem readsWords_anyOf {words : List String}
    (h : ∀ w ∈ words, w.toList ≠ [] ∧ ∀ x ∈ w.toList, isWord x = true) :
    (anyOf words).ReadsWords fun w => words.contains (String.ofList w) where
  word w hw := by
    have hmem := h _ (List.contains_iff_mem.mp hw)
    rwa [String.toList_ofList] at hmem
  sound c c' hc' := by
    obtain ⟨w, hw, r, hc, rfl⟩ := mem_ends_anyOf_iff.mp hc'
    exact ⟨w.toList, r, List.contains_iff_mem.mpr (by rwa [String.ofList_toList]), hc, rfl⟩
  complete c w r hw hc _ := by
    refine mem_ends_anyOf_iff.mpr ⟨_, List.contains_iff_mem.mp hw, r, ?_⟩
    rw [String.toList_ofList]
    exact ⟨hc, rfl⟩

end Pattern

end Testwright.Text
