import Testwright.Proofs.Text.Pattern

/-!
# The texts of a pattern

What a match says about a text, whichever of the matches it is. A pattern stands for a set of texts,
each with the texts that it captures (`Pattern.Spells`). Main statements: every match reads one of
them (`Pattern.each_spells`), so what a whole text is captured as is one of them as well
(`Pattern.spells_of_captures?`).
-/

namespace Testwright.Text

namespace Cursor

variable {c c' c'' : Cursor} {f : Char → Bool} {s s' r cs : List Char} {k k' : List (List Char)}
  {nearer : List Cursor} {x : Char}

/-- Between two places a text is read and texts are captured, last first. -/
def ReadsTo (c c' : Cursor) (s : List Char) (k : List (List Char)) : Prop :=
  c.rest = s ++ c'.rest ∧ c'.read = c.read + s.length ∧
    c'.spans.map Span.text = k ++ c.spans.map Span.text

theorem ReadsTo.refl (c : Cursor) : c.ReadsTo c [] [] := ⟨rfl, rfl, rfl⟩

theorem ReadsTo.trans (h : c.ReadsTo c' s k) (h' : c'.ReadsTo c'' s' k') :
    c.ReadsTo c'' (s ++ s') (k' ++ k) := by
  obtain ⟨hrest, hread, hspans⟩ := h
  obtain ⟨hrest', hread', hspans'⟩ := h'
  refine ⟨?_, ?_, ?_⟩
  · rw [hrest, hrest', List.append_assoc]
  · rw [hread', hread, List.length_append, Nat.add_assoc]
  · rw [hspans', hspans, List.append_assoc]

theorem ReadsTo.capture (h : c.ReadsTo c' s k) : c.ReadsTo (c.capture c') s (s :: k) := by
  obtain ⟨hrest, hread, hspans⟩ := h
  refine ⟨hrest, hread, ?_⟩
  show (c.rest.take (c'.read - c.read)) :: c'.spans.map Span.text = _
  rw [hread, Nat.add_sub_cancel_left, hrest, List.take_left, hspans]
  rfl

theorem readsTo_step (hc : c.rest = x :: r) : c.ReadsTo (c.step x r) [x] [] := ⟨hc, rfl, rfl⟩

theorem readsTo_past (hc : c.rest = s ++ r) : c.ReadsTo (c.past s r) s [] := ⟨hc, rfl, rfl⟩

/-- Between two places stand only characters of a class. -/
def ReadsClass (f : Char → Bool) (c c' : Cursor) : Prop :=
  ∃ s, (∀ x ∈ s, f x = true) ∧ c.ReadsTo c' s []

theorem ReadsClass.refl (c : Cursor) : ReadsClass f c c :=
  ⟨[], fun _ hx => absurd hx List.not_mem_nil, .refl c⟩

theorem ReadsClass.step (hc : c.rest = x :: r) (hx : f x = true)
    (h : ReadsClass f (c.step x r) c') : ReadsClass f c c' := by
  obtain ⟨s, hs, hreads⟩ := h
  exact ⟨x :: s, List.forall_mem_cons.mpr ⟨hx, hs⟩, (readsTo_step hc).trans hreads⟩

theorem readsClass_of_mem_stopsFrom (hc : c.rest = cs) (h : c' ∈ stopsFrom f cs c nearer) :
    c' ∈ nearer ∨ ReadsClass f c c' := by
  induction cs generalizing c nearer with
  | nil =>
      rcases List.mem_cons.mp h with rfl | h
      · exact .inr (.refl _)
      · exact .inl h
  | cons x r ih =>
      have hhere : c' ∈ c :: nearer → c' ∈ nearer ∨ ReadsClass f c c' := by
        intro h
        rcases List.mem_cons.mp h with rfl | h
        · exact .inr (.refl _)
        · exact .inl h
      rw [stopsFrom] at h
      split at h
      · rename_i hx
        rcases ih rfl h with h | h
        · exact hhere h
        · exact .inr (.step hc hx h)
      · exact hhere h

theorem readsClass_of_mem_stops (h : c' ∈ c.stops f) : ReadsClass f c c' :=
  (readsClass_of_mem_stopsFrom rfl h).resolve_left List.not_mem_nil

theorem readsClass_passFrom (hc : c.rest = cs) : ReadsClass f c (passFrom f cs c) := by
  induction cs generalizing c with
  | nil => exact .refl c
  | cons x r ih =>
      rw [passFrom]
      split
      · rename_i hx
        exact .step hc hx (ih rfl)
      · exact .refl c

end Cursor

namespace Pattern

/-- Texts one after another, each with what is captured. -/
inductive Repeated (spells : List Char → List (List Char) → Prop) :
    List Char → List (List Char) → Prop where
  | none : Repeated spells [] []
  | more {s s' : List Char} {k k' : List (List Char)} (h : spells s k)
      (h' : Repeated spells s' k') : Repeated spells (s ++ s') (k' ++ k)

/-- The texts of a pattern, each with the texts that are captured in it, last first. -/
def Spells : Pattern → List Char → List (List Char) → Prop
  | empty, s, k => s = [] ∧ k = []
  | one f, s, k => (∃ x, f x = true ∧ s = [x]) ∧ k = []
  | run f, s, k => (∀ x ∈ s, f x = true) ∧ k = []
  | all f, s, k => (∀ x ∈ s, f x = true) ∧ k = []
  | few f, s, k => (∀ x ∈ s, f x = true) ∧ k = []
  | edge, s, k => s = [] ∧ k = []
  | atEnd, s, k => s = [] ∧ k = []
  | seq p q, s, k =>
    ∃ s₁ s₂ k₁ k₂, s = s₁ ++ s₂ ∧ k = k₂ ++ k₁ ∧ p.Spells s₁ k₁ ∧ q.Spells s₂ k₂
  | either p q, s, k => p.Spells s k ∨ q.Spells s k
  | many p, s, k => Repeated p.Spells s k
  | capture p, s, k => ∃ k', p.Spells s k' ∧ k = s :: k'

variable {p q : Pattern} {f : Char → Bool} {c c' : Cursor} {s t cs : List Char}
  {k : List (List Char)}

theorem exists_spells_of_readsClass {p : Pattern}
    (hp : ∀ s, (∀ x ∈ s, f x = true) → p.Spells s []) (h : Cursor.ReadsClass f c c') :
    ∃ s k, p.Spells s k ∧ c.ReadsTo c' s k := by
  obtain ⟨s, hs, hreads⟩ := h
  exact ⟨s, [], hp s hs, hreads⟩

/-- Repetitions read texts of the pattern one after another. -/
theorem exists_repeated_of_mem_repeatEnds
    (hp : ∀ c, p.Each c fun c' => ∃ s k, p.Spells s k ∧ c.ReadsTo c' s k) {fuel : List Char}
    (h : c' ∈ repeatEnds p.ends fuel c) : ∃ s k, Repeated p.Spells s k ∧ c.ReadsTo c' s k := by
  induction fuel generalizing c with
  | nil =>
      cases List.mem_singleton.mp h
      exact ⟨[], [], .none, .refl _⟩
  | cons x fuel ih =>
      rcases List.mem_append.mp h with hmore | hstop
      · obtain ⟨c₁, hc₁, hmore⟩ := List.mem_flatMap.mp hmore
        obtain ⟨s₁, k₁, hs₁, h₁⟩ := hp c c₁ hc₁
        obtain ⟨s₂, k₂, hs₂, h₂⟩ := ih hmore
        exact ⟨s₁ ++ s₂, k₂ ++ k₁, .more hs₁ hs₂, h₁.trans h₂⟩
      · cases List.mem_singleton.mp hstop
        exact ⟨[], [], .none, .refl _⟩

/-- Every match reads one of the texts of the pattern. -/
theorem each_spells (p : Pattern) (c : Cursor) :
    p.Each c fun c' => ∃ s k, p.Spells s k ∧ c.ReadsTo c' s k := by
  induction p generalizing c with
  | empty => exact Only.each rfl ⟨[], [], ⟨rfl, rfl⟩, .refl c⟩
  | one f =>
      intro c' hc'
      cases hc : c.rest with
      | nil =>
          rw [ends_one_of_nil hc] at hc'
          cases hc'
      | cons x r =>
          rw [ends, hc] at hc'
          obtain ⟨hx, hmem⟩ := List.mem_ite_nil_right.mp hc'
          cases List.mem_singleton.mp hmem
          exact ⟨[x], [], ⟨⟨x, hx, rfl⟩, rfl⟩, Cursor.readsTo_step hc⟩
  | run f =>
      exact fun c' hc' =>
        exists_spells_of_readsClass (fun s hs => ⟨hs, rfl⟩) (Cursor.readsClass_of_mem_stops hc')
  | all f =>
      exact Only.each rfl
        (exists_spells_of_readsClass (fun s hs => ⟨hs, rfl⟩) (Cursor.readsClass_passFrom rfl))
  | few f =>
      exact fun c' hc' => exists_spells_of_readsClass (fun s hs => ⟨hs, rfl⟩)
        (Cursor.readsClass_of_mem_stops (List.mem_reverse.mp hc'))
  | edge =>
      intro c' hc'
      obtain ⟨-, rfl⟩ := List.mem_ite_nil_right.mp hc' |>.imp_right List.mem_singleton.mp
      exact ⟨[], [], ⟨rfl, rfl⟩, .refl _⟩
  | atEnd =>
      intro c' hc'
      obtain ⟨-, rfl⟩ := List.mem_ite_nil_right.mp hc' |>.imp_right List.mem_singleton.mp
      exact ⟨[], [], ⟨rfl, rfl⟩, .refl _⟩
  | seq p q ihp ihq =>
      refine (ihp c).seq fun c₁ hfirst => (ihq c₁).mono fun c₂ hsecond => ?_
      obtain ⟨s₁, k₁, hs₁, h₁⟩ := hfirst
      obtain ⟨s₂, k₂, hs₂, h₂⟩ := hsecond
      exact ⟨s₁ ++ s₂, k₂ ++ k₁, ⟨s₁, s₂, k₁, k₂, rfl, rfl, hs₁, hs₂⟩, h₁.trans h₂⟩
  | either p q ihp ihq =>
      refine ((ihp c).mono fun c' => ?_).either ((ihq c).mono fun c' => ?_)
      · rintro ⟨s, k, hs, h⟩
        exact ⟨s, k, .inl hs, h⟩
      · rintro ⟨s, k, hs, h⟩
        exact ⟨s, k, .inr hs, h⟩
  | many p ih => exact fun c' hc' => exists_repeated_of_mem_repeatEnds ih hc'
  | capture p ih =>
      intro c' hc'
      obtain ⟨c₁, hc₁, rfl⟩ := List.mem_map.mp hc'
      obtain ⟨s, k, hs, h⟩ := ih c c₁ hc₁
      exact ⟨s, s :: k, ⟨k, hs, rfl⟩, h.capture⟩

theorem Reads.exists_readsTo (h : p.Reads c c') : ∃ s k, c.ReadsTo c' s k := by
  obtain ⟨later, hends⟩ := List.head?_eq_some_iff.mp h
  have hmem : c' ∈ p.ends c := by
    rw [hends]
    exact List.mem_cons_self
  obtain ⟨s, k, -, hto⟩ := each_spells p c c' hmem
  exact ⟨s, k, hto⟩

/-- A pattern with no empty text consumes a character in each match. -/
theorem shortens_of_spells (h : ∀ s k, p.Spells s k → s ≠ []) : p.Shortens := by
  intro c
  refine (each_spells p c).mono fun c' hc' => ?_
  obtain ⟨s, k, hs, hto⟩ := hc'
  have hpos := List.length_pos_iff.mpr (h s k hs)
  rw [hto.1, List.length_append]
  omega

/-- A pattern that goes on to the end of the text captures what one of its texts says. -/
theorem spells_of_captures? (h : (p ++ atEnd).captures? cs = some k) : p.Spells cs k.reverse := by
  rw [captures?, Option.map_eq_some_iff] at h
  obtain ⟨m, hm, rfl⟩ := h
  rw [matchAt, run_eq_findSome?] at hm
  obtain ⟨c, hrun, rfl⟩ := Option.map_eq_some_iff.mp hm
  obtain ⟨c', hc', hsome⟩ := List.exists_of_findSome?_eq_some hrun
  cases hsome
  obtain ⟨c₁, hc₁, hend⟩ := List.mem_flatMap.mp hc'
  obtain ⟨hempty, hmem⟩ := List.mem_ite_nil_right.mp hend
  cases List.mem_singleton.mp hmem
  obtain ⟨s, k, hs, hrest, -, hspans⟩ := each_spells p _ c hc₁
  have hcs : cs = s := by rw [← List.append_nil s, ← List.isEmpty_iff.mp hempty]; exact hrest
  have hk : (c.spans.reverse.map Span.text).reverse = k := by
    rw [List.map_reverse, List.reverse_reverse, hspans]
    exact List.append_nil k
  show p.Spells cs (c.spans.reverse.map Span.text).reverse
  rw [hcs, hk]
  exact hs

/-! ## The texts of the common patterns -/

theorem spells_seq : (p ++ q).Spells s k ↔
    ∃ s₁ s₂ k₁ k₂, s = s₁ ++ s₂ ∧ k = k₂ ++ k₁ ∧ p.Spells s₁ k₁ ∧ q.Spells s₂ k₂ := Iff.rfl

theorem spells_ofList : (ofList t).Spells s k ↔ s = t ∧ k = [] := by
  induction t generalizing s k with
  | nil => exact Iff.rfl
  | cons x t ih =>
      have hone : ∀ {s k}, (char x).Spells s k ↔ s = [x] ∧ k = [] := by
        intro s k
        simp [char, Spells]
      cases t with
      | nil => exact hone
      | cons y t =>
          show (char x ++ ofList (y :: t)).Spells s k ↔ _
          simp only [spells_seq, hone, ih]
          constructor
          · rintro ⟨_, _, _, _, rfl, rfl, ⟨rfl, rfl⟩, rfl, rfl⟩
            exact ⟨rfl, rfl⟩
          · rintro ⟨rfl, rfl⟩
            exact ⟨[x], y :: t, [], [], rfl, rfl, ⟨rfl, rfl⟩, rfl, rfl⟩

theorem spells_char {x : Char} : (char x).Spells s k ↔ s = [x] ∧ k = [] :=
  spells_ofList (t := [x])

theorem spells_word {w : String} : (word w).Spells s k ↔ s = w.toList ∧ k = [] := spells_ofList

theorem spells_anyOf {words : List String} :
    (anyOf words).Spells s k ↔ (∃ w ∈ words, s = w.toList) ∧ k = [] := by
  induction words with
  | nil => simp [anyOf, Spells]
  | cons w words ih =>
      cases words with
      | nil => simp [anyOf, spells_word]
      | cons w' words =>
          show (word w).Spells s k ∨ (anyOf (w' :: words)).Spells s k ↔ _
          rw [ih, spells_word, ← or_and_right]
          simp

theorem spells_optional : (optional p).Spells s k ↔ p.Spells s k ∨ s = [] ∧ k = [] := Iff.rfl

theorem spells_whole : (whole f).Spells s k ↔ (s ≠ [] ∧ ∀ x ∈ s, f x = true) ∧ k = [] := by
  simp only [whole, Spells]
  constructor
  · rintro ⟨_, s, _, _, rfl, rfl, ⟨⟨x, hx, rfl⟩, rfl⟩, hs, rfl⟩
    exact ⟨⟨List.cons_ne_nil x s, List.forall_mem_cons.mpr ⟨hx, hs⟩⟩, rfl⟩
  · rintro ⟨⟨hne, hall⟩, rfl⟩
    cases s with
    | nil => exact absurd rfl hne
    | cons x s =>
        obtain ⟨hx, hs⟩ := List.forall_mem_cons.mp hall
        exact ⟨[x], s, [], [], rfl, rfl, ⟨⟨x, hx, rfl⟩, rfl⟩, hs, rfl⟩

/-- A run and all that follow spell the same texts. -/
theorem spells_oneOrMore :
    (oneOrMore f).Spells s k ↔ (s ≠ [] ∧ ∀ x ∈ s, f x = true) ∧ k = [] := spells_whole

theorem spells_gap : gap.Spells s k ↔ (s ≠ [] ∧ ∀ x ∈ s, isBlank x = true) ∧ k = [] :=
  spells_whole

theorem spells_blank : blank.Spells s k ↔ (∀ x ∈ s, isBlank x = true) ∧ k = [] := Iff.rfl

/-- A capture of a pattern without captures. -/
theorem spells_capture {P : List Char → Prop} (h : ∀ s k, p.Spells s k ↔ P s ∧ k = []) :
    (capture p).Spells s k ↔ P s ∧ k = [s] := by
  show (∃ k', p.Spells s k' ∧ k = s :: k') ↔ _
  simp only [h]
  constructor
  · rintro ⟨_, ⟨hs, rfl⟩, rfl⟩
    exact ⟨hs, rfl⟩
  · rintro ⟨hs, rfl⟩
    exact ⟨[], ⟨hs, rfl⟩, rfl⟩

/-! ## Texts without a character -/

/-- The character is in none of the texts of the pattern. -/
def Omits (p : Pattern) (x : Char) : Prop := ∀ s k, p.Spells s k → x ∉ s

variable {x : Char}

theorem omits_one (hx : f x = false) : (one f).Omits x := by
  rintro s k ⟨⟨y, hy, rfl⟩, -⟩ hmem
  rw [← List.mem_singleton.mp hmem, hx] at hy
  cases hy

theorem omits_all (hx : f x = false) : (all f).Omits x := by
  rintro s k ⟨hs, -⟩ hmem
  rw [hs x hmem] at hx
  cases hx

theorem Omits.seq (hp : p.Omits x) (hq : q.Omits x) : (p ++ q).Omits x := by
  rintro s k ⟨s₁, s₂, k₁, k₂, rfl, -, h₁, h₂⟩
  exact List.not_mem_append (hp s₁ k₁ h₁) (hq s₂ k₂ h₂)

theorem Omits.optional (hp : p.Omits x) : (optional p).Omits x := by
  rintro s k (h | ⟨rfl, -⟩)
  · exact hp s k h
  · exact List.not_mem_nil

theorem Omits.capture (hp : p.Omits x) : (capture p).Omits x := by
  rintro s _ ⟨k, h, -⟩
  exact hp s k h

theorem omits_whole (hx : f x = false) : (whole f).Omits x := (omits_one hx).seq (omits_all hx)

theorem omits_anyOf {words : List String} (hx : ∀ w ∈ words, x ∉ w.toList) :
    (anyOf words).Omits x := by
  intro s k h
  obtain ⟨⟨w, hw, rfl⟩, -⟩ := spells_anyOf.mp h
  exact hx w hw

theorem omits_word {w : String} (hx : x ∉ w.toList) : (word w).Omits x := by
  intro s k h
  rw [(spells_word.mp h).1]
  exact hx

end Pattern

end Testwright.Text
