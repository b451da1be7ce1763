import Testwright.Proofs.Text.Collecting
import Testwright.Proofs.Text.Spacing

/-!
# Replacing all matches

A text with its tokens replaced, as a relation that is built from the front of the text
(`Replaced`). Main statements: where a pattern matches exactly the tokens, replacing all its matches
is this relation (`Pattern.Recognizes.replaced_iff`); the two parts of a text are gone through one
after the other if no token reaches from the first into the second (`Replaced.append`); and texts
that differ in their white space still do so afterwards (`Pattern.Recognizes.alike`).
-/

namespace Testwright.Text

/-- The text with its tokens replaced by `s`. A text `d ++ r` begins with the token `d` where
`T d r`. -/
inductive Replaced (T : List Char → List Char → Prop) (s : List Char) :
    List Char → List Char → Prop where
  | nil : Replaced T s [] []
  | token {d r out : List Char} (hd : T d r) (h : Replaced T s r out) :
      Replaced T s (d ++ r) (s ++ out)
  | skip {x : Char} {r out : List Char} (hx : ∀ d t, x :: r = d ++ t → ¬ T d t)
      (h : Replaced T s r out) : Replaced T s (x :: r) (x :: out)

variable {T : List Char → List Char → Prop} {s a b d r u cs out out' : List Char} {x : Char}

/-! ## Texts one after another -/

/-- No token reaches from the first text into the second, and none of the first is longer when the
second follows. -/
structure Seam (T : List Char → List Char → Prop) (a b : List Char) : Prop where
  ends : ∀ u d t, u <:+ a → u ≠ [] → u ++ b = d ++ t → T d t → ∃ w, u = d ++ w ∧ T d w
  lasts : ∀ d w, d ++ w <:+ a → T d w → T d (w ++ b)

theorem Seam.of_suffix (h : Seam T a b) (hu : u <:+ a) : Seam T u b where
  ends v d t hv := h.ends v d t (hv.trans hu)
  lasts d w hw := h.lasts d w (hw.trans hu)

theorem Replaced.append (h : Replaced T s a out) (hseam : Seam T a b)
    (h' : Replaced T s b out') : Replaced T s (a ++ b) (out ++ out') := by
  induction h with
  | nil => exact h'
  | @token d r out hd _ ih =>
      rw [List.append_assoc, List.append_assoc]
      exact .token (hseam.lasts d r List.suffix_rfl hd)
        (ih (hseam.of_suffix (List.suffix_append d r)))
  | @skip x r out hx _ ih =>
      refine .skip (fun d t hcs hd => ?_) (ih (hseam.of_suffix (List.suffix_cons x r)))
      obtain ⟨w, hw, htoken⟩ :=
        hseam.ends (x :: r) d t List.suffix_rfl (List.cons_ne_nil x r) hcs hd
      exact hx d w hw htoken

/-- Where tokens are left out, nothing comes in. -/
theorem Replaced.sublist (h : Replaced T [] cs out) : out.Sublist cs := by
  induction h with
  | nil => exact .slnil
  | token _ _ ih => exact ih.trans (List.sublist_append_right _ _)
  | skip _ _ ih => exact ih.cons_cons _

/-- A text stays as it is where each token in it is replaced by itself. -/
theorem Replaced.eq_self (h : Replaced T s cs out) (hT : ∀ d r, d ++ r <:+ cs → T d r → d = s) :
    out = cs := by
  induction h with
  | nil => rfl
  | @token d r out hd _ ih =>
      rw [hT d r List.suffix_rfl hd,
        ih fun d' r' hr => hT d' r' (hr.trans (List.suffix_append d r))]
  | @skip x r out _ _ ih => rw [ih fun d' r' hr => hT d' r' (hr.trans (List.suffix_cons x r))]

/-! ## Patterns and their tokens -/

namespace Pattern

/-- The pattern matches where a token begins, and reads the token. -/
structure Recognizes (p : Pattern) (T : List Char → List Char → Prop) : Prop where
  ne_nil : ∀ d r, T d r → d ≠ []
  reads : ∀ d r before, T d r → ∃ k, p.matchAt before (d ++ r) = some (d, k, r)
  token : ∀ before cs m, p.matchAt before cs = some m → T m.1 m.2.2

variable {p : Pattern} {before : Option Char} {fuel : List Char}

theorem Recognizes.matchAt_eq_none (hp : p.Recognizes T) (h : ∀ d t, cs = d ++ t → ¬ T d t) :
    p.matchAt before cs = none :=
  Option.eq_none_iff_forall_ne_some.mpr fun m hm =>
    h m.1 m.2.2 (eq_append_of_matchAt hm) (hp.token before cs m hm)

/-- The leftmost match is the first token. -/
theorem Recognizes.findFrom (hp : p.Recognizes T) (h : Replaced T s cs out)
    (skipped : List Char) (before : Option Char) :
    (p.findFrom skipped before cs = none ∧ out = cs) ∨
      ∃ f rest, p.findFrom skipped before cs = some f ∧
        skipped.reverse ++ out = f.skipped ++ s ++ rest ∧ Replaced T s f.rest rest ∧
          f.rest.length < cs.length := by
  induction h generalizing skipped before with
  | nil =>
      have hnone : p.matchAt before [] = none := hp.matchAt_eq_none fun d t hcs hd =>
        hp.ne_nil d t hd (List.append_eq_nil_iff.mp hcs.symm).1
      refine .inl ⟨?_, rfl⟩
      rw [Pattern.findFrom, hnone]
      rfl
  | @token d r out hd h _ =>
      obtain ⟨k, hread⟩ := hp.reads d r before hd
      refine .inr ⟨⟨skipped.reverse, d, k, r⟩, out, ?_, (List.append_assoc _ _ _).symm, h, ?_⟩
      · cases hcs : d ++ r with
        | nil => exact absurd (List.append_eq_nil_iff.mp hcs).1 (hp.ne_nil d r hd)
        | cons x cs =>
            rw [hcs] at hread
            rw [Pattern.findFrom, hread]
      · have hpos := List.length_pos_iff.mpr (hp.ne_nil d r hd)
        rw [List.length_append]
        exact Nat.lt_add_of_pos_left hpos
  | @skip x r out hx h ih =>
      rw [Pattern.findFrom, hp.matchAt_eq_none hx]
      dsimp only
      rcases ih (x :: skipped) (some x) with ⟨hnone, rfl⟩ | ⟨f, rest, hfound, hout, hrest, hlt⟩
      · exact .inl ⟨hnone, rfl⟩
      · refine .inr ⟨f, rest, hfound, ?_, hrest, Nat.lt_succ_of_lt hlt⟩
        rw [← hout, List.reverse_cons, List.append_assoc, List.singleton_append]

theorem Recognizes.replaceAllFrom (hp : p.Recognizes T) (h : Replaced T s cs out)
    (hfuel : cs.length ≤ fuel.length) : p.replaceAllFrom s fuel before cs = out := by
  induction fuel generalizing before cs out with
  | nil =>
      obtain rfl := List.length_eq_zero_iff.mp (Nat.le_zero.mp hfuel)
      rcases hp.findFrom h [] none with ⟨-, rfl⟩ | ⟨f, rest, -, -, -, hlt⟩
      · rfl
      · exact absurd hlt (Nat.not_lt_zero _)
  | cons x fuel ih =>
      rw [Pattern.replaceAllFrom]
      rcases hp.findFrom h [] before with ⟨hnone, rfl⟩ | ⟨f, rest, hfound, hout, hrest, hlt⟩
      · rw [hnone]
      · rw [hfound]
        dsimp only
        rw [ih hrest (Nat.le_of_lt_succ (Nat.lt_of_lt_of_le hlt hfuel)), ← hout]
        rfl

/-- The tokens of every text can be replaced. -/
theorem Recognizes.exists_replaced (hp : p.Recognizes T) (s cs : List Char) :
    ∃ out, Replaced T s cs out := by
  obtain ⟨n, hn⟩ : ∃ n, cs.length ≤ n := ⟨_, Nat.le_refl _⟩
  induction n generalizing cs with
  | zero =>
      obtain rfl := List.length_eq_zero_iff.mp (Nat.le_zero.mp hn)
      exact ⟨[], .nil⟩
  | succ n ih =>
      by_cases htoken : ∃ d t, cs = d ++ t ∧ T d t
      · obtain ⟨d, t, rfl, hd⟩ := htoken
        have hpos := List.length_pos_iff.mpr (hp.ne_nil d t hd)
        rw [List.length_append] at hn
        obtain ⟨out, hout⟩ := ih t (by omega)
        exact ⟨s ++ out, .token hd hout⟩
      · cases cs with
        | nil => exact ⟨[], .nil⟩
        | cons x r =>
            obtain ⟨out, hout⟩ := ih r (Nat.le_of_succ_le_succ hn)
            exact ⟨x :: out, .skip (fun d t hcs hd => htoken ⟨d, t, hcs, hd⟩) hout⟩

/-- Replacing all matches replaces the tokens. -/
theorem Recognizes.replaced_iff (hp : p.Recognizes T) :
    Replaced T s cs out ↔ p.replaceAll s cs = out := by
  refine ⟨fun h => hp.replaceAllFrom h (Nat.le_refl _), ?_⟩
  rintro rfl
  obtain ⟨out, hout⟩ := hp.exists_replaced s cs
  rwa [Pattern.replaceAll, hp.replaceAllFrom hout (Nat.le_refl _)]

theorem Recognizes.replaced (hp : p.Recognizes T) (s cs : List Char) :
    Replaced T s cs (p.replaceAll s cs) := hp.replaced_iff.mpr rfl

theorem Recognizes.replaceAll_append (hp : p.Recognizes T) (hseam : Seam T a b) :
    p.replaceAll s (a ++ b) = p.replaceAll s a ++ p.replaceAll s b :=
  hp.replaced_iff.mp ((hp.replaced s a).append hseam (hp.replaced s b))

theorem Recognizes.replaceAll_token (hp : p.Recognizes T) (hd : T d r) :
    p.replaceAll s (d ++ r) = s ++ p.replaceAll s r :=
  hp.replaced_iff.mp (.token hd (hp.replaced s r))

theorem Recognizes.replaceAll_cons (hp : p.Recognizes T)
    (hx : ∀ d t, x :: r = d ++ t → ¬ T d t) : p.replaceAll s (x :: r) = x :: p.replaceAll s r :=
  hp.replaced_iff.mp (.skip hx (hp.replaced s r))

/-- A text that lacks a character of every token is left as it is. -/
theorem Recognizes.replaceAll_of_notMem (hp : p.Recognizes T) (hx : ∀ d r, T d r → x ∈ d)
    (hcs : x ∉ cs) : p.replaceAll s cs = cs :=
  (hp.replaced s cs).eq_self fun d r hr hd =>
    absurd (hr.subset (List.mem_append_left r (hx d r hd))) hcs

theorem replaceAll_nil : p.replaceAll s [] = [] := rfl

/-- A character that stands in no token divides a text. -/
theorem Recognizes.replaceAll_stop (hp : p.Recognizes T) (hx : ∀ d t, T d t → x ∉ d)
    (hT : ∀ d w, T d (w ++ x :: b) ↔ T d w) (a : List Char) :
    p.replaceAll s (a ++ x :: b) = p.replaceAll s a ++ x :: p.replaceAll s b := by
  have hseam : Seam T a (x :: b) := by
    refine ⟨fun u d t _ _ hu hd => ?_, fun d w _ hd => (hT d w).mpr hd⟩
    obtain ⟨w, rfl⟩ := prefix_of_notMem (hx d t hd) ⟨t, hu.symm⟩
    rw [List.append_assoc] at hu
    rw [← List.append_cancel_left hu] at hd
    exact ⟨w, rfl, (hT d w).mp hd⟩
  have hcons : ∀ d t, x :: b = d ++ t → ¬ T d t := by
    intro d t hcs hd
    obtain ⟨y, d, rfl⟩ := List.exists_cons_of_ne_nil (hp.ne_nil d t hd)
    obtain ⟨rfl, -⟩ := List.cons.inj hcs
    exact hx _ t hd List.mem_cons_self
  rw [hp.replaceAll_append hseam, hp.replaceAll_cons hcons]

/-- A pattern with only one way to read each of its texts, whatever follows, recognizes them. -/
theorem recognizes_of_spells {D : List Char → Prop} (hne : ∀ d, D d → d ≠ [])
    (hspells : ∀ d k, p.Spells d k → D d)
    (hreads : ∀ d r before, D d →
      p.Reads ⟨before, d ++ r, 0, []⟩ (Cursor.past ⟨before, d ++ r, 0, []⟩ d r)) :
    p.Recognizes fun d _ => D d where
  ne_nil d _ := hne d
  reads d r before hd := ⟨[], matchAt_of_past (hreads d r before hd)⟩
  token before cs m hm := by
    obtain ⟨c, s, k, hread, hto, rfl⟩ := exists_reads_of_matchAt hm
    exact hspells s k (hread.spells hto)

end Pattern

/-! ## Tokens that go on as long as they can -/

/-- A token after which no character of a class follows. -/
def Whole (D : List Char → Prop) (f : Char → Bool) (d r : List Char) : Prop :=
  D d ∧ ∀ x ∈ r.head?, f x = false

variable {D : List Char → Prop} {f : Char → Bool} {p q : Pattern} {c : Cursor}

theorem whole_append_cons_iff (hx : f x = false) :
    Whole D f d (r ++ x :: b) ↔ Whole D f d r := by
  refine and_congr_right fun _ => ?_
  cases r with
  | nil =>
      constructor
      · exact fun _ y hy => absurd hy (Option.not_mem_none y)
      · intro _ y hy
        cases hy
        exact hx
  | cons y r => exact Iff.rfl

/-- No character of the class follows after all of them. -/
theorem Pattern.each_all_head (f : Char → Bool) (c : Cursor) :
    (all f).Each c fun c' => ∀ x ∈ c'.rest.head?, f x = false := by
  obtain ⟨s, r, hc, hs, hr⟩ := exists_split f c.rest
  exact (only_all hc hs hr).each hr

/-- A pattern that ends with all characters of a class that follow, and that has only one way to read
each of its texts up to there. -/
theorem Pattern.recognizes_whole (hne : ∀ d, D d → d ≠ [])
    (hspells : ∀ d k, (q ++ all f).Spells d k → D d)
    (hreads : ∀ d r before, D d → (∀ x ∈ r.head?, f x = false) →
      (q ++ all f).Reads ⟨before, d ++ r, 0, []⟩ (Cursor.past ⟨before, d ++ r, 0, []⟩ d r)) :
    (q ++ all f).Recognizes (Whole D f) where
  ne_nil d _ hd := hne d hd.1
  reads d r before hd := ⟨[], matchAt_of_past (hreads d r before hd.1 hd.2)⟩
  token before cs m hm := by
    obtain ⟨c, s, k, hread, hto, rfl⟩ := exists_reads_of_matchAt hm
    obtain ⟨later, hends⟩ := List.head?_eq_some_iff.mp hread
    have hhead : (q ++ all f).Each ⟨before, cs, 0, []⟩ fun c' => ∀ x ∈ c'.rest.head?, f x = false :=
      Each.seq (fun _ _ => trivial) fun c' (_ : True) => each_all_head f c'
    exact ⟨hspells s k (hread.spells hto), hhead c (hends ▸ List.mem_cons_self)⟩

/-! ## White space -/

/-- Texts of a pattern that neither begin nor end with white space, and that stand at the same places
of texts that differ in their white space. -/
structure IsSolid (D : List Char → Prop) : Prop where
  head : ∀ d, D d → ∀ x ∈ d.head?, isBlank x = false
  last : ∀ d, D d → ∀ x ∈ d.getLast?, isBlank x = false
  alike : ∀ d r b, D d → Alike (d ++ r) b → ∃ d' r', b = d' ++ r' ∧ D d' ∧ Alike r r'

variable {g : List Char}

theorem IsSolid.seam_blank (hD : IsSolid D) (hg : ∀ x ∈ g, isBlank x = true) :
    Seam (fun d _ => D d) a g where
  ends u d t _ _ hu hd := by
    rcases List.append_eq_append_iff.mp hu with ⟨w, rfl, ht⟩ | ⟨w, rfl, -⟩
    · cases List.eq_nil_or_concat w with
      | inl hw =>
          rw [hw, List.append_nil] at hd ⊢
          exact ⟨[], (List.append_nil u).symm, hd⟩
      | inr hw =>
          -- the last character of the token would be white space
          obtain ⟨w, x, rfl⟩ := hw
          rw [List.concat_eq_append] at hd ht
          have hx := hD.last _ hd x (by rw [← List.append_assoc, List.getLast?_concat]; rfl)
          rw [hg x (by rw [ht]; simp)] at hx
          cases hx
    · exact ⟨w, rfl, hd⟩
  lasts _ _ _ hd := hd

/-- No token begins with white space. -/
theorem Pattern.Recognizes.not_of_blank (hp : p.Recognizes fun d _ => D d) (hD : IsSolid D)
    (hx : isBlank x = true) : ∀ d t, x :: r = d ++ t → ¬ D d := by
  intro d t hcs hd
  obtain ⟨y, d, rfl⟩ := List.exists_cons_of_ne_nil (hp.ne_nil d t hd)
  obtain ⟨rfl, -⟩ := List.cons.inj hcs
  rw [hD.head _ hd x rfl] at hx
  cases hx

/-- White space before a text is left as it is. -/
theorem Pattern.Recognizes.replaceAll_blank_append (hp : p.Recognizes fun d _ => D d)
    (hD : IsSolid D) (hg : ∀ x ∈ g, isBlank x = true) (a : List Char) :
    p.replaceAll s (g ++ a) = g ++ p.replaceAll s a := by
  induction g with
  | nil => rfl
  | cons x g ih =>
      have hx := hp.not_of_blank (r := g ++ a) hD (hg x List.mem_cons_self)
      rw [List.cons_append, hp.replaceAll_cons hx, ih fun y hy => hg y (List.mem_cons_of_mem x hy)]
      rfl

/-- A text of which only white space is left does not act on what follows it. -/
theorem Pattern.Recognizes.replaceAll_append_of_blank (hp : p.Recognizes fun d _ => D d)
    (hD : IsSolid D) (h : ∀ x ∈ p.replaceAll s a, isBlank x = true) (b : List Char) :
    p.replaceAll s (a ++ b) = p.replaceAll s a ++ p.replaceAll s b := by
  refine hp.replaced_iff.mp ?_
  have hreplaced := hp.replaced s a
  generalize p.replaceAll s a = out at h hreplaced
  induction hreplaced with
  | nil => exact hp.replaced s b
  | @token d r out hd _ ih =>
      rw [List.append_assoc, List.append_assoc]
      exact .token hd (ih fun x hx => h x (List.mem_append_right s hx))
  | @skip x r out _ _ ih =>
      exact .skip (hp.not_of_blank hD (h x List.mem_cons_self))
        (ih fun y hy => h y (List.mem_cons_of_mem x hy))

/-- Where only white space is left, there was nothing else but tokens that stand for white space. -/
theorem Replaced.isBlank_of_isBlank (h : Replaced T s cs out)
    (hT : (∀ x ∈ s, isBlank x = true) → ∀ d r, T d r → ∀ x ∈ d, isBlank x = true)
    (hout : ∀ x ∈ out, isBlank x = true) : ∀ x ∈ cs, isBlank x = true := by
  induction h with
  | nil => exact hout
  | @token d r out hd _ ih =>
      obtain ⟨hs, hout⟩ := List.forall_mem_append.mp hout
      exact List.forall_mem_append.mpr ⟨hT hs d r hd, ih hout⟩
  | skip _ _ ih =>
      obtain ⟨hx, hout⟩ := List.forall_mem_cons.mp hout
      exact List.forall_mem_cons.mpr ⟨hx, ih hout⟩

/-- White space at the end of a text is left as it is. -/
theorem Pattern.Recognizes.replaceAll_append_blank (hp : p.Recognizes fun d _ => D d)
    (hD : IsSolid D) (hg : ∀ x ∈ g, isBlank x = true) (a : List Char) :
    p.replaceAll s (a ++ g) = p.replaceAll s a ++ g := by
  have hblank : p.replaceAll s g = g := by
    have hempty := hp.replaceAll_blank_append (s := s) hD hg []
    rwa [List.append_nil, replaceAll_nil, List.append_nil] at hempty
  rw [hp.replaceAll_append (hD.seam_blank hg), hblank]

/-- Texts that differ in their white space only still do when all matches are replaced. -/
theorem Pattern.Recognizes.alike (hp : p.Recognizes fun d _ => D d) (hD : IsSolid D)
    (h : Alike a b) : Alike (p.replaceAll s a) (p.replaceAll s b) := by
  obtain ⟨n, hn⟩ : ∃ n, a.length ≤ n := ⟨_, Nat.le_refl _⟩
  induction n generalizing a b with
  | zero =>
      obtain rfl := List.length_eq_zero_iff.mp (Nat.le_zero.mp hn)
      rw [h.eq_nil]
      exact .refl _
  | succ n ih =>
      by_cases htoken : ∃ d r, a = d ++ r ∧ D d
      · obtain ⟨d, r, rfl, hd⟩ := htoken
        obtain ⟨d', r', rfl, hd', hr⟩ := hD.alike d r b hd h
        have hpos := List.length_pos_iff.mpr (hp.ne_nil d r hd)
        rw [List.length_append] at hn
        rw [hp.replaceAll_token hd, hp.replaceAll_token hd']
        exact (ih hr (by omega)).append_left s
      obtain ⟨g, r, rfl, hg, hr⟩ := exists_split isBlank a
      cases g with
      | cons y g =>
          obtain ⟨g', r', rfl, hne, hg', hrest⟩ := h.exists_gap hg hr
          rw [hp.replaceAll_blank_append hD hg, hp.replaceAll_blank_append hD hg']
          rw [List.length_append, List.length_cons] at hn
          exact .gap (List.cons_ne_nil y g) hg (hne (List.cons_ne_nil y g)) hg' (ih hrest (by omega))
      | nil =>
          cases r with
          | nil =>
              rw [h.eq_nil]
              exact .refl _
          | cons x r =>
              obtain ⟨b, rfl, hrest⟩ := h.exists_cons (hr x rfl)
              have hx : ∀ d t, x :: r = d ++ t → ¬ D d := fun d t hcs hd =>
                htoken ⟨d, t, hcs, hd⟩
              have hx' : ∀ d t, x :: b = d ++ t → ¬ D d := by
                intro d t hcs hd
                obtain ⟨d', t', hcs', hd', -⟩ := hD.alike d t (x :: r) hd (hcs ▸ h.symm)
                exact hx d' t' hcs' hd'
              rw [List.nil_append, hp.replaceAll_cons hx, hp.replaceAll_cons hx']
              exact .same x (ih hrest (Nat.le_of_succ_le_succ hn))

end Testwright.Text
