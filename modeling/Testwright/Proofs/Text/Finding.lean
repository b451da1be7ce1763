import Testwright.Proofs.Text.Spelling

/-!
# Finding all matches

Which matches of a pattern are found in a text, as a relation that is built from the front of the
text: a place where the pattern fails is passed over, and where it reads, the search goes on after
what was read (`Pattern.Finds`). Main statement: the search for all matches finds these
(`Pattern.Finds.findAll`).
-/

namespace Testwright.Text

namespace Pattern

/-- The matches of a pattern in a text, each with what it captures and what it leaves; the character
before the text is known. -/
inductive Finds (p : Pattern) :
    Option Char → List Char → List (List (List Char) × List Char) → Prop where
  | done {before : Option Char} (h : p.Fails ⟨before, [], 0, []⟩) : Finds p before [] []
  | skip {before : Option Char} {x : Char} {r : List Char} {l : List (List (List Char) × List Char)}
      (h : p.Fails ⟨before, x :: r, 0, []⟩) (hrest : Finds p (some x) r l) :
      Finds p before (x :: r) l
  | found {before : Option Char} {cs s : List Char} {k : List (List Char)} {c : Cursor}
      {l : List (List (List Char) × List Char)} (h : p.Reads ⟨before, cs, 0, []⟩ c)
      (hto : Cursor.ReadsTo ⟨before, cs, 0, []⟩ c s k) (hs : s ≠ [])
      (hrest : Finds p s.getLast? c.rest l) : Finds p before cs ((k.reverse, c.rest) :: l)

variable {p : Pattern} {before : Option Char} {s r cs fuel : List Char}
  {l : List (List (List Char) × List Char)}

/-- The leftmost match is the first of those that are found. -/
theorem Finds.findFrom (h : p.Finds before cs l) (skipped : List Char) :
    (l = [] ∧ p.findFrom skipped before cs = none) ∨
      ∃ f l', p.findFrom skipped before cs = some f ∧ l = (f.captures, f.rest) :: l' ∧
        ∀ b, p.Finds (lastOf f b) f.rest l' := by
  induction h generalizing skipped with
  | done h =>
      refine .inl ⟨rfl, ?_⟩
      rw [Pattern.findFrom, matchAt_of_fails h]
      rfl
  | skip h _ ih =>
      rw [findFrom_cons_of_fails h]
      exact ih _
  | @found before cs s k c l h hto hs hrest _ =>
      obtain ⟨hcs, hread, hspans⟩ := hto
      have hcaptures : c.spans.reverse.map Span.text = k.reverse := by
        rw [List.map_reverse, hspans]
        exact congrArg List.reverse (List.append_nil k)
      have htext : cs.take c.read = s := by
        change cs = s ++ c.rest at hcs
        rw [hread, hcs, Nat.zero_add, List.take_left]
      refine .inr ⟨_, l, findFrom_of_reads h, ?_, fun b => ?_⟩
      · rw [hcaptures]
      · have hlast : ∀ b', s.getLast?.or b' = s.getLast? := by
          intro b'
          rw [List.getLast?_eq_some_getLast hs, Option.some_or]
        rw [lastOf, htext, hlast]
        exact hrest

/-- All matches are found, if there is fuel for them. -/
theorem Finds.findAllFrom (h : p.Finds before cs l) (hfuel : l.length ≤ fuel.length) :
    (p.findAllFrom fuel before cs).map (fun f => (f.captures, f.rest)) = l := by
  induction fuel generalizing before cs l with
  | nil =>
      rw [List.length_eq_zero_iff.mp (Nat.le_zero.mp hfuel)]
      rfl
  | cons x fuel ih =>
      rw [Pattern.findAllFrom]
      rcases h.findFrom [] with ⟨rfl, hnone⟩ | ⟨f, l', hfound, rfl, hrest⟩
      · rw [hnone]
        rfl
      · rw [hfound]
        dsimp only
        rw [List.map_cons, ih (hrest before) (Nat.le_of_succ_le_succ hfuel)]

theorem Finds.length_le (h : p.Finds before cs l) : l.length ≤ cs.length := by
  induction h with
  | done => exact Nat.le_refl 0
  | skip _ _ ih => exact Nat.le_succ_of_le ih
  | found _ hto hs _ ih =>
      have hlength := congrArg List.length hto.1
      have hpos := List.length_pos_iff.mpr hs
      rw [List.length_append] at hlength
      simp only [List.length_cons] at hlength ⊢
      omega

/-- What a match leaves is shorter than the text. -/
theorem Finds.length_rest_lt (h : p.Finds before cs l) : ∀ f ∈ l, f.2.length < cs.length := by
  induction h with
  | done => exact fun _ hf => absurd hf List.not_mem_nil
  | skip _ _ ih => exact fun f hf => Nat.lt_succ_of_lt (ih f hf)
  | @found before cs s k c l _ hto hs _ ih =>
      have hlength := congrArg List.length hto.1
      have hpos := List.length_pos_iff.mpr hs
      rw [List.length_append] at hlength
      dsimp only at hlength
      refine List.forall_mem_cons.mpr ⟨?_, fun f hf => ?_⟩
      · dsimp only
        omega
      · have hf' := ih f hf
        omega

/-- A search of a whole text finds all matches. -/
theorem Finds.findAll (h : p.Finds none cs l) :
    (p.findAll cs).map (fun f => (f.captures, f.rest)) = l :=
  h.findAllFrom h.length_le

/-- Places where the pattern fails are passed over. -/
theorem Finds.append (hfails : ∀ u x t, s = u ++ x :: t →
      p.Fails ⟨u.getLast?.or before, x :: (t ++ r), 0, []⟩)
    (h : p.Finds (s.getLast?.or before) r l) : p.Finds before (s ++ r) l := by
  induction s generalizing before with
  | nil => exact h
  | cons x s ih =>
      refine .skip (hfails [] x s rfl) (ih ?_ ?_)
      · rintro u y t rfl
        have hlater := hfails (x :: u) y t rfl
        rw [List.getLast?_cons] at hlater
        cases hu : u.getLast? <;> rwa [hu] at hlater
      · rw [List.getLast?_cons] at h
        cases hs : s.getLast? <;> rwa [hs] at h

end Pattern

end Testwright.Text
