import Testwright.Proofs.Text.Finding
import Testwright.Proofs.Text.Search

/-!
# All matches with what is passed over

The search for all matches of a pattern as a relation that is built from the front of the text, each
match with the text that was passed over before it (`Pattern.Collects`). Main statements: a search
finds these matches (`Pattern.Collects.findAll`), and a pattern that reads something wherever it
matches has such matches in every text (`Pattern.exists_collects`).
-/

namespace Testwright.Text

/-- The matches in a text, after one more character: it is passed over before the first of them. -/
def passOver (x : Char) : List Found → List Found
  | [] => []
  | f :: l => { f with skipped := x :: f.skipped } :: l

theorem length_passOver (x : Char) (l : List Found) : (passOver x l).length = l.length := by
  cases l <;> rfl

namespace Pattern

/-- The matches of a pattern in a text; the character before the text is known. -/
inductive Collects (p : Pattern) : Option Char → List Char → List Found → Prop where
  | done {before : Option Char} (h : p.matchAt before [] = none) : Collects p before [] []
  | skip {before : Option Char} {x : Char} {r : List Char} {l : List Found}
      (h : p.matchAt before (x :: r) = none) (hrest : Collects p (some x) r l) :
      Collects p before (x :: r) (passOver x l)
  | found {before : Option Char} {cs s r : List Char} {k : List (List Char)} {l : List Found}
      (h : p.matchAt before cs = some (s, k, r)) (hs : s ≠ [])
      (hrest : Collects p s.getLast? r l) : Collects p before cs (⟨[], s, k, r⟩ :: l)

variable {p : Pattern} {before : Option Char} {cs s fuel : List Char} {l : List Found}

/-! ## The search -/

/-- The leftmost match is the first of them. -/
theorem Collects.findFrom (h : p.Collects before cs l) (skipped : List Char) :
    (l = [] ∧ p.findFrom skipped before cs = none) ∨
      ∃ f l', l = f :: l' ∧
        p.findFrom skipped before cs = some { f with skipped := skipped.reverse ++ f.skipped } ∧
        ∀ b, p.Collects (lastOf f b) f.rest l' := by
  induction h generalizing skipped with
  | done h =>
      refine .inl ⟨rfl, ?_⟩
      rw [Pattern.findFrom, h]
      rfl
  | @skip _ x r l h _ ih =>
      rw [Pattern.findFrom, h]
      rcases ih (x :: skipped) with ⟨rfl, hnone⟩ | ⟨f, l', rfl, hfound, hrest⟩
      · exact .inl ⟨rfl, hnone⟩
      · refine .inr ⟨_, l', rfl, ?_, fun b => ?_⟩
        · simpa using hfound
        · have hlast := hrest (some x)
          have hsame : lastOf { f with skipped := x :: f.skipped } b = lastOf f (some x) := by
            simp only [lastOf, List.getLast?_cons]
            cases f.skipped.getLast? <;> rfl
          rwa [hsame]
  | @found before cs s r k l h hs hrest _ =>
      refine .inr ⟨_, l, rfl, ?_, fun b => ?_⟩
      · cases cs with
        | nil =>
            rw [Pattern.findFrom, h]
            simp
        | cons x r =>
            rw [Pattern.findFrom, h]
            simp
      · have hlast : lastOf ⟨[], s, k, r⟩ b = s.getLast? := by
          rw [lastOf, List.getLast?_eq_some_getLast hs, Option.some_or]
        rwa [hlast]

theorem Collects.findAllFrom (h : p.Collects before cs l) (hfuel : l.length ≤ fuel.length) :
    p.findAllFrom fuel before cs = l := by
  induction fuel generalizing before cs l with
  | nil =>
      rw [List.length_eq_zero_iff.mp (Nat.le_zero.mp hfuel)]
      rfl
  | cons x fuel ih =>
      rw [Pattern.findAllFrom]
      rcases h.findFrom [] with ⟨rfl, hnone⟩ | ⟨f, l', rfl, hfound, hrest⟩
      · rw [hnone]
      · rw [hfound]
        exact congrArg (f :: ·) (ih (hrest before) (Nat.le_of_succ_le_succ hfuel))

/-- What is passed over and what is matched stand in the text, one after another. -/
theorem Collects.prefix_passed (h : p.Collects before cs l) : l.flatMap Found.passed <+: cs := by
  induction h with
  | done => exact List.prefix_rfl
  | @skip _ x r l _ _ ih =>
      cases l with
      | nil => exact List.nil_prefix
      | cons f l => exact List.cons_prefix_cons.mpr ⟨rfl, ih⟩
  | @found before cs s r k l h _ _ ih =>
      rw [eq_append_of_matchAt h]
      exact (List.prefix_append_right_inj s).mpr ih

theorem Collects.length_le (h : p.Collects before cs l) : l.length ≤ cs.length := by
  induction h with
  | done => exact Nat.le_refl 0
  | skip _ _ ih =>
      rw [length_passOver]
      exact Nat.le_succ_of_le ih
  | @found before cs s r k l h hs _ ih =>
      have hlength := congrArg List.length (eq_append_of_matchAt h)
      have hpos := List.length_pos_iff.mpr hs
      rw [List.length_append] at hlength
      simp only [List.length_cons] at hlength ⊢
      omega

/-- A search of a whole text finds all matches. -/
theorem Collects.findAll (h : p.Collects none cs l) : p.findAll cs = l :=
  h.findAllFrom h.length_le

/-! ## There are such matches -/

/-- The pattern reads something wherever it matches. -/
def Consumes (p : Pattern) : Prop :=
  ∀ before cs m, p.matchAt before cs = some m → m.1 ≠ []

theorem exists_collects (hp : p.Consumes) (before : Option Char) (cs : List Char) :
    ∃ l, p.Collects before cs l := by
  obtain ⟨n, hn⟩ : ∃ n, cs.length ≤ n := ⟨_, Nat.le_refl _⟩
  induction n generalizing before cs with
  | zero =>
      obtain rfl := List.length_eq_zero_iff.mp (Nat.le_zero.mp hn)
      cases hm : p.matchAt before [] with
      | none => exact ⟨[], .done hm⟩
      | some m =>
          have hnil := (List.append_eq_nil_iff.mp (eq_append_of_matchAt hm).symm).1
          exact absurd hnil (hp _ _ _ hm)
  | succ n ih =>
      cases hm : p.matchAt before cs with
      | some m =>
          obtain ⟨s, k, r⟩ := m
          have hs : s ≠ [] := hp _ _ _ hm
          have hlength := congrArg List.length (eq_append_of_matchAt hm)
          have hpos := List.length_pos_iff.mpr hs
          rw [List.length_append] at hlength
          simp only at hlength
          obtain ⟨l, hl⟩ := ih s.getLast? r (by omega)
          exact ⟨_, .found hm hs hl⟩
      | none =>
          cases cs with
          | nil => exact ⟨[], .done hm⟩
          | cons x r =>
              obtain ⟨l, hl⟩ := ih (some x) r (Nat.le_of_succ_le_succ hn)
              exact ⟨_, .skip hm hl⟩

/-! ## Matches without what is passed over -/

theorem fails_of_matchAt_eq_none (h : p.matchAt before cs = none) :
    p.Fails ⟨before, cs, 0, []⟩ := by
  rw [matchAt, Option.map_eq_none_iff, run_eq_findSome?] at h
  refine List.eq_nil_iff_forall_not_mem.mpr fun c hc => ?_
  have hnone := List.findSome?_eq_none_iff.mp h c hc
  cases hnone

theorem exists_reads_of_matchAt {m : List Char × List (List Char) × List Char}
    (h : p.matchAt before cs = some m) :
    ∃ c s k, p.Reads ⟨before, cs, 0, []⟩ c ∧ Cursor.ReadsTo ⟨before, cs, 0, []⟩ c s k ∧
      m = (s, k.reverse, c.rest) := by
  obtain ⟨c, hrun, rfl⟩ := Option.map_eq_some_iff.mp h
  have hreads : p.Reads ⟨before, cs, 0, []⟩ c := reads_iff_run?.mpr hrun
  obtain ⟨s, k, hto⟩ := hreads.exists_readsTo
  have hcs : cs = s ++ c.rest := hto.1
  have htext : cs.take c.read = s := by
    rw [hto.2.1, Nat.zero_add, hcs]
    exact List.take_left
  have hcaptures : c.spans.reverse.map Span.text = k.reverse := by
    rw [List.map_reverse, hto.2.2]
    exact congrArg List.reverse (List.append_nil k)
  exact ⟨c, s, k, hreads, hto, by rw [htext, hcaptures]⟩

/-- What is read is one of the texts of the pattern. -/
theorem Reads.spells {c c' : Cursor} {k : List (List Char)} (h : p.Reads c c')
    (hto : c.ReadsTo c' s k) : p.Spells s k := by
  obtain ⟨later, hends⟩ := List.head?_eq_some_iff.mp h
  have hmem : c' ∈ p.ends c := by
    rw [hends]
    exact List.mem_cons_self
  obtain ⟨s', k', hs', hto'⟩ := each_spells p c c' hmem
  obtain rfl : s' = s := List.append_cancel_right (hto'.1.symm.trans hto.1)
  obtain rfl : k' = k := List.append_cancel_right (hto'.2.2.symm.trans hto.2.2)
  exact hs'

theorem consumes_of_spells (h : ∀ s k, p.Spells s k → s ≠ []) : p.Consumes := by
  intro before cs m hm
  obtain ⟨c, s, k, hreads, hto, rfl⟩ := exists_reads_of_matchAt hm
  exact h s k (hreads.spells hto)

/-- The same matches are found when nothing is said about what is passed over. -/
theorem Collects.finds (h : p.Collects before cs l) :
    p.Finds before cs (l.map fun f => (f.captures, f.rest)) := by
  induction h with
  | done h => exact .done (fails_of_matchAt_eq_none h)
  | @skip _ x r l h _ ih =>
      have hsame : (passOver x l).map (fun f => (f.captures, f.rest)) =
          l.map fun f => (f.captures, f.rest) := by
        cases l <;> rfl
      rw [hsame]
      exact .skip (fails_of_matchAt_eq_none h) ih
  | @found before cs s r k l h hs _ ih =>
      obtain ⟨c, s', k', hreads, hto, hm⟩ := exists_reads_of_matchAt h
      cases hm
      exact .found hreads hto hs ih

theorem exists_finds (hp : p.Consumes) (before : Option Char) (cs : List Char) :
    ∃ l, p.Finds before cs l := by
  obtain ⟨l, hl⟩ := exists_collects hp before cs
  exact ⟨_, hl.finds⟩

end Pattern

end Testwright.Text
