import Testwright.Proofs.Text.Spelling

/-!
# Matches are pieces of the text

A pattern reads on from the place where it begins, so what was passed over, what was matched and
what is left make up the text in which it was looked for. Main statements: this is so for the
leftmost match (`Pattern.find_eq_some`) and for each of all the matches, before which the earlier
ones stand (`Pattern.findAll_getElem?_eq_some`).
-/

namespace Testwright.Text

namespace Cursor

/-- The second place comes after the first one, or is the same: what lies between was read. -/
def Precedes (c c' : Cursor) : Prop :=
  ∃ s, c.rest = s ++ c'.rest ∧ c'.read = c.read + s.length

end Cursor

namespace Pattern

variable {p : Pattern} {before : Option Char} {skipped cs : List Char} {f : Found}

/-- Every match of a pattern ends after the place where it begins, or there. -/
theorem each_precedes (p : Pattern) (c : Cursor) : p.Each c c.Precedes :=
  (each_spells p c).mono fun _ ⟨s, _, _, hrest, hread, _⟩ => ⟨s, hrest, hread⟩

/-- A text begins with the match, and goes on with what is left. -/
theorem eq_append_of_matchAt {m : List Char × List (List Char) × List Char}
    (h : p.matchAt before cs = some m) : cs = m.1 ++ m.2.2 := by
  rw [matchAt, run_eq_findSome?] at h
  obtain ⟨c, hrun, rfl⟩ := Option.map_eq_some_iff.mp h
  obtain ⟨c', hc', hsome⟩ := List.exists_of_findSome?_eq_some hrun
  cases hsome
  obtain ⟨s, hrest, hread⟩ := each_precedes p _ c hc'
  change cs = s ++ c.rest at hrest
  rw [Nat.zero_add] at hread
  show cs = cs.take c.read ++ c.rest
  rw [hread, hrest, List.take_left]

theorem findFrom_eq_some (h : p.findFrom skipped before cs = some f) :
    skipped.reverse ++ cs = f.passed ++ f.rest := by
  have hhere : ∀ {skipped before cs} {m : List Char × List (List Char) × List Char},
      p.matchAt before cs = some m →
        skipped ++ cs = Found.passed ⟨skipped, m.1, m.2.1, m.2.2⟩ ++ m.2.2 := by
    intro skipped before cs m hm
    rw [Found.passed, List.append_assoc, ← eq_append_of_matchAt hm]
  induction cs generalizing skipped before with
  | nil =>
      rw [findFrom] at h
      obtain ⟨m, hm, rfl⟩ := Option.map_eq_some_iff.mp h
      exact hhere hm
  | cons x r ih =>
      rw [findFrom] at h
      cases hm : p.matchAt before (x :: r) with
      | some m =>
          rw [hm] at h
          cases h
          exact hhere hm
      | none =>
          rw [hm] at h
          rw [← ih h, List.reverse_cons, List.append_assoc, List.singleton_append]

/-- A text is what a search passed over up to the end of its match, and what is left. -/
theorem find_eq_some (h : p.find cs = some f) : cs = f.passed ++ f.rest := findFrom_eq_some h

theorem findAllFrom_getElem?_eq_some {fuel : List Char} {k : Nat}
    (h : (p.findAllFrom fuel before cs)[k]? = some f) :
    cs = ((p.findAllFrom fuel before cs).take k).flatMap Found.passed ++ f.passed ++ f.rest := by
  induction fuel generalizing before cs k with
  | nil =>
      rw [findAllFrom, List.getElem?_nil] at h
      cases h
  | cons x more ih =>
      rw [findAllFrom] at h ⊢
      cases hfirst : p.findFrom [] before cs with
      | none =>
          rw [hfirst] at h
          cases h
      | some first =>
          have hpieces : cs = first.passed ++ first.rest := findFrom_eq_some hfirst
          rw [hfirst] at h
          cases k with
          | zero =>
              cases h
              exact hpieces
          | succ k =>
              have hlater := ih h
              simp only [List.take_succ_cons, List.flatMap_cons, List.append_assoc] at hlater ⊢
              rw [← hlater]
              exact hpieces

/-- Before each of the matches of a pattern stand the earlier ones, with what was passed over before
each of them. -/
theorem findAll_getElem?_eq_some {k : Nat} (h : (p.findAll cs)[k]? = some f) :
    cs = ((p.findAll cs).take k).flatMap Found.passed ++ f.passed ++ f.rest :=
  findAllFrom_getElem?_eq_some h

end Pattern

end Testwright.Text
