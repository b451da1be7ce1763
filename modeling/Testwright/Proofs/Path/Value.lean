import Testwright.Path.Value

/-!
# The order of values

The order of values is linear, so that a list without repetition is kept in one order only, and
putting a value into such a list keeps it one (`pairwise_insertInto`).
-/

namespace Testwright

namespace Value

/-! ## The order -/

theorem before_of_rank_lt {a b : Value} (h : a.rank < b.rank) : a.before b = true := by
  cases a <;> cases b <;> simp_all [before, rank]

theorem rank_le_of_before {a b : Value} (h : a.before b = true) : a.rank ≤ b.rank := by
  cases a <;> cases b <;> simp_all [before, rank]

theorem before_irrefl (a : Value) : a.before a = false := by
  cases a <;> simp [before]

theorem before_trans {a b c : Value} (hab : a.before b = true) (hbc : b.before c = true) :
    a.before c = true := by
  have hrab := rank_le_of_before hab
  have hrbc := rank_le_of_before hbc
  by_cases h : a.rank < c.rank
  · exact before_of_rank_lt h
  · -- all three are of one kind
    have h1 : a.rank = b.rank := by omega
    have h2 : b.rank = c.rank := by omega
    cases a <;> cases b <;> simp only [rank] at h1 <;> try omega
    all_goals cases c <;> simp only [rank] at h2 <;> try omega
    · simp_all [before]
    · simp only [before, decide_eq_true_eq, Int64.lt_iff_toInt_lt] at hab hbc ⊢
      omega
    · simp only [before, decide_eq_true_eq] at hab hbc ⊢
      exact String.lt_trans hab hbc
    · simp only [before, decide_eq_true_eq] at hab hbc ⊢
      exact String.lt_trans hab hbc

theorem before_trichotomy {a b : Value} (hab : a.before b = false) (hne : a ≠ b) :
    b.before a = true := by
  by_cases hlt : b.rank < a.rank
  · exact before_of_rank_lt hlt
  · have hle : ¬ a.rank < b.rank := fun h => by simp [before_of_rank_lt h] at hab
    have h : a.rank = b.rank := by omega
    -- both are of one kind
    cases a <;> cases b <;> simp only [rank] at h <;> try omega
    · exact absurd rfl hne
    · exact absurd rfl hne
    · rename_i a b
      cases a <;> cases b <;> simp_all [before]
    · simp only [before, decide_eq_true_eq, decide_eq_false_iff_not, ne_eq, int.injEq] at hab hne ⊢
      exact Int64.lt_of_le_of_ne (Int64.not_lt.mp hab) (Ne.symm hne)
    · simp only [before, decide_eq_true_eq, decide_eq_false_iff_not, ne_eq, str.injEq] at hab hne ⊢
      exact Std.lt_of_le_of_ne (Std.not_lt.mp hab) (Ne.symm hne)
    · simp only [before, decide_eq_true_eq, decide_eq_false_iff_not, ne_eq,
        symbol.injEq] at hab hne ⊢
      exact Std.lt_of_le_of_ne (Std.not_lt.mp hab) (Ne.symm hne)

/-! ## Insertion -/

theorem mem_insertInto {v w : Value} {l : List Value} :
    w ∈ v.insertInto l ↔ w = v ∨ w ∈ l := by
  induction l with
  | nil => simp [insertInto]
  | cons u rest ih =>
      rw [insertInto]
      split
      · simp
      · split
        · rename_i heq
          subst heq
          simp
        · simp only [List.mem_cons, ih, or_left_comm]

/-- Insertion keeps the ascending order. -/
theorem pairwise_insertInto {v : Value} {l : List Value}
    (h : l.Pairwise fun a b => a.before b = true) :
    (v.insertInto l).Pairwise fun a b => a.before b = true := by
  induction l with
  | nil => simp [insertInto]
  | cons u rest ih =>
      obtain ⟨hu, hrest⟩ := List.pairwise_cons.mp h
      rw [insertInto]
      split
      · rename_i hvu
        refine List.pairwise_cons.mpr ⟨fun w hw => ?_, h⟩
        rcases List.mem_cons.mp hw with rfl | hw
        · exact hvu
        · exact before_trans hvu (hu w hw)
      · split
        · exact h
        · rename_i hvu hne
          refine List.pairwise_cons.mpr ⟨fun w hw => ?_, ih hrest⟩
          rcases mem_insertInto.mp hw with rfl | hw
          · exact before_trichotomy (by simpa using hvu) hne
          · exact hu w hw

end Value

end Testwright
