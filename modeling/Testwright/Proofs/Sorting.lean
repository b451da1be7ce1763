/-!
# Sorting by descending keys

Sorting puts the elements with the largest keys first and leaves those with the same key in their
order (`ranked_mergeSort`).
-/

namespace Testwright

variable {α κ : Type} [LE κ] [DecidableLE κ] [DecidableEq κ]

/-- The second list has the elements of the first one by descending keys, and those of the same key
in the order of the first one. -/
structure Ranked (key : α → κ) (l sorted : List α) : Prop where
  perm : sorted.Perm l
  pairwise : sorted.Pairwise fun a b => key b ≤ key a
  stable : ∀ k, (sorted.filter fun a => key a = k) = l.filter fun a => key a = k

theorem ranked_mergeSort [Std.IsLinearOrder κ] (key : α → κ) (l : List α) :
    Ranked key l (l.mergeSort fun a b => key b ≤ key a) := by
  have htrans : ∀ a b c : α, decide (key b ≤ key a) = true → decide (key c ≤ key b) = true →
      decide (key c ≤ key a) = true := by
    intro a b c hab hbc
    rw [decide_eq_true_iff] at hab hbc ⊢
    exact Std.le_trans hbc hab
  have htotal : ∀ a b : α, (decide (key b ≤ key a) || decide (key a ≤ key b)) = true := by
    intro a b
    rw [Bool.or_eq_true, decide_eq_true_iff, decide_eq_true_iff]
    exact Std.le_total
  refine ⟨List.mergeSort_perm _ _, ?_, fun k => ?_⟩
  · exact (List.pairwise_mergeSort htrans htotal l).imp of_decide_eq_true
  · have hequal : (l.filter fun a => key a = k).Pairwise
        fun a b => decide (key b ≤ key a) = true := by
      apply List.pairwise_of_forall_mem_list
      intro a ha b hb
      simp only [List.mem_filter, decide_eq_true_eq] at ha hb
      rw [ha.2, hb.2, decide_eq_true_iff]
      exact Std.le_refl k
    -- the sort keeps the order of elements that do not stand the wrong way round
    have hsub := (List.sublist_mergeSort htrans htotal hequal List.filter_sublist).filter
      fun a => key a = k
    rw [List.filter_filter] at hsub
    simp only [Bool.and_self] at hsub
    refine (hsub.eq_of_length ?_).symm
    exact ((List.mergeSort_perm l _).filter _).length_eq.symm

end Testwright
