import Testwright.Random.Words

/-!
# The range of random choices

A number that is drawn lies in the range from which it is drawn, whatever the words are.
-/

namespace Testwright.Random

-- what is drawn is never evaluated here
attribute [local irreducible] patience

variable {σ : Type} {bits n low high : Nat}

/-- The high half of a product of a word with the range is in the range. -/
theorem drawBelow_lt (hn : 0 < n) {draw : σ → Nat × σ} (hdraw : ∀ s, (draw s).1 < Nat.pow 2 bits)
    (tries : Nat) (s : σ) : (drawBelow bits n draw tries s).1 < n := by
  induction tries generalizing s with
  | zero => exact hn
  | succ more ih =>
      rw [drawBelow]
      dsimp only
      split
      · have hproduct : (draw s).1 * n < Nat.pow 2 bits * n :=
          Nat.mul_lt_mul_of_pos_right (hdraw s) hn
        exact Nat.div_lt_of_lt_mul hproduct
      · exact ih _

variable [WordSource σ]

theorem below_lt (hn : 0 < n) (s : σ) : (below n s).1 < n :=
  drawBelow_lt hn (fun s => (draw64 s).1.toNat_lt) _ s

theorem below32_lt (hn : 0 < n) (s : σ) : (below32 n s).1 < n :=
  drawBelow_lt hn (fun s => (draw32 s).1.toNat_lt) _ s

theorem between_mem (h : low < high) (s : σ) :
    low ≤ (between low high s).1 ∧ (between low high s).1 < high := by
  have hlt : (below (high - low) s).1 < high - low := below_lt (Nat.sub_pos_of_lt h) s
  show low ≤ low + (below (high - low) s).1 ∧ low + (below (high - low) s).1 < high
  omega

theorem offset_mem (bound : Nat) (s : σ) :
    -(bound : Int) ≤ (offset bound s).1 ∧ (offset bound s).1 ≤ bound := by
  have hlt : (below (2 * bound + 1) s).1 < 2 * bound + 1 := below_lt (Nat.succ_pos _) s
  show -(bound : Int) ≤ ((below (2 * bound + 1) s).1 : Int) - bound ∧
    ((below (2 * bound + 1) s).1 : Int) - bound ≤ bound
  omega

theorem pair_lt (hn : 2 ≤ n) (s : σ) : (pair n s).1.1 < n ∧ (pair n s).1.2 < n := by
  have hfirst : (below32 (n - 1) s).1 < n - 1 := below32_lt (by omega) s
  have hsecond : (below32 n (below32 (n - 1) s).2).1 < n := below32_lt (by omega) _
  rw [pair]
  dsimp only
  split
  · exact ⟨by omega, by omega⟩
  · exact ⟨by omega, hsecond⟩

end Testwright.Random
