/-!
# Character ranges

A set of characters given by ascending, disjoint, inclusive ranges of code points. The tables of
the character classes are values of this type; `Ranges.has` is the only way they are read.
-/

namespace Testwright.Text

/-- Ascending, disjoint, inclusive ranges of code points. -/
abbrev Ranges := List (Nat × Nat)

/-- Whether a code point lies in one of the ranges. The scan stops at the first range that starts
above it, so characters of a low block are settled early. -/
def Ranges.has : Ranges → Nat → Bool
  | [], _ => false
  | (lo, hi) :: rest, n => if n < lo then false else if n ≤ hi then true else Ranges.has rest n

/-- Membership says that some range of the list holds the code point. -/
theorem Ranges.exists_of_has {r : Ranges} {n : Nat} (h : r.has n = true) :
    ∃ p ∈ r, p.1 ≤ n ∧ n ≤ p.2 := by
  induction r with
  | nil => simp [Ranges.has] at h
  | cons p rest ih =>
    obtain ⟨lo, hi⟩ := p
    unfold Ranges.has at h
    split at h
    · simp at h
    · split at h
      · exact ⟨(lo, hi), by simp, by simp; omega, by simpa⟩
      · obtain ⟨q, hq, hb⟩ := ih h
        exact ⟨q, by simp [hq], hb⟩

end Testwright.Text
