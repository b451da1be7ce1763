import Testwright.Proofs.Distinct
import Testwright.Proofs.Suite.NormalCode

/-!
# Boundary mutants

A boundary mutant differs from its parent in comments and white space only, wherever in the code the
marker stands: it has the signature of its parent, and the two are never kept together
(`boundary_mutant_redundant`).
-/

namespace Testwright

open Text Testwright.Random

/-- A comment in a row before another one makes no difference. -/
theorem normalCode_comment_rows (u : List Char) {w g : List Char} (hw : '\n' ∉ w)
    (hg : ∀ x ∈ g, isBlank x = true) (v : List Char) :
    normalCode (u ++ '/' :: '/' :: (w ++ '\n' :: (g ++ '/' :: '/' :: v))) =
      normalCode (u ++ '/' :: '/' :: v) := by
  obtain ⟨w', t, rfl, hw', ht⟩ := exists_split isInline v
  have hw' := notMem_of_isInline hw'
  have hrow : uncommented (g ++ '/' :: '/' :: (w' ++ t)) = g ++ uncommented t := by
    rw [uncommented_comment_append g hw' ht, uncommented_blank_append hg,
      uncommented_row List.not_mem_nil, List.append_nil]
  -- what is left of the rest begins with the line feed that ends the comment
  have hrest : ∀ x ∈ (uncommented t).head?, isBlank x = true := by
    cases t with
    | nil => exact fun x hx => absurd hx (Option.not_mem_none x)
    | cons x t =>
        obtain rfl : x = '\n' := by simpa [isInline] using ht x rfl
        rw [uncommented_feed_cons]
        rintro x ⟨⟩
        decide
  rw [normalCode_eq, normalCode_eq, uncommented_comment_append u hw' ht,
    uncommented_comment_append u hw (t := '\n' :: _) (fun x hx => by cases hx; decide),
    uncommented_feed_cons, hrow]
  exact plainCode_untitled_append (g := '\n' :: g)
    (List.forall_mem_cons.mpr ⟨by decide, hg⟩) hrest _

theorem normalCode_markBoundary (cs : List Char) : normalCode (markBoundary cs) = normalCode cs := by
  rw [markBoundary]
  split
  · rfl
  rcases replaceFirst_cases actMarker.toList boundaryMarker.toList cs with
    hsame | ⟨u, v, rfl, hmarked⟩
  · rw [hsame]
  · rw [hmarked]
    exact normalCode_comment_rows u (w := " Act - boundary test".toList) (g := "    ".toList)
      (by decide) (by decide) (" Act".toList ++ v)

variable {σ : Type} [WordSource σ]

/-- A boundary mutant has the signature of its parent, whatever the code of the parent is, so that
the two are never kept together. -/
theorem boundary_mutant_redundant (t : TestCase) (s : Supply σ) :
    let mutant := ((mutateBy .markBoundary t).run s).1
    mutant.signature = t.signature ∧
      ∀ tests, ¬ [t, mutant].Sublist (dropRedundant tests) ∧
        ¬ [mutant, t].Sublist (dropRedundant tests) := by
  intro mutant
  have hsignature : mutant.signature = t.signature := by
    show t.targetMethod ++ ":" ++ String.ofList
      (normalCode (String.ofList (markBoundary t.code.toList)).toList) = _
    rw [String.toList_ofList, normalCode_markBoundary]
    rfl
  have hdistinct : ∀ {a b : TestCase} {tests}, a.signature = b.signature →
      ¬ [a, b].Sublist (dropRedundant tests) := by
    intro a b tests heq hsub
    have hnodup := (nodup_keys_distinctFrom TestCase.signature {} tests).sublist
      (hsub.map TestCase.signature)
    exact (List.nodup_cons.mp hnodup).1 (List.mem_singleton.mpr heq)
  exact ⟨hsignature, fun tests => ⟨hdistinct hsignature.symm, hdistinct hsignature⟩⟩

end Testwright
