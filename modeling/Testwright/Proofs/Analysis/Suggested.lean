import Mathlib.Data.List.Nodup
import Testwright.Analysis
import Testwright.Proofs.NameMap

/-!
# Suggested inputs

The values that are suggested for a variable are gathered path by path. Main statement: they are
exactly those that feasible paths bind it to, each once, in the order of the first feasible paths
that do (`suggestedInputs_exact`).
-/

namespace Testwright

/-! ## What a path offers -/

/-- Whether a path is feasible and binds a variable to a value. -/
def Path.offers (p : Path) (x : String) (v : Value) : Bool :=
  p.feasible && p.inputs.find? x == some v

/-- The place of the first path that offers a value for a variable. -/
def firstOffer (paths : List Path) (x : String) (v : Value) : Nat :=
  paths.findIdx (·.offers x v)

section

variable {paths : List Path} {p : Path} {x : String} {v : Value}

theorem Path.offers_iff : p.offers x v = true ↔ p.feasible = true ∧ p.inputs.find? x = some v := by
  rw [offers, Bool.and_eq_true, beq_iff_eq]

theorem firstOffer_append (h : ∃ q ∈ paths, q.offers x v = true) :
    firstOffer (paths ++ [p]) x v = firstOffer paths x v := by
  rw [firstOffer, List.findIdx_append, if_pos (List.findIdx_lt_length_of_exists h)]
  rfl

theorem firstOffer_append_of_new (h : ¬ ∃ q ∈ paths, q.offers x v = true)
    (hv : p.offers x v = true) : firstOffer (paths ++ [p]) x v = paths.length := by
  have hnone : paths.findIdx (·.offers x v) = paths.length := by
    refine List.findIdx_eq_length_of_false fun q hq => ?_
    exact Bool.eq_false_iff.mpr fun hoffers => h ⟨q, hq, hoffers⟩
  rw [firstOffer, List.findIdx_append, hnone, if_neg (Nat.lt_irrefl _), List.findIdx_cons, hv]
  exact Nat.zero_add _

end

/-! ## Gathering -/

namespace Analysis

theorem mem_addNew {v w : Value} {found : Option (List Value)} :
    w ∈ addNew v found ↔ w ∈ found.getD [] ∨ w = v := by
  rw [addNew]
  split
  · rename_i hold
    exact ⟨.inl, fun h => h.elim id fun heq => heq ▸ List.contains_iff_mem.mp hold⟩
  · rw [List.mem_append, List.mem_singleton]

theorem head?_addNew (v : Value) (found : Option (List Value)) :
    (addNew v found).head? = (found.getD []).head?.or (some v) := by
  rw [addNew]
  split
  · rename_i hold
    obtain ⟨w, rest, hw⟩ := List.exists_cons_of_ne_nil
      (List.ne_nil_of_mem (List.contains_iff_mem.mp hold))
    rw [hw]
    rfl
  · exact List.head?_append

end Analysis

/-- What is found for a variable when some paths have been gone through. -/
structure Gathered (x : String) (paths : List Path) (found : Option (List Value)) : Prop where
  isSome_iff : found.isSome = true ↔ ∃ p ∈ paths, ∃ v, p.offers x v = true
  mem_iff : ∀ v, v ∈ found.getD [] ↔ ∃ p ∈ paths, p.offers x v = true
  ordered : (found.getD []).Pairwise fun v w => firstOffer paths x v < firstOffer paths x w
  head?_eq : (found.getD []).head? =
    (paths.filter Path.feasible).findSome? fun p => p.inputs.find? x

namespace Gathered

variable {x : String} {paths : List Path} {p : Path} {v : Value} {found : Option (List Value)}

theorem nil : Gathered x [] none where
  isSome_iff := by simp
  mem_iff := by simp
  ordered := .nil
  head?_eq := rfl

theorem nodup (h : Gathered x paths found) : (found.getD []).Nodup := by
  refine h.ordered.imp fun hlt heq => ?_
  rw [heq] at hlt
  exact Nat.lt_irrefl _ hlt

/-- One more path does not change the order of what was found before. -/
theorem ordered_append (h : Gathered x paths found) (p : Path) :
    (found.getD []).Pairwise fun v w =>
      firstOffer (paths ++ [p]) x v < firstOffer (paths ++ [p]) x w := by
  refine h.ordered.imp_of_mem fun hv hw hlt => ?_
  rw [firstOffer_append ((h.mem_iff _).mp hv), firstOffer_append ((h.mem_iff _).mp hw)]
  exact hlt

/-- A path that offers nothing for the variable, feasible or not, adds nothing. -/
theorem skip (h : Gathered x paths found) (hnone : ∀ v, p.offers x v = false) :
    Gathered x (paths ++ [p]) found where
  isSome_iff := by simp [h.isSome_iff, or_and_right, exists_or, hnone]
  mem_iff := fun v => by simp [h.mem_iff v, or_and_right, exists_or, hnone]
  ordered := h.ordered_append p
  head?_eq := by
    have hlast : ([p].filter Path.feasible).findSome? (fun q => q.inputs.find? x) = none := by
      rw [List.findSome?_eq_none_iff]
      intro q hq
      obtain ⟨hmem, hfeasible⟩ := List.mem_filter.mp hq
      cases List.mem_singleton.mp hmem
      refine Option.eq_none_iff_forall_ne_some.mpr fun v hv => ?_
      exact Bool.eq_false_iff.mp (hnone v) (Path.offers_iff.mpr ⟨hfeasible, hv⟩)
    rw [List.filter_append, List.findSome?_append, hlast, Option.or_none, h.head?_eq]

/-- A path that offers a value adds it at the end, unless it was found before. -/
theorem add (h : Gathered x paths found) (hv : p.offers x v = true) :
    Gathered x (paths ++ [p]) (some (Analysis.addNew v found)) := by
  obtain ⟨hfeasible, hbound⟩ := Path.offers_iff.mp hv
  refine ⟨?_, fun w => ?_, ?_, ?_⟩
  · exact ⟨fun _ => ⟨p, List.mem_append_right _ List.mem_cons_self, v, hv⟩, fun _ => rfl⟩
  · have hlast : p.offers x w = true ↔ w = v := by
      rw [Path.offers_iff, hbound, Option.some_inj]
      exact ⟨fun hw => hw.2.symm, fun hw => ⟨hfeasible, hw.symm⟩⟩
    rw [Option.getD_some, Analysis.mem_addNew, h.mem_iff, ← hlast]
    simp [or_and_right, exists_or]
  · rw [Option.getD_some, Analysis.addNew]
    split
    · exact h.ordered_append p
    · rename_i hnew
      have hfirst : ¬ ∃ q ∈ paths, q.offers x v = true := fun hq =>
        hnew (List.contains_iff_mem.mpr ((h.mem_iff v).mpr hq))
      refine List.pairwise_append.mpr ⟨h.ordered_append p, List.pairwise_singleton _ _, ?_⟩
      intro w hw v' hv'
      cases List.mem_singleton.mp hv'
      have hold := (h.mem_iff w).mp hw
      rw [firstOffer_append hold, firstOffer_append_of_new hfirst hv]
      exact List.findIdx_lt_length_of_exists hold
  · have hlast : ([p].filter Path.feasible).findSome? (fun q => q.inputs.find? x) = some v := by
      rw [List.filter_cons_of_pos hfeasible, List.findSome?_cons, hbound]
    rw [Option.getD_some, Analysis.head?_addNew, List.filter_append, List.findSome?_append, hlast,
      h.head?_eq]

end Gathered

/-! ## The table of suggested inputs -/

/-- What one path leaves in the table. -/
theorem find?_foldl_addNew (inputs : Bindings) (m : NameMap (List Value)) (x : String) :
    (inputs.entries.foldl (fun m e => m.upsert e.1 (Analysis.addNew e.2)) m).find? x =
      match inputs.find? x with
      | none => m.find? x
      | some v => some (Analysis.addNew v (m.find? x)) := by
  obtain ⟨l, hl⟩ := inputs
  show _ = match l.lookup x with
    | none => m.find? x
    | some v => some (Analysis.addNew v (m.find? x))
  induction l generalizing m with
  | nil => rfl
  | cons e rest ih =>
      obtain ⟨k, v⟩ := e
      obtain ⟨hk, hrest⟩ := List.pairwise_cons.mp hl
      rw [List.foldl_cons, ih _ hrest, lookup_cons_eq_ite, NameMap.find?_upsert]
      by_cases hx : x = k
      · -- there is no further entry at the name
        subst hx
        rw [lookup_of_forall_lt hk, if_pos rfl, if_pos rfl]
      · rw [if_neg hx, if_neg hx]

/-- The table is gathered along the paths, each of which adds its inputs if it is feasible. -/
theorem gathered_foldl {x : String} (rest : List Path) {done : List Path}
    {m : NameMap (List Value)} (h : Gathered x done (m.find? x)) :
    Gathered x (done ++ rest)
      ((((rest.filter Path.feasible).flatMap fun p => p.inputs.entries).foldl
        (fun m e => m.upsert e.1 (Analysis.addNew e.2)) m).find? x) := by
  induction rest generalizing done m with
  | nil => simpa using h
  | cons p rest ih =>
      rw [List.append_cons]
      cases hfeasible : p.feasible with
      | false =>
          rw [List.filter_cons_of_neg (Bool.eq_false_iff.mp hfeasible)]
          exact ih (h.skip fun v => by rw [Path.offers, hfeasible, Bool.false_and])
      | true =>
          rw [List.filter_cons_of_pos hfeasible, List.flatMap_cons, List.foldl_append]
          refine ih ?_
          rw [find?_foldl_addNew]
          cases hbound : p.inputs.find? x with
          | none => exact h.skip fun v => by rw [Path.offers, hbound]; exact Bool.and_false _
          | some v => exact h.add (Path.offers_iff.mpr ⟨hfeasible, hbound⟩)

theorem gathered_suggestedInputs (a : Analysis) (x : String) :
    Gathered x a.paths (a.suggestedInputs.find? x) := by
  have hempty : Gathered x [] ((NameMap.empty : NameMap (List Value)).find? x) := .nil
  exact gathered_foldl a.paths hempty

/-- **Suggested inputs are exactly the values of feasible paths**, for any solver. A variable has
suggested values if some feasible path binds it. They are the values that feasible paths bind it to,
each once, in the order of the first feasible paths that do, so that the first one comes from the
first feasible path that binds the variable. -/
theorem suggestedInputs_exact (s : Solver) (method body x : String) :
    let a := analyze s method body
    let values := (a.suggestedInputs.find? x).getD []
    (x ∈ a.suggestedInputs.keys ↔ ∃ p ∈ a.paths, ∃ v, p.offers x v = true) ∧
      values.Nodup ∧
      (∀ v, v ∈ values ↔ ∃ p ∈ a.paths, p.offers x v = true) ∧
      (values.Pairwise fun v w => firstOffer a.paths x v < firstOffer a.paths x w) ∧
      values.head? = a.feasible.findSome? fun p => p.inputs.find? x := by
  intro a values
  have h := gathered_suggestedInputs a x
  refine ⟨?_, h.nodup, h.mem_iff, h.ordered, h.head?_eq⟩
  rw [NameMap.mem_keys_iff, ← Option.isSome_iff_exists, h.isSome_iff]

end Testwright
