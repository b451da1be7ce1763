import Mathlib.Data.List.Nodup
import Testwright.Distinct

/-!
# What is kept of a list without repetitions

The elements that bring a new key are in the order of the list, no two of them have the same key
(`nodup_keys_distinctFrom`), and the key of an element that is left out was met before it
(`exists_earlier_of_notMem`).
-/

namespace Testwright

variable {α : Type} {key : α → String} {seen : Std.HashSet String} {l l₁ l₂ : List α}

theorem distinctFrom_sublist (key : α → String) (seen : Std.HashSet String) (l : List α) :
    (distinctFrom key seen l).Sublist l := by
  induction l generalizing seen with
  | nil => exact .slnil
  | cons a rest ih =>
      rw [distinctFrom]
      split
      · exact (ih seen).cons a
      · exact (ih _).cons_cons a

theorem key_notMem_of_mem_distinctFrom {a : α} (h : a ∈ distinctFrom key seen l) :
    key a ∉ seen := by
  induction l generalizing seen with
  | nil => cases h
  | cons b rest ih =>
      rw [distinctFrom] at h
      split at h
      · exact ih h
      · rename_i hnew
        rcases List.mem_cons.mp h with rfl | hrest
        · exact hnew
        · intro hseen
          exact ih hrest (Std.HashSet.mem_insert.mpr (.inr hseen))

theorem nodup_keys_distinctFrom (key : α → String) (seen : Std.HashSet String) (l : List α) :
    ((distinctFrom key seen l).map key).Nodup := by
  induction l generalizing seen with
  | nil => exact .nil
  | cons a rest ih =>
      rw [distinctFrom]
      split
      · exact ih seen
      · refine List.nodup_cons.mpr ⟨?_, ih _⟩
        -- the key of the first element counts as seen in the rest
        intro hmem
        obtain ⟨b, hb, hkey⟩ := List.mem_map.mp hmem
        exact key_notMem_of_mem_distinctFrom hb (Std.HashSet.mem_insert.mpr (by simp [hkey]))

/-- Where no key repeats, all elements stay whose keys were not seen before. -/
theorem distinctFrom_eq_filter (h : (l.map key).Nodup) :
    distinctFrom key seen l = l.filter fun a => !seen.contains (key a) := by
  induction l generalizing seen with
  | nil => rfl
  | cons a rest ih =>
      obtain ⟨hfirst, hrest⟩ := List.nodup_cons.mp h
      rw [distinctFrom, List.filter_cons]
      cases hseen : seen.contains (key a) with
      | true => exact ih hrest
      | false =>
          have hcongr : ∀ b ∈ rest, (!(seen.insert (key a)).contains (key b)) =
              !seen.contains (key b) := by
            intro b hb
            have hne : key a ≠ key b := fun heq => hfirst (List.mem_map.mpr ⟨b, hb, heq.symm⟩)
            simp [Std.HashSet.contains_insert, hne]
          show a :: distinctFrom key (seen.insert (key a)) rest = a :: _
          rw [ih hrest, List.filter_congr hcongr]

/-- The keys that are kept are those of the list that were not seen before. -/
theorem mem_keys_distinctFrom {k : String} :
    k ∈ (distinctFrom key seen l).map key ↔ k ∈ l.map key ∧ k ∉ seen := by
  induction l generalizing seen with
  | nil => simp [distinctFrom]
  | cons a rest ih =>
      rw [distinctFrom, List.map_cons, List.mem_cons]
      cases hseen : seen.contains (key a) with
      | true =>
          have hmem : key a ∈ seen := Std.HashSet.mem_iff_contains.mpr hseen
          rw [if_pos rfl, ih]
          constructor
          · exact fun h => ⟨.inr h.1, h.2⟩
          · rintro ⟨rfl | hrest, hnew⟩
            · exact absurd hmem hnew
            · exact ⟨hrest, hnew⟩
      | false =>
          have hnew : key a ∉ seen := fun hmem => by
            rw [Std.HashSet.mem_iff_contains, hseen] at hmem
            cases hmem
          rw [if_neg Bool.false_ne_true, List.map_cons, List.mem_cons, ih, Std.HashSet.mem_insert,
            beq_iff_eq]
          constructor
          · rintro (rfl | ⟨hrest, hout⟩)
            · exact ⟨.inl rfl, hnew⟩
            · exact ⟨.inr hrest, fun hmem => hout (.inr hmem)⟩
          · rintro ⟨rfl | hrest, hout⟩
            · exact .inl rfl
            · by_cases heq : k = key a
              · exact .inl heq
              · exact .inr ⟨hrest, fun hmem => hmem.elim (fun h => heq h.symm) hout⟩

/-- The second part of a list is gone through with the keys of the first part as seen. -/
theorem distinctFrom_append (key : α → String) (seen : Std.HashSet String) (l₁ l₂ : List α) :
    ∃ seen' : Std.HashSet String, (∀ k, k ∈ seen' ↔ k ∈ seen ∨ k ∈ l₁.map key) ∧
      distinctFrom key seen (l₁ ++ l₂) =
        distinctFrom key seen l₁ ++ distinctFrom key seen' l₂ := by
  induction l₁ generalizing seen with
  | nil => exact ⟨seen, fun k => by simp, rfl⟩
  | cons a rest ih =>
      rw [List.cons_append, distinctFrom, distinctFrom]
      cases hseen : seen.contains (key a) with
      | true =>
          obtain ⟨seen', hkeys, hsplit⟩ := ih seen
          refine ⟨seen', fun k => ?_, hsplit⟩
          have hmem : key a ∈ seen := Std.HashSet.mem_iff_contains.mpr hseen
          rw [hkeys, List.map_cons, List.mem_cons]
          constructor
          · exact fun h => h.imp_right .inr
          · rintro (hold | rfl | hrest)
            · exact .inl hold
            · exact .inl hmem
            · exact .inr hrest
      | false =>
          obtain ⟨seen', hkeys, hsplit⟩ := ih (seen.insert (key a))
          refine ⟨seen', fun k => ?_, congrArg (a :: ·) hsplit⟩
          rw [hkeys, Std.HashSet.mem_insert, beq_iff_eq, List.map_cons, List.mem_cons, or_assoc,
            or_left_comm, eq_comm]

/-- An element that is left out has the key of one that is kept and stands before it. -/
theorem exists_earlier_of_notMem {a : α} (h : a ∉ distinct key (l₁ ++ a :: l₂)) :
    ∃ b ∈ l₁, b ∈ distinct key (l₁ ++ a :: l₂) ∧ key b = key a := by
  obtain ⟨seen', hkeys, hsplit⟩ := distinctFrom_append key {} l₁ (a :: l₂)
  rw [distinct, hsplit] at h ⊢
  have hseen : key a ∈ seen' := by
    by_contra hnew
    refine h (List.mem_append_right _ ?_)
    rw [distinctFrom, if_neg fun hmem => hnew (Std.HashSet.mem_iff_contains.mpr hmem)]
    exact List.mem_cons_self
  have hkey : key a ∈ (distinctFrom key {} l₁).map key :=
    mem_keys_distinctFrom.mpr ⟨((hkeys _).mp hseen).resolve_left Std.HashSet.not_mem_empty,
      Std.HashSet.not_mem_empty⟩
  obtain ⟨b, hb, heq⟩ := List.mem_map.mp hkey
  exact ⟨b, (distinctFrom_sublist _ _ _).subset hb, List.mem_append_left _ hb, heq⟩

/-- What is kept of the first part of a list does not depend on the rest. -/
theorem distinct_prefix (key : α → String) (l₁ l₂ : List α) :
    distinct key l₁ <+: distinct key (l₁ ++ l₂) := by
  obtain ⟨seen', -, hsplit⟩ := distinctFrom_append key {} l₁ l₂
  exact ⟨distinctFrom key seen' l₂, hsplit.symm⟩

/-- The first element is kept. -/
theorem head?_distinct (key : α → String) (a : α) (l : List α) :
    (distinct key (a :: l)).head? = some a := by
  rw [distinct, distinctFrom, if_neg (by simp)]
  rfl

/-- Where no key repeats, all is kept. -/
theorem distinct_eq_self (h : (l.map key).Nodup) : distinct key l = l := by
  rw [distinct, distinctFrom_eq_filter h, List.filter_eq_self]
  intro a _
  simp

end Testwright
