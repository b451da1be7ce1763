import Mathlib.Tactic.Choose
import Testwright.Path.Basic
import Testwright.Proofs.NameMap
import Testwright.Proofs.Path.Condition

/-!
# The variables of a path

Which variables the conditions of a path mention, and which conditions are on each of them. A path
is admitted variable by variable: bindings of admitted values for each variable alone are bindings
that the whole path admits (`Path.exists_bindings_iff`).
-/

namespace Testwright

/-- The conditions on one variable, in their order. -/
def conditionsOn (cs : List Condition) (x : String) : List Condition := cs.filter (·.var = x)

@[simp] theorem mem_conditionsOn {cs : List Condition} {x : String} {c : Condition} :
    c ∈ conditionsOn cs x ↔ c ∈ cs ∧ c.var = x := by
  simp [conditionsOn]

namespace Path

/-- The variables that the conditions of a path mention. -/
def vars (p : Path) : List String := p.conditions.map Condition.var

theorem mem_vars {p : Path} {x : String} :
    x ∈ p.vars ↔ ∃ c ∈ p.conditions, c.var = x := List.mem_map

/-- The grouped conditions are those on each variable that is mentioned. -/
theorem find?_byVariable (p : Path) (x : String) :
    p.byVariable.find? x =
      if x ∈ p.vars then some (conditionsOn p.conditions x) else none := by
  rw [byVariable, NameMap.find?_group]
  by_cases hx : x ∈ p.vars
  · obtain ⟨c, hc, hcx⟩ := mem_vars.mp hx
    have hne : (p.conditions.filter (·.var = x)).isEmpty = false := by
      rw [List.isEmpty_eq_false_iff_exists_mem]
      exact ⟨c, mem_conditionsOn.mpr ⟨hc, hcx⟩⟩
    rw [hne, if_pos hx]
    rfl
  · have hnil : (p.conditions.filter (·.var = x)).isEmpty = true := by
      rw [List.isEmpty_iff, List.filter_eq_nil_iff]
      intro c hc hcx
      exact hx (mem_vars.mpr ⟨c, hc, by simpa using hcx⟩)
    rw [hnil, if_neg hx]
    rfl

/-- A path admits bindings in which each condition finds a value that it does not reject. -/
theorem admits_iff {p : Path} {b : Bindings} :
    p.admits b = true ↔ ∀ c ∈ p.conditions, ∃ v, b.find? c.var = some v ∧ c.admits v = true := by
  simp [admits, Option.any_eq_true]

/-- So it admits bindings that have for each variable a value that all conditions on it admit. -/
theorem admits_iff_vars {p : Path} {b : Bindings} :
    p.admits b = true ↔ ∀ x ∈ p.vars, ∃ v, b.find? x = some v ∧
      ∀ c ∈ conditionsOn p.conditions x, c.admits v = true := by
  rw [admits_iff]
  constructor
  · intro h x hx
    obtain ⟨c, hc, rfl⟩ := mem_vars.mp hx
    obtain ⟨v, hv, -⟩ := h c hc
    refine ⟨v, hv, fun c' hc' => ?_⟩
    -- whichever condition on the variable is asked, there is one value for it
    obtain ⟨hmem, hvar⟩ := mem_conditionsOn.mp hc'
    obtain ⟨v', hv', hadm⟩ := h c' hmem
    rw [hvar, hv] at hv'
    cases hv'
    exact hadm
  · intro h c hc
    obtain ⟨v, hv, hadm⟩ := h c.var (mem_vars.mpr ⟨c, hc, rfl⟩)
    exact ⟨v, hv, hadm c (mem_conditionsOn.mpr ⟨hc, rfl⟩)⟩

/-- Admitted values that are found variable by variable can be put together. -/
theorem exists_bindings_iff {p : Path} {among : String → Value → Prop} :
    (∃ b : Bindings, (∀ x, x ∈ b.keys ↔ x ∈ p.vars) ∧
        (∀ x v, b.find? x = some v → among x v) ∧ p.admits b = true) ↔
      ∀ x ∈ p.vars, ∃ v, among x v ∧ ∀ c ∈ conditionsOn p.conditions x, c.admits v = true := by
  constructor
  · rintro ⟨b, -, hamong, hadmits⟩ x hx
    obtain ⟨v, hv, hadm⟩ := admits_iff_vars.mp hadmits x hx
    exact ⟨v, hamong x v hv, hadm⟩
  · intro h
    choose! value hamong hadm using h
    let b : Bindings := p.byVariable.map fun x _ => value x
    have hfind : ∀ x, b.find? x = if x ∈ p.vars then some (value x) else none := by
      intro x
      rw [NameMap.find?_map, find?_byVariable]
      split <;> rfl
    refine ⟨b, fun x => ?_, fun x v hv => ?_, admits_iff_vars.mpr fun x hx => ?_⟩
    · rw [NameMap.mem_keys_iff, hfind]
      simp
    · rw [hfind] at hv
      split at hv
      · rename_i hx
        cases hv
        exact hamong x hx
      · cases hv
    · exact ⟨value x, by rw [hfind, if_pos hx], hadm x hx⟩

end Path

end Testwright
