import Testwright.Proofs.Solver.Exact

/-!
# What conditions demand

A condition admits one value only (`Condition.required?`), rejects one value only
(`Condition.barred?`), admits integers only, or admits everything (`Condition.admits_cases`). A path
is found feasible when each of its variables has a candidate that all conditions on it admit, unless
the decision procedure fails (`exactWith_feasible_iff`).
-/

namespace Testwright

namespace Condition

variable {c : Condition} {u v : Value}

/-- The only value that a condition admits, if there is one. -/
def required? (c : Condition) : Option Value :=
  match c.relation, c.negated with
  | .eq, false | .ne, true => if c.value.isSymbol then none else some c.value
  | .isNull, false | .isNotNull, true => some .null
  | _, _ => none

/-- The only value that a condition rejects, if there is one. -/
def barred? (c : Condition) : Option Value :=
  match c.relation, c.negated with
  | .eq, true | .ne, false => some c.value
  | .isNull, true | .isNotNull, false | .instanceOf, false => some .null
  | .instanceOf, true => some c.value.instanceOf
  | _, _ => none

theorem admits_iff_of_required? (h : c.required? = some u) : c.admits v = true ↔ v = u := by
  rw [admits_iff]
  cases hr : c.relation <;> cases hn : c.negated <;> simp only [required?, hr, hn] at h
  case eq.false | ne.true =>
    split at h
    · cases h
    · rename_i hliteral
      cases h
      simp [holds_of_eq, holds_of_ne, hr, hn, hliteral]
  case isNull.false | isNotNull.true =>
    cases h
    cases v <;> simp [holds_of_isNull, holds_of_isNotNull, hr, hn, Value.isNull]
  all_goals cases h

theorem admits_iff_of_barred? (h : c.barred? = some u) : c.admits v = true ↔ v ≠ u := by
  rw [admits_iff]
  cases hr : c.relation <;> cases hn : c.negated <;> simp only [barred?, hr, hn] at h
  case eq.true | ne.false =>
    cases h
    by_cases hv : v = c.value <;> simp [holds_of_eq, holds_of_ne, hr, hn, hv]
  case isNull.true | isNotNull.false | instanceOf.false =>
    cases h
    cases v <;>
      simp [holds_of_isNull, holds_of_isNotNull, holds_of_instanceOf, hr, hn, Value.isNull]
  case instanceOf.true =>
    cases h
    rw [holds_of_instanceOf hr, hn]
    by_cases hv : v = c.value.instanceOf
    · obtain ⟨made, hmade⟩ := c.value.exists_instanceOf_eq_symbol
      simp [hv, hmade, Value.isNull]
    · cases v.isNull <;> simp [hv]
  all_goals cases h

/-- An order against an integer admits integers only, and any other order everything. -/
theorem admits_of_isOrdering (hr : c.relation.isOrdering = true) :
    (∃ t, c.threshold? = some t ∧ ∀ v, c.admits v = true → ∃ n, v = .int n) ∨
      ∀ v, c.admits v = true := by
  cases ht : c.value.asInt with
  | none =>
      refine .inr fun v => admits_iff.mpr ?_
      rw [holds_of_isOrdering hr, ht]
      exact nofun
  | some t =>
      refine .inl ⟨t, (threshold?_of_isOrdering hr).trans ht, fun v hv => ?_⟩
      rw [admits_iff, holds_of_isOrdering hr, ht] at hv
      cases v with
      | int n => exact ⟨n, rfl⟩
      | _ => exact absurd rfl hv

/-- No other value can be told from a symbol that is asked for. -/
theorem admits_of_unjudged (hr : c.relation.isOrdering = false) (hrequired : c.required? = none)
    (hbarred : c.barred? = none) (v : Value) : c.admits v = true := by
  rw [admits_iff]
  cases hrel : c.relation <;> cases hn : c.negated <;>
    simp_all [required?, barred?, Relation.isOrdering]
  case eq.false | ne.true =>
    by_cases hv : v = c.value <;> simp [holds_of_eq, holds_of_ne, hrel, hn, hv, hrequired]

theorem admits_cases (c : Condition) :
    (∃ u, c.required? = some u) ∨ (∃ u, c.barred? = some u) ∨
      (∃ t, c.threshold? = some t ∧ ∀ v, c.admits v = true → ∃ n, v = .int n) ∨
      ∀ v, c.admits v = true := by
  cases hr : c.relation.isOrdering with
  | true => exact .inr (.inr (admits_of_isOrdering hr))
  | false =>
      cases hrequired : c.required? with
      | some u => exact .inl ⟨u, rfl⟩
      | none =>
          cases hbarred : c.barred? with
          | some u => exact .inr (.inl ⟨u, rfl⟩)
          | none => exact .inr (.inr (.inr (admits_of_unjudged hr hrequired hbarred)))

/-- What a condition demands is a candidate. -/
theorem mem_candidates_of_required? {cs : List Condition} (hc : c ∈ cs) (h : c.required? = some u) :
    u ∈ Testwright.candidates cs := by
  cases hr : c.relation <;> cases hn : c.negated <;> simp only [required?, hr, hn] at h
  case eq.false | ne.true =>
    split at h
    · cases h
    · cases h
      exact mem_candidates_of_mem hc (by simp [candidates, hr])
  case isNull.false | isNotNull.true =>
    cases h
    exact mem_candidates.mpr (.inl rfl)
  all_goals cases h

end Condition

/-! ## Verdicts -/

/-- **The verdict, variable by variable.** A path is found feasible exactly when each of its
variables has a candidate that all conditions on it admit. -/
theorem exactWith_feasible_iff {backend : SatBackend} (hb : backend.Exact)
    (hn : backend.NeverFails) (p : Path) :
    ((Solver.exactWith backend).solve p).feasible = true ↔
      ∀ x ∈ p.vars, ∃ v ∈ candidates (conditionsOn p.conditions x),
        ∀ c ∈ conditionsOn p.conditions x, c.admits v = true := by
  rw [← exists_choice_iff]
  show (exactVerdict backend p).feasible = true ↔ _
  constructor
  · intro h
    exact ⟨_, isChoice_exactVerdict hb.toSound h,
      exactVerdict_admits hb.toSound (hn.not_failsOn p) h⟩
  · rintro ⟨b, hchoice, hadmits⟩
    exact exactVerdict_feasible_of_choice hb hchoice hadmits

end Testwright
