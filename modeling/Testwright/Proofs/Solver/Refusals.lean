import Testwright.Proofs.Solver.Greedy

/-!
# Where the greedy solver gives up

The greedy solver gives a path up at a condition that proposes no value: an order against one of the
two ends of the range of integers, when the proposal would lie beyond it. Such a condition cannot be
met, unless it is the end itself that meets it (`Condition.exists_admitted_iff_metByEndOnly`). Main
statement: the solver is right about all paths that are made of some conditions exactly when none of
these conditions is met by an end of the range alone (`greedy_infeasible_right_iff`).
-/

namespace Testwright

theorem below?_eq_none_iff {n : Int64} : below? n = none ↔ n = Int64.minValue := by
  simp [below?]

theorem above?_eq_none_iff {n : Int64} : above? n = none ↔ n = Int64.maxValue := by
  simp [above?]

namespace Condition

variable {c : Condition}

/-! ## Conditions without a proposal -/

/-- An end of the range of integers meets the condition, and no other integer does. -/
def MetByEndOnly (c : Condition) : Prop :=
  (c.relation = .le ∧ c.negated = false ∨ c.relation = .gt ∧ c.negated = true) ∧
      c.value = .int Int64.minValue ∨
    (c.relation = .ge ∧ c.negated = false ∨ c.relation = .lt ∧ c.negated = true) ∧
      c.value = .int Int64.maxValue

/-- A condition without a proposal is an order against an end of the range, with the proposal
beyond it. -/
theorem proposal_eq_none_iff :
    c.proposal = none ↔
      ((c.relation = .lt ∨ c.relation = .le) ∧ c.negated = false ∨
          (c.relation = .gt ∨ c.relation = .ge) ∧ c.negated = true) ∧
        c.value = .int Int64.minValue ∨
      ((c.relation = .lt ∨ c.relation = .le) ∧ c.negated = true ∨
          (c.relation = .gt ∨ c.relation = .ge) ∧ c.negated = false) ∧
        c.value = .int Int64.maxValue := by
  obtain ⟨x, r, u, negated⟩ := c
  cases r <;> cases u <;> cases negated <;>
    simp [proposal, Value.asInt, below?_eq_none_iff, above?_eq_none_iff]

theorem MetByEndOnly.proposal_eq_none (h : c.MetByEndOnly) : c.proposal = none := by
  rw [proposal_eq_none_iff]
  rcases h with ⟨⟨hr, hn⟩ | ⟨hr, hn⟩, hu⟩ | ⟨⟨hr, hn⟩ | ⟨hr, hn⟩, hu⟩ <;>
    simp [hr, hn, hu]

/-- Some value passes an order against an integer when some integer is on its side. -/
theorem exists_admitted_iff_exists_orders (hr : c.relation.isOrdering = true) {t : Int64}
    (hu : c.value = .int t) :
    (∃ v, c.holds v ≠ some false) ↔ ∃ n, (c.relation.orders n t != c.negated) = true := by
  have hholds : ∀ v : Value,
      c.holds v = some (v.asInt.any fun n => c.relation.orders n t != c.negated) := by
    intro v
    rw [holds_of_isOrdering hr, hu]
    rfl
  constructor
  · rintro ⟨v, hv⟩
    cases hn : v.asInt with
    | none => exact absurd (by rw [hholds, hn]; rfl) hv
    | some n =>
        rw [hholds, hn] at hv
        exact ⟨n, by simpa using hv⟩
  · rintro ⟨n, hn⟩
    refine ⟨.int n, ?_⟩
    rw [hholds]
    simpa [Value.asInt] using hn

/-- Where there is no proposal, nothing passes but an end of the range. -/
theorem exists_admitted_iff_metByEndOnly (h : c.proposal = none) :
    (∃ v, c.holds v ≠ some false) ↔ c.MetByEndOnly := by
  rcases proposal_eq_none_iff.mp h with ⟨hside, hu⟩ | ⟨hside, hu⟩
  · -- no integer is below the least one, and only itself is not above it
    rcases hside with ⟨hr | hr, hn⟩ | ⟨hr | hr, hn⟩ <;>
      rw [exists_admitted_iff_exists_orders (by rw [hr]; rfl) hu] <;>
      simp [MetByEndOnly, hr, hn, hu, Relation.orders, Int64.not_lt_minValue,
        Int64.le_minValue_iff]
  · -- no integer is above the greatest one, and only itself is not below it
    rcases hside with ⟨hr | hr, hn⟩ | ⟨hr | hr, hn⟩ <;>
      rw [exists_admitted_iff_exists_orders (by rw [hr]; rfl) hu] <;>
      simp [MetByEndOnly, hr, hn, hu, Relation.orders, Int64.not_maxValue_lt,
        Int64.maxValue_le_iff]

end Condition

/-! ## Verdicts -/

/-- A path is given up when one of its conditions proposes nothing. -/
theorem greedyVerdict_infeasible_iff {p : Path} :
    (greedyVerdict p).feasible = false ↔ ∃ c ∈ p.conditions, c.proposal = none := by
  have hsome : (proposals .empty p.conditions).isSome = true ↔
      ∀ c ∈ p.conditions, c.proposal.isSome = true := proposals_isSome_iff
  unfold greedyVerdict
  cases hb : proposals .empty p.conditions with
  | none =>
      rw [hb] at hsome
      simpa [Verdict.infeasible] using hsome
  | some b =>
      rw [hb] at hsome
      have hall := hsome.mp rfl
      constructor
      · intro h
        cases h
      · rintro ⟨c, hc, hnone⟩
        have hproposal := hall c hc
        rw [hnone] at hproposal
        cases hproposal

/-- **Where an infeasible verdict is right.** That no input takes any of the paths, made of some
conditions, that the greedy solver gives up, is true exactly when none of the conditions is met by
an end of the range of integers alone. -/
theorem greedy_infeasible_right_iff (cs : List Condition) :
    (∀ p : Path, p.conditions ⊆ cs → (Solver.greedy.solve p).feasible = false →
        ¬ ∃ input : String → Value, ∀ c ∈ p.conditions, c.holds (input c.var) ≠ some false) ↔
      ∀ c ∈ cs, ¬ c.MetByEndOnly := by
  constructor
  · intro h c hc hend
    obtain ⟨v, hv⟩ := (Condition.exists_admitted_iff_metByEndOnly hend.proposal_eq_none).mpr hend
    -- the path of this condition alone is given up, and the end of the range takes it
    have hgiven : (Solver.greedy.solve ⟨"", [c], true, .empty, []⟩).feasible = false :=
      greedyVerdict_infeasible_iff.mpr ⟨c, List.mem_singleton_self c, hend.proposal_eq_none⟩
    apply h _ (by simpa using hc) hgiven
    exact ⟨fun _ => v, by simpa using hv⟩
  · rintro h p hsub hgiven ⟨input, hinput⟩
    obtain ⟨c, hc, hnone⟩ := greedyVerdict_infeasible_iff.mp hgiven
    apply h c (hsub hc)
    rw [← Condition.exists_admitted_iff_metByEndOnly hnone]
    exact ⟨input c.var, hinput c hc⟩

/-- The path on which `x` is not greater than the least integer. -/
def leastPath : Path where
  id := "least"
  conditions := [⟨"x", .le, .int Int64.minValue, false⟩]

/-- It is given up, although the least integer takes it. -/
theorem leastPath_infeasible_but_taken :
    (Solver.greedy.solve leastPath).feasible = false ∧
      ∃ input : String → Value, ∀ c ∈ leastPath.conditions, c.holds (input c.var) = some true :=
  ⟨by decide, fun _ => .int Int64.minValue, by decide⟩

end Testwright
