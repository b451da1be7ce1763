import Testwright.Proofs.Path.Condition
import Testwright.Proofs.Path.Variables
import Testwright.Solver.Greedy

/-!
# The greedy solver

What the greedy solver binds: each variable of the path (`mem_keys_proposals`), to what the last
condition on it proposes (`find?_proposals`), which this condition admits
(`Condition.admits_of_proposal`).
-/

namespace Testwright

/-! ## Neighbours -/

theorem toInt_of_below? {t m : Int64} (h : below? t = some m) : m.toInt = t.toInt - 1 := by
  unfold below? at h
  split at h
  · cases h
  · rename_i hne
    cases h
    have hlow : Int64.minValue.toInt ≠ t.toInt := fun e => hne (Int64.toInt_inj.mp e.symm)
    have := t.le_toInt
    have := t.toInt_lt
    rw [Int64.toInt_minValue] at hlow
    rw [Int64.toInt_sub, Int64.toInt_one, Int.bmod_eq_of_le] <;> omega

theorem toInt_of_above? {t m : Int64} (h : above? t = some m) : m.toInt = t.toInt + 1 := by
  unfold above? at h
  split at h
  · cases h
  · rename_i hne
    cases h
    have hhigh : Int64.maxValue.toInt ≠ t.toInt := fun e => hne (Int64.toInt_inj.mp e.symm)
    have := t.le_toInt
    have := t.toInt_lt
    rw [Int64.toInt_maxValue] at hhigh
    rw [Int64.toInt_add, Int64.toInt_one, Int.bmod_eq_of_le] <;> omega

/-- An integer that is not the least has one below it. -/
theorem exists_below? {n t : Int64} (h : n < t) : ∃ m, below? t = some m := by
  refine ⟨t - 1, if_neg ?_⟩
  rintro rfl
  have := Int64.lt_iff_toInt_lt.mp h
  have := n.minValue_le_toInt
  omega

/-- An integer that is not the greatest has one above it. -/
theorem exists_above? {n t : Int64} (h : t < n) : ∃ m, above? t = some m := by
  refine ⟨t + 1, if_neg ?_⟩
  rintro rfl
  have := Int64.lt_iff_toInt_lt.mp h
  have := n.toInt_le
  omega

/-! ## Proposals -/

theorem Value.different_ne (v : Value) : v.different ≠ v := by
  cases v with
  | null => simp [different]
  | nonNull => simp [different]
  | bool b => cases b <;> simp [different]
  | int n =>
      rw [different, ne_eq, Value.int.injEq]
      split
      · rename_i hmax
        rw [hmax]
        decide
      · rename_i hne
        have habove := toInt_of_above? (t := n) (if_neg hne)
        intro heq
        rw [heq] at habove
        omega
  | str s => simp [different, differentMark]
  | symbol s => simp [different, differentMark]

namespace Condition

variable {c : Condition} {v : Value}

/-- An order proposes a neighbour of its integer that meets it. -/
theorem admits_of_proposal_of_isOrdering (hr : c.relation.isOrdering = true)
    (h : c.proposal = some v) : c.admits v = true := by
  rw [admits_iff, holds_of_isOrdering hr]
  cases ht : c.value.asInt with
  | none => simp
  | some t =>
      have hbelow : ∀ m, below? t = some m → m < t ∧ m ≤ t ∧ ¬ t < m ∧ ¬ t ≤ m := by
        intro m hm
        have hneighbour := toInt_of_below? hm
        simp only [Int64.lt_iff_toInt_lt, Int64.le_iff_toInt_le]
        omega
      have habove : ∀ m, above? t = some m → t < m ∧ t ≤ m ∧ ¬ m < t ∧ ¬ m ≤ t := by
        intro m hm
        have hneighbour := toInt_of_above? hm
        simp only [Int64.lt_iff_toInt_lt, Int64.le_iff_toInt_le]
        omega
      have hint : ∀ m, (Value.int m).asInt = some m := fun _ => rfl
      cases hrel : c.relation <;> cases hneg : c.negated <;>
        simp_all only [proposal, Relation.isOrdering, Option.map_eq_some_iff, if_true, if_false,
          Bool.false_eq_true]
      all_goals
        obtain ⟨m, hm, rfl⟩ := h
        first
          | simp [hint, Relation.orders, hbelow m hm]
          | simp [hint, Relation.orders, habove m hm]

/-- A condition admits what it proposes. -/
theorem admits_of_proposal (h : c.proposal = some v) : c.admits v = true := by
  have hnull : Value.null.isNull = true := rfl
  have hnonNull : Value.nonNull.isNull = false := rfl
  have hmade : c.value.instanceOf.isNull = false := by
    obtain ⟨s, hs⟩ := c.value.exists_instanceOf_eq_symbol
    rw [hs]
    rfl
  have hdifferent := c.value.different_ne
  have hordering := fun hr => admits_of_proposal_of_isOrdering (c := c) hr h
  rw [admits_iff]
  cases hr : c.relation with
  | eq =>
      rw [proposal, hr] at h
      rw [holds_of_eq hr]
      cases hneg : c.negated <;> simp_all
  | ne =>
      rw [proposal, hr] at h
      rw [holds_of_ne hr]
      cases hneg : c.negated <;> simp_all
  | isNull =>
      rw [proposal, hr] at h
      rw [holds_of_isNull hr]
      cases hneg : c.negated <;> rw [hneg] at h <;> cases h <;> simp [hnull, hnonNull]
  | isNotNull =>
      rw [proposal, hr] at h
      rw [holds_of_isNotNull hr]
      cases hneg : c.negated <;> rw [hneg] at h <;> cases h <;> simp [hnull, hnonNull]
  | instanceOf =>
      rw [proposal, hr] at h
      rw [holds_of_instanceOf hr]
      cases hneg : c.negated <;> rw [hneg] at h <;> cases h <;> simp [hnull, hmade]
  | _ => exact admits_iff.mp (hordering (by rw [hr]; rfl))

end Condition

/-! ## Bindings -/

/-- What conditions leave at a name: the proposal of the last one on it, or what was there. -/
theorem find?_proposals {cs : List Condition} {b b' : Bindings} (h : proposals b cs = some b')
    (x : String) :
    b'.find? x =
      match (conditionsOn cs x).getLast? with
      | some c => c.proposal
      | none => b.find? x := by
  induction cs generalizing b with
  | nil =>
      cases h
      rfl
  | cons c rest ih =>
      obtain ⟨v, hv, hrest⟩ := Option.bind_eq_some_iff.mp h
      rw [ih hrest, NameMap.find?_insert]
      by_cases hx : c.var = x
      · subst hx
        have hon : conditionsOn (c :: rest) c.var = c :: conditionsOn rest c.var := by
          simp [conditionsOn]
        -- a later condition on the name has the last word
        rw [hon, List.getLast?_cons]
        cases (conditionsOn rest c.var).getLast? with
        | none => simp [hv]
        | some d => rfl
      · have hon : conditionsOn (c :: rest) x = conditionsOn rest x := by
          simp [conditionsOn, hx]
        rw [hon, if_neg (Ne.symm hx)]

/-- The solver gives up only at a condition that proposes nothing. -/
theorem proposals_isSome_iff {cs : List Condition} {b : Bindings} :
    (proposals b cs).isSome = true ↔ ∀ c ∈ cs, c.proposal.isSome = true := by
  induction cs generalizing b with
  | nil => simp [proposals]
  | cons c rest ih =>
      rw [proposals, List.forall_mem_cons]
      cases hv : c.proposal with
      | none => simp
      | some v => simpa using ih

/-- What is bound was proposed by a condition on the variable. -/
theorem exists_proposal_of_find? {cs : List Condition} {b : Bindings}
    (h : proposals .empty cs = some b) {x : String} {v : Value} (hv : b.find? x = some v) :
    ∃ c ∈ conditionsOn cs x, c.proposal = some v := by
  rw [find?_proposals h] at hv
  split at hv
  · rename_i c hlast
    exact ⟨c, List.mem_of_getLast? hlast, hv⟩
  · cases hv

/-- The variables that are bound are those of the conditions. -/
theorem mem_keys_proposals {cs : List Condition} {b : Bindings}
    (h : proposals .empty cs = some b) {x : String} :
    x ∈ b.keys ↔ ∃ c ∈ cs, c.var = x := by
  rw [NameMap.mem_keys_iff]
  constructor
  · rintro ⟨v, hv⟩
    obtain ⟨c, hc, -⟩ := exists_proposal_of_find? h hv
    exact ⟨c, mem_conditionsOn.mp hc⟩
  · rintro ⟨c, hc, hcx⟩
    have hne : conditionsOn cs x ≠ [] := List.ne_nil_of_mem (mem_conditionsOn.mpr ⟨hc, hcx⟩)
    have hlast := List.getLast?_eq_some_getLast hne
    have hmem := (mem_conditionsOn.mp (List.getLast_mem hne)).1
    rw [find?_proposals h, hlast]
    exact Option.isSome_iff_exists.mp (proposals_isSome_iff.mp (by rw [h]; rfl) _ hmem)

/-- The bindings of a feasible verdict are the proposals of the conditions. -/
theorem proposals_of_feasible {p : Path} (h : (greedyVerdict p).feasible = true) :
    proposals .empty p.conditions = some (greedyVerdict p).bindings := by
  unfold greedyVerdict at h ⊢
  cases hb : proposals .empty p.conditions with
  | none =>
      rw [hb] at h
      cases h
  | some b => rfl

theorem bindings_of_infeasible {p : Path} (h : (greedyVerdict p).feasible = false) :
    (greedyVerdict p).bindings = .empty := by
  unfold greedyVerdict at h ⊢
  cases hb : proposals .empty p.conditions with
  | none => rfl
  | some b =>
      rw [hb] at h
      cases h

end Testwright
