import Testwright.Path.Condition

/-!
# Judging values

What a condition says about a value, relation by relation, with its polarity.
-/

namespace Testwright

theorem Value.exists_instanceOf_eq_symbol (v : Value) : ∃ s, v.instanceOf = .symbol s := by
  cases v <;> exact ⟨_, rfl⟩

namespace Condition

theorem admits_iff {c : Condition} {v : Value} : c.admits v = true ↔ c.holds v ≠ some false := by
  simp [admits]

/-- An order against an integer is met by integers only, in either polarity; an order against
anything else cannot be judged. -/
theorem holds_of_isOrdering {c : Condition} (h : c.relation.isOrdering = true) (v : Value) :
    c.holds v =
      c.value.asInt.map fun t => v.asInt.any fun n => c.relation.orders n t != c.negated := by
  have hcompares : c.compares v =
      c.value.asInt.bind fun t => v.asInt.map fun n => c.relation.orders n t := by
    cases hr : c.relation <;> simp_all [compares, Relation.isOrdering]
  cases ht : c.value.asInt <;> cases hn : v.asInt <;> simp [holds, hcompares, h, ht, hn]

/-- A test for equality with a symbol is judged for that symbol only. -/
theorem holds_of_eq {c : Condition} (h : c.relation = .eq) (v : Value) :
    c.holds v =
      if c.value.isSymbol && v != c.value then none else some ((v == c.value) != c.negated) := by
  simp only [holds, compares, Relation.isOrdering, h, Bool.false_and, Bool.false_eq_true, if_false]
  split <;> rfl

theorem holds_of_ne {c : Condition} (h : c.relation = .ne) (v : Value) :
    c.holds v =
      if c.value.isSymbol && v != c.value then none else some ((v != c.value) != c.negated) := by
  simp only [holds, compares, Relation.isOrdering, h, Bool.false_and, Bool.false_eq_true, if_false]
  split <;> rfl

theorem holds_of_isNull {c : Condition} (h : c.relation = .isNull) (v : Value) :
    c.holds v = some (v.isNull != c.negated) := by
  simp [holds, compares, Relation.isOrdering, h]

theorem holds_of_isNotNull {c : Condition} (h : c.relation = .isNotNull) (v : Value) :
    c.holds v = some (v.isNull == c.negated) := by
  cases hv : v.isNull <;> simp [holds, compares, Relation.isOrdering, h, hv]

/-- `null` has no type, and of the type of any other value only that of the object made for it is
known. -/
theorem holds_of_instanceOf {c : Condition} (h : c.relation = .instanceOf) (v : Value) :
    c.holds v =
      if v.isNull then some c.negated
      else if v = c.value.instanceOf then some !c.negated
      else none := by
  cases hv : v.isNull with
  | true => simp [holds, compares, Relation.isOrdering, h, hv]
  | false =>
      by_cases hmade : v = c.value.instanceOf
      · simp [holds, compares, Relation.isOrdering, h, hv, ← hmade]
      · simp [holds, compares, Relation.isOrdering, h, hv, hmade]

end Condition

end Testwright
