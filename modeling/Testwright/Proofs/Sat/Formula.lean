import Testwright.Sat.Formula

/-!
# Satisfaction

What it takes for an assignment to satisfy a formula, and that only the variables that occur in the
formula matter for it. The formula `exactlyOne` says what its name does (`holds_exactlyOne`).
-/

namespace Testwright.Sat

/-! ## Literals, clauses and formulas -/

@[simp] theorem Literal.holds_iff {a : Nat → Bool} {l : Literal} :
    l.holds a = true ↔ a l.index = l.positive := by
  simp [Literal.holds]

@[simp] theorem Clause.holds_iff {a : Nat → Bool} {c : Clause} :
    Clause.holds a c = true ↔ ∃ l ∈ c, a l.index = l.positive := by
  simp [Clause.holds]

theorem Formula.holds_iff {a : Nat → Bool} {f : Formula} :
    Formula.holds a f = true ↔ ∀ c ∈ f, Clause.holds a c = true := by
  simp [Formula.holds]

theorem Formula.holds_append {a : Nat → Bool} {f g : Formula} :
    Formula.holds a (f ++ g) = true ↔ Formula.holds a f = true ∧ Formula.holds a g = true := by
  simp [Formula.holds, List.all_append]

/-- The variables that occur in a formula. -/
def Formula.vars (f : Formula) : List Nat := f.flatMap fun c => c.map Literal.index

theorem Formula.mem_vars {f : Formula} {n : Nat} :
    n ∈ f.vars ↔ ∃ c ∈ f, ∃ l ∈ c, l.index = n := by
  simp [Formula.vars]

/-- Assignments that agree on the variables of a formula satisfy it both or not at all. -/
theorem Formula.holds_of_agree {a b : Nat → Bool} {f : Formula}
    (hab : ∀ n ∈ f.vars, a n = b n) (h : Formula.holds a f = true) :
    Formula.holds b f = true := by
  rw [Formula.holds_iff] at h ⊢
  intro c hc
  obtain ⟨l, hl, hal⟩ := Clause.holds_iff.mp (h c hc)
  have hmem : l.index ∈ f.vars := Formula.mem_vars.mpr ⟨c, hc, l, hl, rfl⟩
  exact Clause.holds_iff.mpr ⟨l, hl, (hab _ hmem).symm.trans hal⟩

@[simp] theorem Model.assignment_eq_true {m : Model} {n : Nat} :
    m.assignment n = true ↔ n ∈ m := by
  simp [Model.assignment]

/-! ## Exactly one -/

/-- Two variables at different places of a list are never true together. -/
theorem holds_atMostOne {a : Nat → Bool} {vs : List Nat} :
    Formula.holds a (atMostOne vs) = true ↔ vs.Pairwise fun v w => ¬ (a v = true ∧ a w = true) := by
  induction vs with
  | nil => simp [atMostOne, Formula.holds]
  | cons v vs ih =>
      rw [atMostOne, Formula.holds_append, ih, List.pairwise_cons]
      refine and_congr_left fun _ => ?_
      simp only [Formula.holds_iff, List.mem_map, forall_exists_index, and_imp,
        forall_apply_eq_imp_iff₂, Clause.holds_iff, neg]
      refine forall₂_congr fun w _ => ?_
      cases hv : a v <;> simp [hv]

/-- Exactly one of some different variables is true. -/
theorem holds_exactlyOne {a : Nat → Bool} {vs : List Nat} (hnd : vs.Nodup) :
    Formula.holds a (exactlyOne vs) = true ↔
      ∃ v ∈ vs, ∀ w ∈ vs, a w = true ↔ w = v := by
  have hcons : Formula.holds a (exactlyOne vs) = true ↔
      (∃ v ∈ vs, a v = true) ∧ Formula.holds a (atMostOne vs) = true := by
    simp [exactlyOne, Formula.holds, Clause.holds, Literal.holds, pos]
  rw [hcons, holds_atMostOne]
  constructor
  · rintro ⟨⟨v, hv, hav⟩, hpair⟩
    have hsame : ∀ x ∈ vs, ∀ y ∈ vs, a x = true ∧ a y = true → x = y :=
      List.Pairwise.forall_of_forall_of_flip (fun _ _ _ => rfl)
        (hpair.imp fun h hxy => absurd hxy h) (hpair.imp fun h hxy => absurd hxy.symm h)
    exact ⟨v, hv, fun w hw => ⟨fun haw => hsame w hw v hv ⟨haw, hav⟩, fun e => e ▸ hav⟩⟩
  · rintro ⟨v, hv, hall⟩
    refine ⟨⟨v, hv, (hall v hv).mpr rfl⟩, ?_⟩
    refine hnd.imp_of_mem fun hw hw' hne => ?_
    rintro ⟨haw, haw'⟩
    exact hne (((hall _ hw).mp haw).trans ((hall _ hw').mp haw').symm)

end Testwright.Sat
