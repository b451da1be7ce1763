import Testwright.Path.Basic

/-!
# Constraints as texts

The conditions of a path are written one after another, a negated one in parentheses. When no
variable and no literal has a closing parenthesis, each one that there is ends a condition
(`closesConditions_constraint`).
-/

namespace Testwright

variable {x : Char} {cs r : List Char} {c : Condition}

/-! ## Closing parentheses -/

/-- Whether each closing parenthesis of a text is its last character, or stands before the
conjunction of a further condition. -/
def closesConditions : List Char → Bool
  | [] => true
  | x :: r => (x != ')' || r.isEmpty || [' ', '&'].isPrefixOf r) && closesConditions r

theorem closesConditions_append (hcs : ')' ∉ cs) :
    closesConditions (cs ++ r) = closesConditions r := by
  induction cs with
  | nil => rfl
  | cons y cs ih =>
      have hy : (y != ')') = true := bne_iff_ne.mpr fun h => hcs (h ▸ List.mem_cons_self)
      rw [List.cons_append, closesConditions, hy, Bool.true_or, Bool.true_or, Bool.true_and]
      exact ih fun h => hcs (List.mem_cons_of_mem y h)

/-- The first closing parenthesis of such a text, and what follows it. -/
theorem exists_of_closesConditions (h : closesConditions cs = true) (hcs : ')' ∈ cs) :
    ∃ a b, cs = a ++ ')' :: b ∧ ')' ∉ a ∧ (b = [] ∨ ∃ t, b = ' ' :: '&' :: t) := by
  obtain ⟨a, b, rfl, ha⟩ := List.eq_append_cons_of_mem hcs
  rw [closesConditions_append ha, closesConditions, Bool.and_eq_true, bne_self_eq_false,
    Bool.false_or, Bool.or_eq_true, List.isEmpty_iff, List.isPrefixOf_iff_prefix] at h
  refine ⟨a, b, rfl, ha, ?_⟩
  rcases h.1 with hnil | ⟨t, ht⟩
  · exact .inl hnil
  · exact .inr ⟨t, ht.symm⟩

/-! ## Conditions -/

theorem notMem_comparison (hx : x = ')' ∨ x = '@') (hvar : x ∉ c.var.toList)
    (hvalue : x ∉ c.value.render.toList) : x ∉ c.comparison.toList := by
  obtain ⟨var, relation, value, negated⟩ := c
  have hsymbol : x ∉ relation.symbol.toList := by
    rcases hx with rfl | rfl <;> cases relation <;> decide
  have hblank : x ∉ " ".toList := by
    rcases hx with rfl | rfl <;> decide
  cases relation <;>
    simp only [Condition.comparison, String.toList_append, List.mem_append, not_or] <;>
    simp_all

theorem toList_render (c : Condition) :
    c.render.toList =
      if c.negated then '!' :: '(' :: (c.comparison.toList ++ [')']) else c.comparison.toList := by
  delta Condition.render
  split
  · simp
  · rfl

theorem closesConditions_render_append (hcomparison : ')' ∉ c.comparison.toList)
    (hr : r = [] ∨ ∃ t, r = ' ' :: '&' :: t) :
    closesConditions (c.render.toList ++ r) = closesConditions r := by
  rw [toList_render]
  split
  · have hopen : ')' ∉ '!' :: '(' :: c.comparison.toList := by simpa using hcomparison
    have hclose : closesConditions (')' :: r) = closesConditions r := by
      rcases hr with rfl | ⟨t, rfl⟩ <;> rfl
    have htext : '!' :: '(' :: (c.comparison.toList ++ [')']) ++ r =
        '!' :: '(' :: c.comparison.toList ++ ')' :: r := by simp
    rw [htext, closesConditions_append hopen, hclose]
  · exact closesConditions_append hcomparison

theorem at_notMem_render (hcomparison : '@' ∉ c.comparison.toList) : '@' ∉ c.render.toList := by
  rw [toList_render]
  split
  · simpa using hcomparison
  · exact hcomparison

/-! ## Constraints -/

/-- What stands between two conditions. -/
def conjunction : String := " && "

theorem toList_renderConditions (cs : List Condition) :
    (renderConditions cs).toList =
      if cs.isEmpty then "true".toList
      else conjunction.toList.intercalate (cs.map fun c => c.render.toList) := by
  delta renderConditions
  split
  · rfl
  · rw [String.toList_intercalate, List.map_map]
    rfl

theorem closesConditions_intercalate {cs : List Condition}
    (hcs : ∀ c ∈ cs, ')' ∉ c.comparison.toList) :
    closesConditions (conjunction.toList.intercalate (cs.map fun c => c.render.toList)) = true := by
  induction cs with
  | nil => rfl
  | cons c cs ih =>
      have hc := hcs c List.mem_cons_self
      have hrest := ih fun d hd => hcs d (List.mem_cons_of_mem c hd)
      cases cs with
      | nil =>
          rw [List.map_singleton, List.intercalate_singleton, ← List.append_nil c.render.toList,
            closesConditions_render_append hc (.inl rfl)]
          rfl
      | cons d cs =>
          have hnext (l : List Char) : ∃ t, conjunction.toList ++ l = ' ' :: '&' :: t := ⟨_, rfl⟩
          rw [List.map_cons, List.map_cons, List.intercalate_cons_cons, List.append_assoc,
            closesConditions_render_append hc (.inr (hnext _)), closesConditions_append (by decide)]
          exact hrest

/-- Every closing parenthesis of a constraint ends a condition. -/
theorem closesConditions_constraint {p : Path}
    (hp : ∀ c ∈ p.conditions, ')' ∉ c.comparison.toList) :
    closesConditions p.constraint.toList = true := by
  rw [Path.constraint, toList_renderConditions]
  split
  · decide
  · exact closesConditions_intercalate hp

theorem notMem_intercalate {sep : List Char} {l : List (List Char)} (hsep : x ∉ sep)
    (hl : ∀ t ∈ l, x ∉ t) : x ∉ sep.intercalate l := by
  induction l with
  | nil => exact List.not_mem_nil
  | cons t l ih =>
      have ht := hl t List.mem_cons_self
      have hrest := ih fun u hu => hl u (List.mem_cons_of_mem t hu)
      cases l with
      | nil => rwa [List.intercalate_singleton]
      | cons u l =>
          rw [List.intercalate_cons_cons, List.append_assoc]
          simp only [List.mem_append, not_or]
          exact ⟨ht, hsep, hrest⟩

theorem at_notMem_constraint {p : Path} (hp : ∀ c ∈ p.conditions, '@' ∉ c.comparison.toList) :
    '@' ∉ p.constraint.toList := by
  rw [Path.constraint, toList_renderConditions]
  split
  · decide
  · refine notMem_intercalate (by decide) fun t ht => ?_
    obtain ⟨c, hc, rfl⟩ := List.mem_map.mp ht
    exact at_notMem_render (hp c hc)

end Testwright
