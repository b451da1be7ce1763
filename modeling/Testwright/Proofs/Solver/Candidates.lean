import Mathlib.Data.Finset.Max
import Testwright.Proofs.Path.Condition
import Testwright.Proofs.Path.Value
import Testwright.Proofs.Solver.Greedy
import Testwright.Solver.Candidates

/-!
# The candidates stand for all values

The candidates of a variable are finitely many, and its values are not. Main statement: for every
value there is a candidate that no condition can tell from it (`exists_candidate_holds_eq`).

A value that is no candidate differs from every literal it is tested for equality with, and from
every object made for a type, so only its place among the integers that it is compared with can
matter. These thresholds cut the integers into ranges, and the neighbours of the thresholds are
candidates: the nearest threshold above, or when there is none the nearest one below, has a
neighbour in the same range.
-/

namespace Testwright

/-! ## The candidates -/

theorem mem_foldl_insertInto {vs l : List Value} {w : Value} :
    w ∈ vs.foldl (fun l v => v.insertInto l) l ↔ w ∈ vs ∨ w ∈ l := by
  induction vs generalizing l with
  | nil => simp
  | cons v vs ih =>
      rw [List.foldl_cons, ih, Value.mem_insertInto, List.mem_cons, or_left_comm, or_assoc]

theorem pairwise_foldl_insertInto {vs l : List Value}
    (h : l.Pairwise fun a b => a.before b = true) :
    (vs.foldl (fun l v => v.insertInto l) l).Pairwise fun a b => a.before b = true := by
  induction vs generalizing l with
  | nil => exact h
  | cons v vs ih => exact ih (Value.pairwise_insertInto h)

theorem mem_candidates {cs : List Condition} {v : Value} :
    v ∈ candidates cs ↔ v = .null ∨ v = .nonNull ∨ ∃ c ∈ cs, v ∈ c.candidates := by
  rw [candidates, mem_foldl_insertInto, List.mem_flatMap, or_comm]
  simp [or_assoc]

/-- A candidate of one condition is one of any conditions among which it is. -/
theorem mem_candidates_of_mem {cs : List Condition} {c : Condition} (hc : c ∈ cs) {v : Value}
    (hv : v ∈ c.candidates) : v ∈ candidates cs :=
  mem_candidates.mpr (.inr (.inr ⟨c, hc, hv⟩))

/-- What holds of `null`, of the other object, and of what each condition offers holds of all
candidates. -/
theorem forall_mem_candidates {cs : List Condition} {P : Value → Prop} (hnull : P .null)
    (hobject : P .nonNull) (hoffered : ∀ c ∈ cs, ∀ v ∈ c.candidates, P v) :
    ∀ v ∈ candidates cs, P v := by
  intro v hv
  rcases mem_candidates.mp hv with rfl | rfl | ⟨c, hc, hv⟩
  · exact hnull
  · exact hobject
  · exact hoffered c hc v hv

/-- The candidates are in ascending order, so none is listed twice. -/
theorem nodup_candidates (cs : List Condition) : (candidates cs).Nodup := by
  have h : (candidates cs).Pairwise fun a b => a.before b = true :=
    pairwise_foldl_insertInto (by simp [Value.before, Value.rank])
  refine h.imp fun hab heq => ?_
  rw [heq, Value.before_irrefl] at hab
  cases hab

/-! ## Values that a condition cannot tell apart -/

/-- Two values look alike to a condition. -/
structure Condition.Alike (c : Condition) (v w : Value) : Prop where
  null : v.isNull = w.isNull
  equal : c.relation = .eq ∨ c.relation = .ne → (v = c.value ↔ w = c.value)
  made : c.relation = .instanceOf → (v = c.value.instanceOf ↔ w = c.value.instanceOf)
  order : c.relation.isOrdering = true → ∀ t, c.value.asInt = some t →
    v.asInt.map (c.relation.orders · t) = w.asInt.map (c.relation.orders · t)

theorem Condition.Alike.refl (c : Condition) (v : Value) : c.Alike v v :=
  ⟨rfl, fun _ => .rfl, fun _ => .rfl, fun _ _ _ => rfl⟩

/-- A condition judges values alike that look alike to it. -/
theorem Condition.Alike.holds_eq {c : Condition} {v w : Value} (h : c.Alike v w) :
    c.holds v = c.holds w := by
  have hequal : c.relation = .eq ∨ c.relation = .ne → (v == c.value) = (w == c.value) := by
    intro hr
    rw [Bool.eq_iff_iff, beq_iff_eq, beq_iff_eq]
    exact h.equal hr
  have hordering : c.relation.isOrdering = true → c.holds v = c.holds w := by
    intro hr
    rw [holds_of_isOrdering hr, holds_of_isOrdering hr]
    cases ht : c.value.asInt with
    | none => rfl
    | some t =>
        have hmap := congrArg (Option.any (· != c.negated)) (h.order hr t ht)
        rw [Option.any_map, Option.any_map] at hmap
        exact congrArg some hmap
  cases hr : c.relation with
  | eq => simp only [holds_of_eq hr, bne, hequal (.inl hr)]
  | ne => simp only [holds_of_ne hr, bne, hequal (.inr hr)]
  | lt => exact hordering (by rw [hr]; rfl)
  | le => exact hordering (by rw [hr]; rfl)
  | gt => exact hordering (by rw [hr]; rfl)
  | ge => exact hordering (by rw [hr]; rfl)
  | isNull => rw [holds_of_isNull hr, holds_of_isNull hr, h.null]
  | isNotNull => rw [holds_of_isNotNull hr, holds_of_isNotNull hr, h.null]
  | instanceOf => simp only [holds_of_instanceOf hr, h.null, h.made hr]

/-! ## Thresholds -/

/-- The integer that a condition compares its variable with. -/
def Condition.threshold? (c : Condition) : Option Int64 :=
  match c.relation with
  | .isNull | .isNotNull | .instanceOf => none
  | _ => c.value.asInt

theorem Condition.threshold?_of_isOrdering {c : Condition} (h : c.relation.isOrdering = true) :
    c.threshold? = c.value.asInt := by
  unfold threshold?
  cases hr : c.relation <;> simp_all [Relation.isOrdering]

/-- The integers that some conditions compare their variables with. -/
def thresholds (cs : List Condition) : List Int64 := cs.filterMap Condition.threshold?

/-- A threshold and its neighbours are candidates. -/
theorem Condition.mem_candidates_of_threshold? {c : Condition} {t : Int64}
    (ht : c.threshold? = some t) :
    .int t ∈ c.candidates ∧ (∀ m, below? t = some m → .int m ∈ c.candidates) ∧
      ∀ m, above? t = some m → .int m ∈ c.candidates := by
  obtain ⟨x, r, u, negated⟩ := c
  have hu : u = .int t := by
    cases r <;> cases u <;> simp_all [threshold?, Value.asInt]
  subst hu
  have habove : ∀ m, above? t = some m → (Value.int t).different = .int m := by
    intro m hm
    unfold above? at hm
    split at hm
    · cases hm
    · rename_i hne
      cases hm
      simp [Value.different, hne]
  cases r <;> simp_all [threshold?, candidates, Value.asInt]

/-- An order proposes a neighbour of its threshold, or a default when it has none. -/
theorem Condition.mem_candidates_of_isOrdering {c : Condition} (hr : c.relation.isOrdering = true)
    {v : Value} (hv : c.proposal = some v) : v ∈ c.candidates := by
  cases ht : c.value.asInt with
  | none =>
      have hdefault : v = .int smallDefault ∨ v = .int largeDefault := by
        cases hrel : c.relation <;> simp_all [proposal, Relation.isOrdering]
      have hcandidates : c.candidates = [.int smallDefault, .int largeDefault] := by
        cases hrel : c.relation <;> simp_all [candidates, Relation.isOrdering]
      simpa [hcandidates] using hdefault
  | some t =>
      obtain ⟨-, hbelow, habove⟩ :=
        mem_candidates_of_threshold? ((threshold?_of_isOrdering hr).trans ht)
      have hnext : (below? t).map Value.int = some v ∨ (above? t).map Value.int = some v := by
        cases hrel : c.relation <;> cases hneg : c.negated <;>
          simp_all [proposal, Relation.isOrdering]
      rcases hnext with h | h
      · obtain ⟨m, hm, rfl⟩ := Option.map_eq_some_iff.mp h
        exact hbelow m hm
      · obtain ⟨m, hm, rfl⟩ := Option.map_eq_some_iff.mp h
        exact habove m hm

/-- What a condition proposes is a candidate. -/
theorem Condition.mem_candidates_of_proposal {cs : List Condition} {c : Condition} (hc : c ∈ cs)
    {v : Value} (hv : c.proposal = some v) : v ∈ Testwright.candidates cs := by
  rw [mem_candidates]
  have hown : v = .null ∨ v = .nonNull ∨ v ∈ c.candidates := by
    by_cases hr : c.relation.isOrdering = true
    · exact .inr (.inr (mem_candidates_of_isOrdering hr hv))
    · cases hrel : c.relation <;> cases hneg : c.negated <;>
        simp_all [proposal, candidates, Relation.isOrdering]
  exact hown.imp_right (Or.imp_right fun h => ⟨c, hc, h⟩)

/-- An integer that is no threshold shares its range with a neighbour of a threshold. -/
theorem exists_neighbour_in_range {ts : List Int64} (hne : ts ≠ []) {n : Int64} (hn : n ∉ ts) :
    ∃ t ∈ ts, ∃ m, (below? t = some m ∨ above? t = some m) ∧ m ∉ ts ∧
      ∀ u ∈ ts, n < u ↔ m < u := by
  simp only [Int64.lt_iff_toInt_lt]
  have hn' : ∀ u ∈ ts, u.toInt ≠ n.toInt := fun u hu e => hn (Int64.toInt_inj.mp e ▸ hu)
  by_cases habove : ∃ t ∈ ts, n.toInt < t.toInt
  · -- below the nearest threshold above
    have hsome : (ts.toFinset.filter fun t => n.toInt < t.toInt).Nonempty := by
      obtain ⟨t, ht, hnt⟩ := habove
      exact ⟨t, Finset.mem_filter.mpr ⟨List.mem_toFinset.mpr ht, hnt⟩⟩
    obtain ⟨t, ht, hmin⟩ := Finset.exists_min_image _ Int64.toInt hsome
    simp only [Finset.mem_filter, List.mem_toFinset, and_imp] at ht hmin
    obtain ⟨m, hm⟩ := exists_below? (Int64.lt_iff_toInt_lt.mpr ht.2)
    have hmt := toInt_of_below? hm
    refine ⟨t, ht.1, m, .inl hm, fun hmem => ?_, fun u hu => ?_⟩
    · have := hn' m hmem
      have := hmin m hmem
      omega
    · have := hmin u hu
      omega
  · -- above the nearest threshold below
    have hsome : ts.toFinset.Nonempty := List.toFinset_nonempty_iff _ |>.mpr hne
    obtain ⟨t, ht, hmax⟩ := Finset.exists_max_image _ Int64.toInt hsome
    simp only [List.mem_toFinset] at ht hmax
    have hbelow : ∀ u ∈ ts, u.toInt < n.toInt := by
      intro u hu
      have := hn' u hu
      have : ¬ n.toInt < u.toInt := fun h => habove ⟨u, hu, h⟩
      omega
    obtain ⟨m, hm⟩ := exists_above? (Int64.lt_iff_toInt_lt.mpr (hbelow t ht))
    have hmt := toInt_of_above? hm
    refine ⟨t, ht, m, .inr hm, fun hmem => ?_, fun u hu => ?_⟩
    · have := hmax m hmem
      omega
    · have := hmax u hu
      have := hbelow u hu
      omega

/-! ## A candidate for every value -/

/-- The condition does not ask for this very value. -/
structure Condition.Unasked (c : Condition) (v : Value) : Prop where
  null : v.isNull = false
  equal : c.relation = .eq ∨ c.relation = .ne → v ≠ c.value
  made : c.relation = .instanceOf → v ≠ c.value.instanceOf

/-- Only their order can tell values apart that are not asked for. -/
theorem Condition.Alike.of_unasked {c : Condition} {v w : Value} (hv : c.Unasked v)
    (hw : c.Unasked w)
    (horder : c.relation.isOrdering = true → ∀ t, c.value.asInt = some t →
      v.asInt.map (c.relation.orders · t) = w.asInt.map (c.relation.orders · t)) :
    c.Alike v w where
  null := hv.null.trans hw.null.symm
  equal := fun hr => iff_of_false (hv.equal hr) (hw.equal hr)
  made := fun hr => iff_of_false (hv.made hr) (hw.made hr)
  order := horder

/-- What is no candidate is asked for by no condition. -/
theorem unasked_of_notMem_candidates {cs : List Condition} {v : Value}
    (hv : v ∉ candidates cs) {c : Condition} (hc : c ∈ cs) : c.Unasked v where
  null := by
    cases v with
    | null => exact absurd (mem_candidates.mpr (.inl rfl)) hv
    | _ => rfl
  equal := by
    rintro hr rfl
    refine hv (mem_candidates_of_mem hc ?_)
    rcases hr with hr | hr <;> simp [Condition.candidates, hr]
  made := by
    rintro hr rfl
    refine hv (mem_candidates_of_mem hc ?_)
    simp [Condition.candidates, hr]

theorem Condition.unasked_nonNull {c : Condition}
    (hlit : c.relation = .eq ∨ c.relation = .ne → c.value ≠ .nonNull) : c.Unasked .nonNull where
  null := rfl
  equal := fun hr => (hlit hr).symm
  made := fun _ h => by
    obtain ⟨s, hs⟩ := c.value.exists_instanceOf_eq_symbol
    rw [hs] at h
    cases h

theorem Condition.unasked_int {c : Condition} {m : Int64} (hm : c.threshold? ≠ some m) :
    c.Unasked (.int m) where
  null := rfl
  equal := fun hr h => by
    refine hm ?_
    rcases hr with hr | hr <;> simp [threshold?, hr, ← h, Value.asInt]
  made := fun _ h => by
    obtain ⟨s, hs⟩ := c.value.exists_instanceOf_eq_symbol
    rw [hs] at h
    cases h

/-- Integers on the same side of a third are in the same order with it. -/
theorem Relation.orders_eq_of_lt_iff {r : Relation} {m n t : Int64} (hm : m ≠ t) (hn : n ≠ t)
    (h : n < t ↔ m < t) : r.orders n t = r.orders m t := by
  have hm' : m.toInt ≠ t.toInt := fun e => hm (Int64.toInt_inj.mp e)
  have hn' : n.toInt ≠ t.toInt := fun e => hn (Int64.toInt_inj.mp e)
  rw [Int64.lt_iff_toInt_lt, Int64.lt_iff_toInt_lt] at h
  cases r <;>
    simp only [orders, decide_eq_decide, Int64.lt_iff_toInt_lt, Int64.le_iff_toInt_le] <;> omega

/-- For an integer among thresholds there is a candidate that looks like it to all conditions: a
neighbour of a threshold in its range. -/
theorem exists_alike_of_thresholds {cs : List Condition} {n : Int64}
    (hmem : .int n ∉ candidates cs) (hne : thresholds cs ≠ []) :
    ∃ w ∈ candidates cs, ∀ c ∈ cs, c.Alike (.int n) w := by
  have hthreshold : ∀ c ∈ cs, ∀ t, c.threshold? = some t → t ∈ thresholds cs :=
    fun c hc t ht => List.mem_filterMap.mpr ⟨c, hc, ht⟩
  have hn : n ∉ thresholds cs := by
    intro h
    obtain ⟨c, hc, ht⟩ := List.mem_filterMap.mp h
    exact hmem (mem_candidates_of_mem hc (c.mem_candidates_of_threshold? ht).1)
  obtain ⟨t, ht, m, hnext, hm, hside⟩ := exists_neighbour_in_range hne hn
  obtain ⟨c, hc, hct⟩ := List.mem_filterMap.mp ht
  obtain ⟨-, hbelow, habove⟩ := c.mem_candidates_of_threshold? hct
  refine ⟨.int m, mem_candidates_of_mem hc (hnext.elim (hbelow m) (habove m)), fun d hd => ?_⟩
  refine .of_unasked (unasked_of_notMem_candidates hmem hd)
    (Condition.unasked_int fun h => hm (hthreshold d hd m h)) fun hr u hu => ?_
  have hu := hthreshold d hd u ((Condition.threshold?_of_isOrdering hr).trans hu)
  exact congrArg some (Relation.orders_eq_of_lt_iff (fun e => hm (e ▸ hu))
    (fun e => hn (e ▸ hu)) (hside u hu))

/-- For every value there is a candidate that looks like it to all conditions, as long as none of
them tests for equality with the object of which only its existence matters. -/
theorem exists_candidate_alike {cs : List Condition}
    (hlit : ∀ c ∈ cs, c.relation = .eq ∨ c.relation = .ne → c.value ≠ .nonNull) (v : Value) :
    ∃ w ∈ candidates cs, ∀ c ∈ cs, c.Alike v w := by
  by_cases hmem : v ∈ candidates cs
  · exact ⟨v, hmem, fun c _ => .refl c v⟩
  by_cases hrange : (∃ n, v = .int n) ∧ thresholds cs ≠ []
  · obtain ⟨⟨n, rfl⟩, hne⟩ := hrange
    exact exists_alike_of_thresholds hmem hne
  · -- any other value: an object of which nothing is known
    refine ⟨.nonNull, mem_candidates.mpr (.inr (.inl rfl)), fun c hc => ?_⟩
    refine .of_unasked (unasked_of_notMem_candidates hmem hc)
      (Condition.unasked_nonNull (hlit c hc)) fun hr t ht => ?_
    have hthreshold : t ∈ thresholds cs :=
      List.mem_filterMap.mpr ⟨c, hc, (Condition.threshold?_of_isOrdering hr).trans ht⟩
    cases v with
    | int n => exact absurd ⟨⟨n, rfl⟩, List.ne_nil_of_mem hthreshold⟩ hrange
    | _ => rfl

/-- For every value there is a candidate that all conditions judge like it. -/
theorem exists_candidate_holds_eq {cs : List Condition}
    (hlit : ∀ c ∈ cs, c.relation = .eq ∨ c.relation = .ne → c.value ≠ .nonNull) (v : Value) :
    ∃ w ∈ candidates cs, ∀ c ∈ cs, c.holds w = c.holds v := by
  obtain ⟨w, hw, halike⟩ := exists_candidate_alike hlit v
  exact ⟨w, hw, fun c hc => (halike c hc).holds_eq.symm⟩

end Testwright
