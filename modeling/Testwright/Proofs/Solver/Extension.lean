import Testwright.Proofs.Solver.Demands

/-!
# Adding conditions to a path

One more condition adds candidates to its variable, and one of these may meet the conditions that
were there when none of the old candidates does. That happens only where the object of which nothing
is known and `null` are both rejected and the conditions that reject them offer nothing else
(`Blocked`): in all other cases the old candidates stand for all values
(`exists_candidate_of_admitted`). Main statement: `feasible_of_extended_iff`.
-/

namespace Testwright

/-! ## What rejects a value -/

theorem Value.instanceOf_ne_marked (v : Value) (s : String) :
    v.instanceOf ≠ .symbol (s ++ differentMark) := by
  have hcall : ∃ t, v.instanceOf = .symbol (t ++ "()") := by
    cases v <;> exact ⟨_, rfl⟩
  obtain ⟨t, ht⟩ := hcall
  rw [ht]
  intro heq
  have hlast := congrArg (fun s : String => s.toList.getLast?) (Value.symbol.inj heq)
  simp [differentMark] at hlast

namespace Condition

variable {c : Condition} {u v : Value}

/-- A condition rejects a symbol: it denies the type of the object, or compares with the symbol. -/
theorem barred?_symbol {s : String} (h : c.barred? = some (.symbol s)) :
    c.relation = .instanceOf ∧ c.negated = true ∧ c.value.instanceOf = .symbol s ∨
      (c.relation = .eq ∨ c.relation = .ne) ∧ c.value = .symbol s := by
  cases hr : c.relation <;> cases hn : c.negated <;> simp [barred?, hr, hn] at h ⊢ <;> exact h

/-- No type is what the object of which nothing is known is rejected for. -/
theorem relation_of_barred?_nonNull (h : c.barred? = some .nonNull) : c.relation ≠ .instanceOf := by
  intro hr
  obtain ⟨made, hmade⟩ := c.value.exists_instanceOf_eq_symbol
  cases hn : c.negated <;> simp [barred?, hr, hn, hmade] at h

/-- Rejecting the object of which nothing is known, or `null` by other means than a type, offers no
other candidates. -/
theorem candidates_of_barred? (hu : u = .null ∨ u = .nonNull) (h : c.barred? = some u)
    (hr : c.relation ≠ .instanceOf) (hv : v ∈ c.candidates) : v = .null ∨ v = .nonNull := by
  rcases hu with rfl | rfl <;> cases hrel : c.relation <;> cases hn : c.negated <;>
    simp_all [barred?, candidates, Value.different, Value.asInt]
  all_goals exact hv.symm

end Condition

/-! ## Conditions that leave a candidate -/

/-- The conditions reject both the object of which nothing is known and `null`, and offer no
candidate besides: if a type is what `null` is rejected for, the object made for that type is
rejected because the type is also denied. -/
def Blocked (cs : List Condition) : Prop :=
  ∃ d ∈ cs, ∃ n ∈ cs, d.barred? = some .nonNull ∧ n.barred? = some .null ∧
    (n.relation = .instanceOf → ∃ i ∈ cs,
      i.relation = .instanceOf ∧ i.negated = true ∧ i.value.instanceOf = n.value.instanceOf)

/-- Where a symbol is rejected, some candidate is not: what is made from the longest such symbol. -/
theorem exists_symbol_candidate {cs : List Condition} {r : Condition} (hr : r ∈ cs)
    (hrel : r.relation = .eq ∨ r.relation = .ne) {made : String} (hvalue : r.value = .symbol made) :
    ∃ w ∈ candidates cs, ∀ c ∈ cs, c.barred? ≠ some w := by
  have hsome : (cs.toFinset.filter fun c =>
      (c.relation = .eq ∨ c.relation = .ne) ∧ c.value.isSymbol = true).Nonempty :=
    ⟨r, Finset.mem_filter.mpr ⟨List.mem_toFinset.mpr hr, hrel, by rw [hvalue]; rfl⟩⟩
  obtain ⟨c, hc, hmax⟩ := Finset.exists_max_image _ (fun c => c.value.render.length) hsome
  simp only [Finset.mem_filter, List.mem_toFinset, and_imp] at hc hmax
  obtain ⟨hc, hcrel, hsymbol⟩ := hc
  obtain ⟨s, hs⟩ : ∃ s, c.value = .symbol s := by
    cases hv : c.value <;> simp_all [Value.isSymbol]
  refine ⟨.symbol (s ++ Value.differentMark), mem_candidates_of_mem hc ?_, fun e he hbar => ?_⟩
  · rcases hcrel with h | h <;> simp [Condition.candidates, h, hs, Value.different]
  · rcases Condition.barred?_symbol hbar with ⟨-, -, hmade⟩ | ⟨herel, hevalue⟩
    · exact Value.instanceOf_ne_marked _ s hmade
    · have hle := hmax e he herel (by rw [hevalue]; rfl)
      rw [hevalue, hs] at hle
      change (s ++ Value.differentMark).length ≤ s.length at hle
      have hmark : Value.differentMark.length = 10 := by decide
      rw [String.length_append] at hle
      omega

/-- Where nothing is blocked, some candidate is rejected by no condition that rejects one value
only. -/
theorem exists_candidate_not_barred {cs : List Condition} (hfree : ¬ Blocked cs) :
    ∃ w ∈ candidates cs, ∀ c ∈ cs, c.barred? ≠ some w := by
  by_cases hobject : ∀ c ∈ cs, c.barred? ≠ some .nonNull
  · exact ⟨.nonNull, mem_candidates.mpr (.inr (.inl rfl)), hobject⟩
  by_cases hnull : ∀ c ∈ cs, c.barred? ≠ some .null
  · exact ⟨.null, mem_candidates.mpr (.inl rfl), hnull⟩
  push Not at hobject hnull
  obtain ⟨d, hd, hdbar⟩ := hobject
  obtain ⟨n, hn, hnbar⟩ := hnull
  -- a type is what `null` is rejected for, so the object made for the type is a candidate
  have htype : n.relation = .instanceOf := by
    by_contra hr
    exact hfree ⟨d, hd, n, hn, hdbar, hnbar, fun h => absurd h hr⟩
  by_cases hmade : ∀ c ∈ cs, c.barred? ≠ some n.value.instanceOf
  · refine ⟨_, mem_candidates_of_mem hn ?_, hmade⟩
    simp [Condition.candidates, htype]
  push Not at hmade
  obtain ⟨r, hr, hrbar⟩ := hmade
  obtain ⟨made, hsymbol⟩ := n.value.exists_instanceOf_eq_symbol
  rw [hsymbol] at hrbar
  rcases Condition.barred?_symbol hrbar with ⟨hrel, hneg, heq⟩ | ⟨hrel, hvalue⟩
  · rw [← hsymbol] at heq
    exact absurd ⟨d, hd, n, hn, hdbar, hnbar, fun _ => ⟨r, hr, hrel, hneg, heq⟩⟩ hfree
  · exact exists_symbol_candidate hr hrel hvalue

/-- Where a value is admitted that is no candidate, each condition rejects one value at most, unless
the value is an integer among thresholds. -/
theorem admits_of_not_barred {cs : List Condition} {v w : Value}
    (hv : ∀ c ∈ cs, c.admits v = true) (hmem : v ∉ candidates cs)
    (hrange : ¬ ((∃ n, v = .int n) ∧ thresholds cs ≠ [])) {c : Condition} (hc : c ∈ cs)
    (hw : c.barred? ≠ some w) : c.admits w = true := by
  rcases c.admits_cases with ⟨u, hu⟩ | ⟨u, hu⟩ | ⟨t, ht, hint⟩ | hall
  · have heq := (Condition.admits_iff_of_required? hu).mp (hv c hc)
    exact absurd (heq ▸ Condition.mem_candidates_of_required? hc hu) hmem
  · refine (Condition.admits_iff_of_barred? hu).mpr fun heq => hw ?_
    rw [hu, heq]
  · have hthreshold : t ∈ thresholds cs := List.mem_filterMap.mpr ⟨c, hc, ht⟩
    exact absurd ⟨hint v (hv c hc), List.ne_nil_of_mem hthreshold⟩ hrange
  · exact hall w

/-- Where nothing is blocked, some candidate is admitted if any value is. -/
theorem exists_candidate_of_admitted {cs : List Condition} (hfree : ¬ Blocked cs) {v : Value}
    (hv : ∀ c ∈ cs, c.admits v = true) :
    ∃ w ∈ candidates cs, ∀ c ∈ cs, c.admits w = true := by
  by_cases hmem : v ∈ candidates cs
  · exact ⟨v, hmem, hv⟩
  by_cases hrange : (∃ n, v = .int n) ∧ thresholds cs ≠ []
  · obtain ⟨⟨n, rfl⟩, hne⟩ := hrange
    obtain ⟨w, hw, halike⟩ := exists_alike_of_thresholds hmem hne
    refine ⟨w, hw, fun c hc => ?_⟩
    rw [Condition.admits, ← (halike c hc).holds_eq]
    exact hv c hc
  · obtain ⟨w, hw, hbar⟩ := exists_candidate_not_barred hfree
    exact ⟨w, hw, fun c hc => admits_of_not_barred hv hmem hrange hc (hbar c hc)⟩

/-! ## Conditions that are blocked -/

theorem Blocked.mono {l cs : List Condition} (h : Blocked l) (hsub : l ⊆ cs) : Blocked cs := by
  obtain ⟨d, hd, n, hn, hdbar, hnbar, htype⟩ := h
  refine ⟨d, hsub hd, n, hsub hn, hdbar, hnbar, fun hr => ?_⟩
  obtain ⟨i, hi, hmade⟩ := htype hr
  exact ⟨i, hsub hi, hmade⟩

/-- Where something is blocked, some of the conditions reject all their candidates, but not an
integer that none of them mentions. -/
theorem Blocked.exists_exhausted {cs : List Condition} (h : Blocked cs) :
    ∃ l, l ⊆ cs ∧ (∀ c ∈ l, c.admits (.int 0) = true) ∧
      ∀ v ∈ candidates l, ∃ c ∈ l, c.barred? = some v := by
  obtain ⟨d, hd, n, hn, hdbar, hnbar, htype⟩ := h
  have hdown : ∀ v ∈ d.candidates, v = .null ∨ v = .nonNull := fun v =>
    Condition.candidates_of_barred? (.inr rfl) hdbar (Condition.relation_of_barred?_nonNull hdbar)
  have hdzero : d.admits (.int 0) = true := (Condition.admits_iff_of_barred? hdbar).mpr (by simp)
  have hnzero : n.admits (.int 0) = true := (Condition.admits_iff_of_barred? hnbar).mpr (by simp)
  by_cases hr : n.relation = .instanceOf
  · -- a third condition rejects what the second one offers
    obtain ⟨i, hi, hirel, hineg, hmade⟩ := htype hr
    obtain ⟨made, hsymbol⟩ := n.value.exists_instanceOf_eq_symbol
    have hibar : i.barred? = some (.symbol made) := by
      simp [Condition.barred?, hirel, hineg, hmade, hsymbol]
    have hizero : i.admits (.int 0) = true := (Condition.admits_iff_of_barred? hibar).mpr (by simp)
    have hmadeOnly : ∀ c ∈ [n, i], ∀ v ∈ c.candidates, v = .symbol made := by
      simp [Condition.candidates, hr, hirel, hmade, hsymbol]
    refine ⟨[d, n, i], by simp [hd, hn, hi], by simp [hdzero, hnzero, hizero],
      forall_mem_candidates ?_ ?_ fun c hc v hv => ?_⟩
    · exact ⟨n, by simp, hnbar⟩
    · exact ⟨d, by simp, hdbar⟩
    · rcases List.mem_cons.mp hc with rfl | hc
      · rcases hdown v hv with rfl | rfl
        · exact ⟨n, by simp, hnbar⟩
        · exact ⟨c, by simp, hdbar⟩
      · rw [hmadeOnly c hc v hv]
        exact ⟨i, by simp, hibar⟩
  · have hplain : ∀ c ∈ [d, n], ∀ v ∈ c.candidates, v = .null ∨ v = .nonNull := by
      intro c hc v hv
      rcases List.mem_pair.mp hc with rfl | rfl
      · exact hdown v hv
      · exact Condition.candidates_of_barred? (.inl rfl) hnbar hr hv
    refine ⟨[d, n], by simp [hd, hn], by simp [hdzero, hnzero],
      forall_mem_candidates ?_ ?_ fun c hc v hv => ?_⟩
    · exact ⟨n, by simp, hnbar⟩
    · exact ⟨d, by simp, hdbar⟩
    · rcases hplain c hc v hv with rfl | rfl
      · exact ⟨n, by simp, hnbar⟩
      · exact ⟨d, by simp, hdbar⟩

/-! ## Verdicts -/

/-- A path with one more condition. -/
def Path.extended (p : Path) (c : Condition) : Path :=
  { p with conditions := p.conditions ++ [c] }

section

variable {backend : SatBackend} {cs : List Condition} {p : Path} {c : Condition} {x : String}

/-- Where nothing is blocked, a path is feasible that is so with one more condition. -/
theorem feasible_of_extended (hb : backend.Exact) (hn : backend.NeverFails)
    (hfree : ∀ x, ¬ Blocked (conditionsOn p.conditions x))
    (h : ((Solver.exactWith backend).solve (p.extended c)).feasible = true) :
    ((Solver.exactWith backend).solve p).feasible = true := by
  rw [exactWith_feasible_iff hb hn] at h ⊢
  intro x hx
  obtain ⟨d, hd, hvar⟩ := Path.mem_vars.mp hx
  have hmore : p.conditions ⊆ (p.extended c).conditions := List.subset_append_left _ _
  obtain ⟨v, -, hv⟩ := h x (Path.mem_vars.mpr ⟨d, hmore hd, hvar⟩)
  refine exists_candidate_of_admitted (hfree x) (v := v) fun e he => hv e ?_
  obtain ⟨he, hevar⟩ := mem_conditionsOn.mp he
  exact mem_conditionsOn.mpr ⟨hmore he, hevar⟩

/-- Where something is blocked, a path is infeasible that is feasible with one more condition. -/
theorem Blocked.exists_extended_feasible (hb : backend.Exact) (hn : backend.NeverFails)
    (h : Blocked (conditionsOn cs x)) :
    ∃ p : Path, p.conditions ⊆ cs ∧ ∃ c,
      ((Solver.exactWith backend).solve p).feasible = false ∧
        ((Solver.exactWith backend).solve (p.extended c)).feasible = true := by
  obtain ⟨l, hsub, hzero, hnone⟩ := h.exists_exhausted
  have hvar : ∀ c ∈ l, c.var = x := fun c hc => (mem_conditionsOn.mp (hsub hc)).2
  have hown : conditionsOn l x = l := List.filter_eq_self.mpr fun c hc => by simp [hvar c hc]
  refine ⟨⟨"", l, true, .empty, []⟩, fun c hc => (mem_conditionsOn.mp (hsub hc)).1,
    ⟨x, .eq, .int 0, false⟩, ?_, ?_⟩
  · rw [Bool.eq_false_iff, ne_eq, exactWith_feasible_iff hb hn]
    intro hall
    obtain ⟨c, hc, -⟩ := hnone .null (mem_candidates.mpr (.inl rfl))
    obtain ⟨v, hv, hadmits⟩ := hall x (Path.mem_vars.mpr ⟨c, hc, hvar c hc⟩)
    dsimp only at hv hadmits
    rw [hown] at hv hadmits
    obtain ⟨d, hd, hbar⟩ := hnone v hv
    exact (Condition.admits_iff_of_barred? hbar).mp (hadmits d hd) rfl
  · rw [exactWith_feasible_iff hb hn]
    intro y hy
    -- an integer that only the new condition mentions
    have hall : ∀ e ∈ l ++ [⟨x, .eq, .int 0, false⟩], e.var = x ∧ e.admits (.int 0) = true := by
      intro e he
      rcases List.mem_append.mp he with he | he
      · exact ⟨hvar e he, hzero e he⟩
      · rw [List.mem_singleton.mp he]
        exact ⟨rfl, rfl⟩
    obtain ⟨e, he, rfl⟩ := Path.mem_vars.mp hy
    refine ⟨.int 0, ?_, fun e he => (hall e (mem_conditionsOn.mp he).1).2⟩
    rw [(hall e he).1]
    exact mem_candidates_of_mem (mem_conditionsOn.mpr ⟨List.mem_append_right _
      (List.mem_singleton.mpr rfl), rfl⟩) (by simp [Condition.candidates])

/-- **Where a further condition can only narrow a path.** For some conditions, every path that is
made of them is found feasible whenever it is with one more condition, exactly when no variable is
blocked: when they do not reject, for one variable, the object of which nothing is known and `null`
without offering a candidate besides. -/
theorem feasible_of_extended_iff (hb : backend.Exact) (hn : backend.NeverFails)
    (cs : List Condition) :
    (∀ p : Path, p.conditions ⊆ cs → ∀ c,
        ((Solver.exactWith backend).solve (p.extended c)).feasible = true →
          ((Solver.exactWith backend).solve p).feasible = true) ↔
      ∀ x, ¬ Blocked (conditionsOn cs x) := by
  constructor
  · intro h x hblocked
    obtain ⟨p, hsub, c, hinfeasible, hfeasible⟩ := hblocked.exists_extended_feasible hb hn
    rw [h p hsub c hfeasible] at hinfeasible
    cases hinfeasible
  · intro hfree p hsub c h
    refine feasible_of_extended hb hn (fun x hblocked => hfree x (hblocked.mono fun e he => ?_)) h
    obtain ⟨he, hvar⟩ := mem_conditionsOn.mp he
    exact mem_conditionsOn.mpr ⟨hsub he, hvar⟩

end

/-- Conditions on an object of which it is known that it is not `null`. -/
def presentConditions : List Condition :=
  [⟨"x", .isNotNull, .null, false⟩, ⟨"x", .instanceOf, .symbol "T", false⟩,
    ⟨"x", .ne, .int 5, false⟩]

/-- A further condition can only narrow the paths that are made of them. -/
theorem presentConditions_feasible_of_extended :
    (SatBackend.ofSearch Sat.solve).Exact ∧ (SatBackend.ofSearch Sat.solve).NeverFails ∧
      ∀ p : Path, p.conditions ⊆ presentConditions → ∀ c,
        (Solver.exact.solve (p.extended c)).feasible = true →
          (Solver.exact.solve p).feasible = true := by
  have hn := neverFails_ofSearch Sat.solve
  refine ⟨exact_solve, hn, (feasible_of_extended_iff exact_solve hn presentConditions).mpr ?_⟩
  rintro x ⟨d, hd, -, -, hbarred, -⟩
  have hnone : ∀ c ∈ presentConditions, c.barred? ≠ some .nonNull := by decide
  exact hnone d (mem_conditionsOn.mp hd).1 hbarred

/-- The path on which `x` is neither `null` nor the object of which nothing is known. -/
def unnamedPath : Path where
  id := "unnamed"
  conditions := [⟨"x", .ne, .nonNull, false⟩, ⟨"x", .isNotNull, .null, false⟩]

/-- It is found infeasible, and feasible with one more condition. -/
theorem unnamedPath_infeasible_but_extended_feasible :
    (SatBackend.ofSearch Sat.solve).Exact ∧ (SatBackend.ofSearch Sat.solve).NeverFails ∧
      (Solver.exact.solve unnamedPath).feasible = false ∧
      (Solver.exact.solve (unnamedPath.extended ⟨"x", .eq, .int 5, false⟩)).feasible = true :=
  ⟨exact_solve, neverFails_ofSearch _, by decide +kernel, by decide +kernel⟩

end Testwright
