import Testwright.Proofs.Solver.Demands

/-!
# Flags

A condition on a flag compares a variable with `true` or with `false`. Besides these two values the
candidates of the variable are `null` and some other object, and neither is rejected by a condition
that only rejects a boolean. Main statement: `flags_verdict_right_iff`, which says for which
conditions the verdicts are right about flags. They are not where both booleans are rejected and
none is demanded, as on the false sides of a flag and of its negation.
-/

namespace Testwright

/-- A condition on a flag. -/
structure Condition.IsFlag (c : Condition) : Prop where
  relation : c.relation = .eq ∨ c.relation = .ne
  value : ∃ b, c.value = .bool b

namespace Condition.IsFlag

variable {c : Condition} {b : Bool} {v : Value}

/-- A condition on a flag demands a boolean or rejects one. -/
theorem demands (h : c.IsFlag) :
    ∃ b, c.value = .bool b ∧
      (c.required? = some (.bool b) ∨ c.barred? = some (.bool b)) := by
  obtain ⟨b, hb⟩ := h.value
  refine ⟨b, hb, ?_⟩
  rcases h.relation with hr | hr <;> cases hn : c.negated <;>
    simp [required?, barred?, hr, hn, hb, Value.isSymbol]

/-- Booleans can be judged. -/
theorem holds_iff_admits (h : c.IsFlag) : c.holds v = some true ↔ c.admits v = true := by
  obtain ⟨b, hb⟩ := h.value
  rw [admits_iff]
  rcases h.relation with hr | hr
  · simp [holds_of_eq hr, hb, Value.isSymbol]
  · simp [holds_of_ne hr, hb, Value.isSymbol]

theorem bool_mem_candidates {cs : List Condition} (hc : c ∈ cs) (h : c.IsFlag) (b : Bool) :
    .bool b ∈ Testwright.candidates cs := by
  obtain ⟨b', hb⟩ := h.value
  apply mem_candidates_of_mem hc
  rcases h.relation with hr | hr <;> cases b <;> cases b' <;>
    simp [candidates, hr, hb, Value.different]

end Condition.IsFlag

/-- No boolean is left to a flag. -/
def NoBooleanLeft (cs : List Condition) : Prop :=
  ∀ b, ∃ c ∈ cs, c.barred? = some (.bool b)

section

variable {cs : List Condition}

/-- Where a boolean is left, conditions on a flag that admit any value admit a boolean. -/
theorem exists_bool_of_admitted (hflags : ∀ c ∈ cs, c.IsFlag) (hleft : ¬ NoBooleanLeft cs)
    {v : Value} (hv : ∀ c ∈ cs, c.admits v = true) : ∃ b, ∀ c ∈ cs, c.admits (.bool b) = true := by
  by_cases hrequired : ∃ c ∈ cs, ∃ b, c.required? = some (.bool b)
  · obtain ⟨c, hc, b, hb⟩ := hrequired
    refine ⟨b, ?_⟩
    rwa [← (Condition.admits_iff_of_required? hb).mp (hv c hc)]
  · obtain ⟨b, hb⟩ := not_forall.mp hleft
    refine ⟨b, fun c hc => ?_⟩
    obtain ⟨b', -, hdemand | hdemand⟩ := (hflags c hc).demands
    · exact absurd ⟨c, hc, b', hdemand⟩ hrequired
    · refine (Condition.admits_iff_of_barred? hdemand).mpr fun heq => hb ⟨c, hc, ?_⟩
      rw [heq, hdemand]

end

/-! ## Verdicts -/

variable {backend : SatBackend} {p : Path}

/-- An infeasible verdict is always right about flags. -/
theorem flags_feasible_of_input (hb : backend.Exact) (hn : backend.NeverFails)
    (hflags : ∀ c ∈ p.conditions, c.IsFlag) {input : String → Bool}
    (hinput : ∀ c ∈ p.conditions, c.holds (.bool (input c.var)) = some true) :
    ((Solver.exactWith backend).solve p).feasible = true := by
  refine (exactWith_feasible_iff hb hn p).mpr fun x hx => ?_
  obtain ⟨c, hc, rfl⟩ := Path.mem_vars.mp hx
  refine ⟨.bool (input c.var), ?_, fun d hd => ?_⟩
  · exact (hflags c hc).bool_mem_candidates (mem_conditionsOn.mpr ⟨hc, rfl⟩) _
  · obtain ⟨hd, hvar⟩ := mem_conditionsOn.mp hd
    rw [← hvar]
    exact (hflags d hd).holds_iff_admits.mp (hinput d hd)

/-- A feasible one is right where each flag has a boolean left. -/
theorem flags_exists_input (hb : backend.Exact) (hn : backend.NeverFails)
    (hflags : ∀ c ∈ p.conditions, c.IsFlag)
    (hleft : ∀ x, ¬ NoBooleanLeft (conditionsOn p.conditions x))
    (h : ((Solver.exactWith backend).solve p).feasible = true) :
    ∃ input : String → Bool, ∀ c ∈ p.conditions, c.holds (.bool (input c.var)) = some true := by
  have hbool : ∀ x ∈ p.vars, ∃ b : Bool, ∀ c ∈ conditionsOn p.conditions x,
      c.admits (.bool b) = true := by
    intro x hx
    obtain ⟨v, -, hv⟩ := (exactWith_feasible_iff hb hn p).mp h x hx
    exact exists_bool_of_admitted (fun c hc => hflags c (mem_conditionsOn.mp hc).1) (hleft x) hv
  choose! input hinput using hbool
  refine ⟨input, fun c hc => (hflags c hc).holds_iff_admits.mpr ?_⟩
  exact hinput c.var (Path.mem_vars.mpr ⟨c, hc, rfl⟩) c (mem_conditionsOn.mpr ⟨hc, rfl⟩)

/-- `null` is left where both booleans are rejected, so the verdict is feasible. -/
theorem feasible_of_barred_bools (hb : backend.Exact) (hn : backend.NeverFails)
    (hbarred : ∀ c ∈ p.conditions, ∃ b, c.barred? = some (.bool b)) :
    ((Solver.exactWith backend).solve p).feasible = true := by
  refine (exactWith_feasible_iff hb hn p).mpr fun x _ => ?_
  refine ⟨.null, mem_candidates.mpr (.inl rfl), fun c hc => ?_⟩
  obtain ⟨b, hdemand⟩ := hbarred c (mem_conditionsOn.mp hc).1
  exact (Condition.admits_iff_of_barred? hdemand).mpr nofun

/-- **Where the verdict is right about flags.** For some conditions on flags, the verdict on each
path that is made of them says whether booleans for the flags meet all its conditions, exactly when
no flag is rejected as `true` by one of them and as `false` by another. -/
theorem flags_verdict_right_iff (hb : backend.Exact) (hn : backend.NeverFails)
    {cs : List Condition} (hflags : ∀ c ∈ cs, c.IsFlag) :
    (∀ p : Path, p.conditions ⊆ cs →
        (((Solver.exactWith backend).solve p).feasible = true ↔
          ∃ input : String → Bool,
            ∀ c ∈ p.conditions, c.holds (.bool (input c.var)) = some true)) ↔
      ∀ x, ¬ NoBooleanLeft (conditionsOn cs x) := by
  constructor
  · intro h x hnone
    obtain ⟨c, hc, hctrue⟩ := hnone true
    obtain ⟨d, hd, hdfalse⟩ := hnone false
    obtain ⟨hcmem, rfl⟩ := mem_conditionsOn.mp hc
    obtain ⟨hdmem, hvar⟩ := mem_conditionsOn.mp hd
    -- the path of these two conditions alone is found feasible
    have hbarred : ∀ e ∈ [c, d], ∃ b, e.barred? = some (.bool b) := by
      rintro e he
      rcases List.mem_pair.mp he with rfl | rfl
      · exact ⟨true, hctrue⟩
      · exact ⟨false, hdfalse⟩
    obtain ⟨input, hinput⟩ := (h ⟨"", [c, d], true, .empty, []⟩ (by simp [hcmem, hdmem])).mp
      (feasible_of_barred_bools hb hn hbarred)
    have hcinput := (hflags c hcmem).holds_iff_admits.mp (hinput c (by simp))
    have hdinput := (hflags d hdmem).holds_iff_admits.mp (hinput d (by simp))
    rw [Condition.admits_iff_of_barred? hctrue] at hcinput
    rw [Condition.admits_iff_of_barred? hdfalse, hvar] at hdinput
    cases hvalue : input c.var with
    | true => exact hcinput (by rw [hvalue])
    | false => exact hdinput (by rw [hvalue])
  · intro hleft p hsub
    have hown : ∀ c ∈ p.conditions, c.IsFlag := fun c hc => hflags c (hsub hc)
    refine ⟨flags_exists_input hb hn hown fun x hnone => hleft x fun b => ?_, ?_⟩
    · obtain ⟨c, hc, hdemand⟩ := hnone b
      obtain ⟨hc, hvar⟩ := mem_conditionsOn.mp hc
      exact ⟨c, mem_conditionsOn.mpr ⟨hsub hc, hvar⟩, hdemand⟩
    · rintro ⟨input, hinput⟩
      exact flags_feasible_of_input hb hn hown hinput

/-- Both sides of a branch on a flag. -/
def flagSides : List Condition :=
  [⟨"flag", .eq, .bool true, false⟩, ⟨"flag", .eq, .bool true, true⟩]

/-- The verdicts on them are right. -/
theorem flagSides_verdict_right :
    (SatBackend.ofSearch Sat.solve).Exact ∧ (SatBackend.ofSearch Sat.solve).NeverFails ∧
      (∀ c ∈ flagSides, c.IsFlag) ∧
      ∀ p : Path, p.conditions ⊆ flagSides →
        ((Solver.exact.solve p).feasible = true ↔
          ∃ input : String → Bool,
            ∀ c ∈ p.conditions, c.holds (.bool (input c.var)) = some true) := by
  have hflags : ∀ c ∈ flagSides, c.IsFlag := by
    rintro c hc
    rcases List.mem_pair.mp hc with rfl | rfl <;> exact ⟨.inl rfl, true, rfl⟩
  have hn := neverFails_ofSearch Sat.solve
  refine ⟨exact_solve, hn, hflags, (flags_verdict_right_iff exact_solve hn hflags).mpr ?_⟩
  intro x hnone
  obtain ⟨c, hc, hdemand⟩ := hnone false
  have hfalse : ∀ c ∈ flagSides, c.barred? ≠ some (.bool false) := by decide
  exact hfalse c (mem_conditionsOn.mp hc).1 hdemand

/-- The false sides of two branches, one on a flag and one on its negation. -/
def falseSidesPath : Path where
  id := "falseSides"
  conditions := [⟨"flag", .eq, .bool true, true⟩, ⟨"flag", .eq, .bool false, true⟩]

/-- They are found feasible, although no boolean meets both. -/
theorem falseSidesPath_feasible_but_not_taken :
    (SatBackend.ofSearch Sat.solve).Exact ∧ (SatBackend.ofSearch Sat.solve).NeverFails ∧
      (Solver.exact.solve falseSidesPath).feasible = true ∧
      ¬ ∃ input : String → Bool,
        ∀ c ∈ falseSidesPath.conditions, c.holds (.bool (input c.var)) = some true := by
  refine ⟨exact_solve, neverFails_ofSearch _, by decide +kernel, ?_⟩
  rintro ⟨input, hinput⟩
  have htrue := hinput _ List.mem_cons_self
  have hfalse := hinput _ (List.mem_cons_of_mem _ List.mem_cons_self)
  dsimp only at htrue hfalse
  cases hvalue : input "flag" with
  | true =>
      rw [hvalue] at htrue
      exact absurd htrue (by decide)
  | false =>
      rw [hvalue] at hfalse
      exact absurd hfalse (by decide)

end Testwright
