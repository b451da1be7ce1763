import Testwright.Proofs.Sat.Search
import Testwright.Proofs.Solver.Encoding
import Testwright.Solver.Exact

/-!
# The exact solver decides paths

Over a decision procedure that decides formulas, the verdict on the formula of a path says whether
some input takes the path (`check_feasible_iff_exists_input`), and asking the greedy solver first
does not change it where the procedure never fails (`exactWith_feasible_eq_check`). Over one that is
only right about its models, the bindings of a feasible verdict are admitted unless the procedure
fails on the path (`exactWith_bindings_sound`). The search of this library decides formulas
(`exact_solve`) and never fails.
-/

namespace Testwright

open Testwright.Sat

/-! ## Decision procedures -/

/-- Where a decision procedure says that a formula has a model, it gives one. -/
structure SatBackend.Sound (backend : SatBackend) : Prop where
  model : ∀ f answer, backend f = .satisfiable answer →
    ∃ m, answer = some m ∧ Formula.holds m.assignment f = true

/-- A decision procedure says that a formula has a model exactly when there is one, and gives one. -/
structure SatBackend.Exact (backend : SatBackend) : Prop extends backend.Sound where
  complete : ∀ f a, Formula.holds a f = true → ∃ answer, backend f = .satisfiable answer

/-- A decision procedure answers about every formula. -/
def SatBackend.NeverFails (backend : SatBackend) : Prop := ∀ f reason, backend f ≠ .failed reason

/-- A decision procedure stops without an answer on the formula of a path, as one that is interrupted
may do. -/
def SatBackend.FailsOn (backend : SatBackend) (p : Path) : Prop :=
  ∃ reason, backend p.encode.formula = .failed reason

theorem SatBackend.NeverFails.not_failsOn {backend : SatBackend} (hn : backend.NeverFails)
    (p : Path) : ¬ backend.FailsOn p := fun ⟨reason, h⟩ => hn _ reason h

/-- The search decides formulas. -/
theorem exact_solve : (SatBackend.ofSearch Sat.solve).Exact where
  model := by
    intro f answer h
    rw [SatBackend.ofSearch] at h
    cases hm : Sat.solve f with
    | none =>
        rw [hm] at h
        cases h
    | some m =>
        rw [hm] at h
        cases h
        exact ⟨m, rfl, holds_of_solve hm⟩
  complete := by
    intro f a ha
    obtain ⟨m, hm⟩ := Option.isSome_iff_exists.mp (solve_isSome ha)
    exact ⟨some m, by rw [SatBackend.ofSearch, hm]⟩

theorem neverFails_ofSearch (search : Formula → Option Model) :
    (SatBackend.ofSearch search).NeverFails := by
  intro f reason h
  rw [SatBackend.ofSearch] at h
  split at h <;> cases h

variable {backend : SatBackend} {p : Path} {v : Verdict}

/-! ## Verdicts on the formula -/

/-- There is a verdict on the formula unless the decision procedure fails. -/
theorem SatBackend.Sound.check_cases (hb : backend.Sound) (p : Path) :
    (∃ m, Formula.holds m.assignment p.encode.formula = true ∧
        backend.check p = .ok (.satisfiedBy (p.encode.decode m))) ∨
      backend.check p = .ok .infeasible ∨
      backend.FailsOn p ∧ ∃ e, backend.check p = .error e := by
  rw [check]
  cases h : backend p.encode.formula with
  | satisfiable answer =>
      obtain ⟨m, rfl, hm⟩ := hb.model _ _ h
      exact .inl ⟨m, hm, rfl⟩
  | unsatisfiable => exact .inr (.inl rfl)
  | failed reason => exact .inr (.inr ⟨⟨reason, h⟩, _, rfl⟩)

theorem SatBackend.Sound.failsOn_of_error (hb : backend.Sound) {e : SolverError}
    (h : backend.check p = .error e) : backend.FailsOn p := by
  rcases hb.check_cases p with ⟨m, -, hcheck⟩ | hcheck | ⟨hfails, -⟩
  · rw [hcheck] at h
    cases h
  · rw [hcheck] at h
    cases h
  · exact hfails

/-- The bindings of a feasible verdict on the formula are a choice that the path admits. -/
theorem check_choice (hb : backend.Sound) (h : backend.check p = .ok v) (hv : v.feasible = true) :
    p.IsChoice v.bindings ∧ p.admits v.bindings = true := by
  rcases hb.check_cases p with ⟨m, hm, hcheck⟩ | hcheck | ⟨-, e, hcheck⟩
  · rw [hcheck] at h
    cases h
    obtain ⟨b, hchoice, hsel, hadmits⟩ := holds_formula_iff.mp hm
    show p.IsChoice (p.encode.decode m) ∧ p.admits (p.encode.decode m) = true
    rw [decode_eq_of_selects hchoice hsel]
    exact ⟨hchoice, hadmits⟩
  · rw [hcheck] at h
    cases h
    cases hv
  · rw [hcheck] at h
    cases h

theorem check_bindings_of_infeasible (hb : backend.Sound) (h : backend.check p = .ok v)
    (hv : v.feasible = false) : v.bindings = .empty := by
  rcases hb.check_cases p with ⟨m, -, hcheck⟩ | hcheck | ⟨-, e, hcheck⟩
  · rw [hcheck] at h
    cases h
    cases hv
  · rw [hcheck] at h
    cases h
    rfl
  · rw [hcheck] at h
    cases h

/-- A path that admits a choice gets a feasible verdict. -/
theorem check_feasible_of_choice (hb : backend.Exact) {b : Bindings} (hchoice : p.IsChoice b)
    (hadmits : p.admits b = true) : ∃ v, backend.check p = .ok v ∧ v.feasible = true := by
  have hmodel : Formula.holds (p.encode.modelOf b).assignment p.encode.formula = true :=
    holds_formula_iff.mpr ⟨b, hchoice, selects_modelOf p b, hadmits⟩
  obtain ⟨answer, hanswer⟩ := hb.complete _ _ hmodel
  obtain ⟨m, rfl, -⟩ := hb.model _ _ hanswer
  exact ⟨.satisfiedBy (p.encode.decode m), by rw [SatBackend.check, hanswer], rfl⟩

/-! ## Inputs and choices -/

/-- A choice that the path admits gives an input that no condition rejects. -/
theorem exists_input_of_choice {b : Bindings} (hadmits : p.admits b = true) :
    ∃ input : String → Value, ∀ c ∈ p.conditions, c.holds (input c.var) ≠ some false := by
  refine ⟨fun x => (b.find? x).getD .null, fun c hc => ?_⟩
  obtain ⟨v, hv, hadm⟩ := Path.admits_iff.mp hadmits c hc
  show c.holds ((b.find? c.var).getD .null) ≠ some false
  rw [hv]
  exact Condition.admits_iff.mp hadm

/-- A path admits a choice when each of its variables has a candidate that the conditions on it
admit. -/
theorem exists_choice_iff :
    (∃ b, p.IsChoice b ∧ p.admits b = true) ↔
      ∀ x ∈ p.vars, ∃ v ∈ candidates (conditionsOn p.conditions x),
        ∀ c ∈ conditionsOn p.conditions x, c.admits v = true := by
  rw [← Path.exists_bindings_iff]
  constructor
  · rintro ⟨b, hchoice, hadmits⟩
    exact ⟨b, hchoice.keys, hchoice.candidate, hadmits⟩
  · rintro ⟨b, hkeys, hcandidate, hadmits⟩
    exact ⟨b, ⟨hkeys, hcandidate⟩, hadmits⟩

/-- An input that no condition rejects gives a choice that the path admits: each value is replaced
by a candidate that is judged like it. -/
theorem exists_choice_of_input
    (hlit : ∀ c ∈ p.conditions, c.relation = .eq ∨ c.relation = .ne → c.value ≠ .nonNull)
    {input : String → Value} (hinput : ∀ c ∈ p.conditions, c.holds (input c.var) ≠ some false) :
    ∃ b, p.IsChoice b ∧ p.admits b = true := by
  refine exists_choice_iff.mpr fun x _ => ?_
  obtain ⟨w, hw, hjudged⟩ := exists_candidate_holds_eq
    (fun c hc => hlit c (mem_conditionsOn.mp hc).1) (input x)
  refine ⟨w, hw, fun c hc => Condition.admits_iff.mpr ?_⟩
  obtain ⟨hmem, rfl⟩ := mem_conditionsOn.mp hc
  rw [hjudged c hc]
  exact hinput c hmem

/-- **The verdict on the formula is about all inputs.** A path is found feasible exactly when some
input, out of all values for its variables, is rejected by none of its conditions. -/
theorem check_feasible_iff_exists_input (hb : backend.Exact) (p : Path)
    (hlit : ∀ c ∈ p.conditions, c.relation = .eq ∨ c.relation = .ne → c.value ≠ .nonNull) :
    (backend.check p).map Verdict.feasible = .ok true ↔
      ∃ input : String → Value, ∀ c ∈ p.conditions, c.holds (input c.var) ≠ some false := by
  constructor
  · intro h
    cases hcheck : backend.check p with
    | error e =>
        rw [hcheck] at h
        cases h
    | ok v =>
        rw [hcheck] at h
        exact exists_input_of_choice (check_choice hb.toSound hcheck (Except.ok.inj h)).2
  · rintro ⟨input, hinput⟩
    obtain ⟨b, hchoice, hadmits⟩ := exists_choice_of_input hlit hinput
    obtain ⟨v, hcheck, hv⟩ := check_feasible_of_choice hb hchoice hadmits
    rw [hcheck, ← hv]
    rfl

/-- A path that leaves one integer to `x`. The greedy solver binds `x` to 6, which the second
condition rejects. -/
def squeezedPath : Path where
  id := "squeezed"
  conditions := [⟨"x", .gt, .int 3, false⟩, ⟨"x", .ge, .int 6, true⟩,
    ⟨"o", .instanceOf, .str "T", false⟩, ⟨"mode", .eq, .symbol "Mode.FAST", true⟩,
    ⟨"x", .ne, .int 5, false⟩]

theorem squeezedPath_feasible :
    (SatBackend.ofSearch Sat.solve).Exact ∧
      (∀ c ∈ squeezedPath.conditions,
        c.relation = .eq ∨ c.relation = .ne → c.value ≠ .nonNull) ∧
      ((SatBackend.ofSearch Sat.solve).check squeezedPath).map Verdict.feasible = .ok true := by
  have hlit : ∀ c ∈ squeezedPath.conditions,
      c.relation = .eq ∨ c.relation = .ne → c.value ≠ .nonNull := by decide
  refine ⟨exact_solve, hlit, ?_⟩
  exact (check_feasible_iff_exists_input exact_solve squeezedPath hlit).mpr
    ⟨fun x => if x = "x" then .int 4 else .nonNull, by decide⟩

/-! ## The greedy solver first -/

/-- The bindings of a feasible greedy verdict are a choice, although the path need not admit it. -/
theorem isChoice_greedyVerdict (h : (greedyVerdict p).feasible = true) :
    p.IsChoice (greedyVerdict p).bindings := by
  have hb := proposals_of_feasible h
  refine ⟨fun x => (mem_keys_proposals hb).trans Path.mem_vars.symm, fun x v hv => ?_⟩
  obtain ⟨c, hc, hproposal⟩ := exists_proposal_of_find? hb hv
  exact Condition.mem_candidates_of_proposal hc hproposal

theorem exactVerdict_of_error {e : SolverError} (h : backend.check p = .error e) :
    exactVerdict backend p = greedyVerdict p := by
  rw [exactVerdict, h]
  exact ite_self _

/-- The verdict is the greedy one where the path admits its bindings, and else the one on the
formula, if there is one. -/
theorem exactVerdict_cases (backend : SatBackend) (p : Path) :
    ((greedyVerdict p).feasible = true ∧ p.admits (greedyVerdict p).bindings = true ∧
        exactVerdict backend p = greedyVerdict p) ∨
      backend.check p = .ok (exactVerdict backend p) ∨
      (∃ e, backend.check p = .error e) ∧ exactVerdict backend p = greedyVerdict p := by
  by_cases h : (greedyVerdict p).feasible && p.admits (greedyVerdict p).bindings
  · refine .inl ⟨(Bool.and_eq_true_iff.mp h).1, (Bool.and_eq_true_iff.mp h).2, ?_⟩
    exact if_pos h
  · cases hcheck : backend.check p with
    | ok v =>
        have hv : exactVerdict backend p = v := by
          rw [exactVerdict, hcheck]
          exact if_neg h
        rw [hv]
        exact .inr (.inl rfl)
    | error e => exact .inr (.inr ⟨⟨e, rfl⟩, exactVerdict_of_error hcheck⟩)

/-- A path admits the bindings with which it is found feasible, where the decision procedure does not
fail on it. -/
theorem exactVerdict_admits (hb : backend.Sound) (hn : ¬ backend.FailsOn p)
    (h : (exactVerdict backend p).feasible = true) :
    p.admits (exactVerdict backend p).bindings = true := by
  rcases exactVerdict_cases backend p with ⟨-, hadmits, heq⟩ | hcheck | ⟨⟨e, herror⟩, -⟩
  · rw [heq]
    exact hadmits
  · exact (check_choice hb hcheck h).2
  · exact absurd (hb.failsOn_of_error herror) hn

/-- Its bindings are a choice in any case. -/
theorem isChoice_exactVerdict (hb : backend.Sound) (h : (exactVerdict backend p).feasible = true) :
    p.IsChoice (exactVerdict backend p).bindings := by
  rcases exactVerdict_cases backend p with ⟨hfeasible, -, heq⟩ | hcheck | ⟨-, heq⟩
  · rw [heq]
    exact isChoice_greedyVerdict hfeasible
  · exact (check_choice hb hcheck h).1
  · rw [heq] at h ⊢
    exact isChoice_greedyVerdict h

/-- A path that admits a choice is found feasible, whichever way its verdict is found. -/
theorem exactVerdict_feasible_of_choice (hb : backend.Exact) {b : Bindings} (hchoice : p.IsChoice b)
    (hadmits : p.admits b = true) : (exactVerdict backend p).feasible = true := by
  obtain ⟨v, hv, hfeasible⟩ := check_feasible_of_choice hb hchoice hadmits
  rcases exactVerdict_cases backend p with ⟨hgreedy, -, heq⟩ | hcheck | ⟨⟨e, herror⟩, -⟩
  · rw [heq, hgreedy]
  · rw [hv] at hcheck
    rw [← Except.ok.inj hcheck, hfeasible]
  · rw [hv] at herror
    cases herror

theorem exactVerdict_bindings_of_infeasible (hb : backend.Sound)
    (h : (exactVerdict backend p).feasible = false) : (exactVerdict backend p).bindings = .empty := by
  rcases exactVerdict_cases backend p with ⟨-, -, heq⟩ | hcheck | ⟨-, heq⟩
  · rw [heq] at h ⊢
    exact bindings_of_infeasible h
  · exact check_bindings_of_infeasible hb hcheck h
  · rw [heq] at h ⊢
    exact bindings_of_infeasible h

/-- **Asking the greedy solver first changes no verdict.** Over a decision procedure that never
fails, there is a verdict on the formula, and it finds the same paths feasible. -/
theorem exactWith_feasible_eq_check (hb : backend.Exact) (hn : backend.NeverFails) (p : Path) :
    (backend.check p).map Verdict.feasible = .ok ((Solver.exactWith backend).solve p).feasible := by
  show (backend.check p).map Verdict.feasible = .ok (exactVerdict backend p).feasible
  rcases exactVerdict_cases backend p with ⟨hfeasible, hadmits, heq⟩ | hcheck | ⟨⟨e, herror⟩, -⟩
  · -- what the greedy solver binds are candidates, so the formula has a model too
    obtain ⟨v, hcheck, hv⟩ :=
      check_feasible_of_choice hb (isChoice_greedyVerdict hfeasible) hadmits
    rw [heq, hfeasible, hcheck, ← hv]
    rfl
  · rw [hcheck]
    rfl
  · exact absurd (hb.toSound.failsOn_of_error herror) (hn.not_failsOn p)

theorem squeezedPath_same_verdict :
    (SatBackend.ofSearch Sat.solve).Exact ∧ (SatBackend.ofSearch Sat.solve).NeverFails ∧
      ((SatBackend.ofSearch Sat.solve).check squeezedPath).map Verdict.feasible =
        .ok (Solver.exact.solve squeezedPath).feasible :=
  ⟨exact_solve, neverFails_ofSearch _,
    exactWith_feasible_eq_check exact_solve (neverFails_ofSearch _) squeezedPath⟩

/-- **The bindings are sound.** Those of a feasible verdict have a value for each variable of the
path and for nothing else, and no condition rejects the value of its variable, whether the greedy
solver or the decision procedure found it. An infeasible verdict has none. Only where the procedure
fails on the path is the verdict of the greedy solver kept without a check. -/
theorem exactWith_bindings_sound (hb : backend.Sound) (p : Path) :
    (((Solver.exactWith backend).solve p).feasible = true →
        (∀ x, x ∈ ((Solver.exactWith backend).solve p).bindings.keys ↔ x ∈ p.vars) ∧
          (¬ backend.FailsOn p →
            p.admits ((Solver.exactWith backend).solve p).bindings = true)) ∧
      (((Solver.exactWith backend).solve p).feasible = false →
        ((Solver.exactWith backend).solve p).bindings = .empty) ∧
      (backend.FailsOn p → (Solver.exactWith backend).solve p = Solver.greedy.solve p) := by
  refine ⟨fun h => ⟨(isChoice_exactVerdict hb h).keys, fun hn => exactVerdict_admits hb hn h⟩,
    exactVerdict_bindings_of_infeasible hb, ?_⟩
  rintro ⟨reason, hfails⟩
  exact exactVerdict_of_error (e := .backend reason) (by rw [SatBackend.check, hfails])

theorem squeezedPath_bindings_sound :
    (SatBackend.ofSearch Sat.solve).Sound ∧
      ¬ (SatBackend.ofSearch Sat.solve).FailsOn squeezedPath ∧
      (Solver.exact.solve squeezedPath).feasible = true ∧
      squeezedPath.admits (Solver.exact.solve squeezedPath).bindings = true := by
  have hfeasible : (Solver.exact.solve squeezedPath).feasible = true := by decide +kernel
  have hn := (neverFails_ofSearch Sat.solve).not_failsOn squeezedPath
  refine ⟨exact_solve.toSound, hn, hfeasible, ?_⟩
  exact ((exactWith_bindings_sound exact_solve.toSound squeezedPath).1 hfeasible).2 hn

/-- A procedure that fails leaves bindings that the path rejects. -/
example :
    let p : Path := ⟨"p", [⟨"x", .gt, .int 3, false⟩, ⟨"x", .gt, .int 3, true⟩], true, .empty, []⟩
    let v := (Solver.exactWith fun _ => .failed "interrupted").solve p
    v.feasible = true ∧ v.bindings.find? "x" = some (.int 2) ∧ p.admits v.bindings = false := by
  decide

end Testwright
