import Testwright.Proofs.Solver.Greedy
import Testwright.Solver.Exact

/-!
# The last condition on a variable

What the greedy solver guarantees. A later proposal replaces an earlier one, so of all conditions on
a variable only the last one has a say in its value, and this one admits it. Main statement:
`greedy_last_word`, which draws the conclusion for paths whose conditions are on different
variables: the greedy bindings satisfy them, and the exact solver gives the same verdict.
-/

namespace Testwright

variable {p : Path} {cs : List Condition} {c : Condition} {x : String}

/-- The last condition on a variable admits the value that the variable is bound to. -/
theorem exists_admitted_of_getLast? (h : (greedyVerdict p).feasible = true)
    (hlast : (conditionsOn p.conditions x).getLast? = some c) :
    ∃ v, (greedyVerdict p).bindings.find? x = some v ∧ c.admits v = true := by
  have hproposals := proposals_of_feasible h
  have hmem : c ∈ p.conditions := (mem_conditionsOn.mp (List.mem_of_getLast? hlast)).1
  -- no condition of the path was without a proposal
  have hsome : c.proposal.isSome = true :=
    proposals_isSome_iff.mp (by rw [hproposals]; rfl) c hmem
  obtain ⟨v, hv⟩ := Option.isSome_iff_exists.mp hsome
  refine ⟨v, ?_, Condition.admits_of_proposal hv⟩
  rw [find?_proposals hproposals, hlast]
  exact hv

/-- Where no variable occurs twice, each condition is the only one on its variable. -/
theorem conditionsOn_eq_singleton (h : (cs.map Condition.var).Nodup) (hc : c ∈ cs) :
    conditionsOn cs c.var = [c] := by
  induction cs with
  | nil => exact absurd hc List.not_mem_nil
  | cons d rest ih =>
      rw [List.map_cons, List.nodup_cons] at h
      obtain ⟨hd, hrest⟩ := h
      rcases List.mem_cons.mp hc with rfl | hmem
      · have hothers : conditionsOn rest c.var = [] := by
          apply List.filter_eq_nil_iff.mpr
          intro e he heq
          exact hd (List.mem_map.mpr ⟨e, he, by simpa using heq⟩)
        unfold conditionsOn at hothers ⊢
        rw [List.filter_cons_of_pos (by simp), hothers]
      · have hne : d.var ≠ c.var := by
          intro heq
          exact hd (heq ▸ List.mem_map_of_mem hmem)
        have hlater := ih hrest hmem
        unfold conditionsOn at hlater ⊢
        rw [List.filter_cons_of_neg (by simpa using hne), hlater]

/-- So the path admits the bindings: each condition has the last word on its variable. -/
theorem admits_of_nodup_vars (h : (greedyVerdict p).feasible = true) (hvars : p.vars.Nodup) :
    p.admits (greedyVerdict p).bindings = true := by
  apply Path.admits_iff.mpr
  intro c hc
  apply exists_admitted_of_getLast? h
  rw [conditionsOn_eq_singleton hvars hc]
  rfl

/-- The exact solver takes over greedy bindings that the path admits. -/
theorem exactVerdict_eq_greedy (backend : SatBackend) (h : (greedyVerdict p).feasible = true)
    (hadmits : p.admits (greedyVerdict p).bindings = true) :
    exactVerdict backend p = greedyVerdict p := by
  unfold exactVerdict
  simp only [h, hadmits, Bool.and_self, if_true]

/-- **What the greedy solver guarantees.** The bindings of a feasible verdict have a value for each
variable of the path and for nothing else, and the last condition on a variable admits its value,
whatever it compares with what. If no variable occurs in two conditions, the path admits the
bindings, and the exact solver gives this verdict, over any decision procedure. An infeasible
verdict has no bindings. -/
theorem greedy_last_word (backend : SatBackend) (p : Path) :
    ((Solver.greedy.solve p).feasible = true →
        (∀ x, x ∈ (Solver.greedy.solve p).bindings.keys ↔ x ∈ p.vars) ∧
          (∀ x c, (conditionsOn p.conditions x).getLast? = some c →
            ∃ v, (Solver.greedy.solve p).bindings.find? x = some v ∧ c.holds v ≠ some false) ∧
          (p.vars.Nodup → p.admits (Solver.greedy.solve p).bindings = true ∧
            (Solver.exactWith backend).solve p = Solver.greedy.solve p)) ∧
      ((Solver.greedy.solve p).feasible = false → (Solver.greedy.solve p).bindings = .empty) := by
  refine ⟨?_, bindings_of_infeasible⟩
  intro h
  refine ⟨?_, ?_, ?_⟩
  · intro x
    rw [Path.mem_vars]
    exact mem_keys_proposals (proposals_of_feasible h)
  · intro x c hlast
    obtain ⟨v, hv, hadmits⟩ := exists_admitted_of_getLast? h hlast
    exact ⟨v, hv, Condition.admits_iff.mp hadmits⟩
  · intro hvars
    have hadmits := admits_of_nodup_vars h hvars
    exact ⟨hadmits, exactVerdict_eq_greedy backend h hadmits⟩

/-- A path of conditions of different kinds on different variables, two of them at the ends of the
range of integers. -/
def mixedPath : Path where
  id := "mixed"
  conditions := [⟨"low", .ge, .int Int64.minValue, false⟩, ⟨"top", .ne, .int Int64.maxValue, false⟩,
    ⟨"mode", .eq, .symbol "Mode.FAST", true⟩, ⟨"o", .instanceOf, .str "T", false⟩,
    ⟨"limit", .lt, .symbol "LIMIT", true⟩, ⟨"s", .isNull, .null, true⟩]

theorem mixedPath_same_verdict :
    (Solver.greedy.solve mixedPath).feasible = true ∧ mixedPath.vars.Nodup ∧
      mixedPath.admits (Solver.greedy.solve mixedPath).bindings = true ∧
      Solver.exact.solve mixedPath = Solver.greedy.solve mixedPath := by
  have hfeasible : (Solver.greedy.solve mixedPath).feasible = true := by decide
  have hvars : mixedPath.vars.Nodup := by decide
  have hsame := (greedy_last_word (SatBackend.ofSearch Sat.solve) mixedPath).1 hfeasible
  exact ⟨hfeasible, hvars, hsame.2.2 hvars⟩

end Testwright
