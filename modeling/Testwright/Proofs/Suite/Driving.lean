import Testwright.Proofs.Solver.Exact
import Testwright.Suite.Validation

/-!
# Tests that drive a path

A test drives a path when it has, for each variable of the path, a literal that all conditions on
the variable admit (`TestUnit.covers_iff`). Such literals, one a variable, are bindings that the
path admits, so a test drives a path exactly when some choice among its literals is admitted
(`TestUnit.covers_iff_exists_choice`). Other literals of the test do no harm.
-/

namespace Testwright

variable {backend : SatBackend} {t : TestUnit} {p : Path} {b : Bindings}

namespace TestUnit

/-- A value for a variable is among the literals that a test assigns to it. -/
def Assigns (t : TestUnit) (x : String) (v : Value) : Prop :=
  ∃ vs, t.inputs.find? x = some vs ∧ v ∈ vs

/-- A test drives a path when it assigns to each variable a literal that all conditions on the
variable admit. -/
theorem covers_iff :
    t.covers p = true ↔ ∀ x ∈ p.vars, ∃ v, t.Assigns x v ∧
      ∀ c ∈ conditionsOn p.conditions x, c.admits v = true := by
  have hgroup : ∀ (x : String) (cs : List Condition),
      ((t.inputs.find? x).any fun vs => vs.any fun v => cs.all fun c => c.admits v) = true ↔
        ∃ v, t.Assigns x v ∧ ∀ c ∈ cs, c.admits v = true := by
    intro x cs
    simp only [Option.any_eq_true, List.any_eq_true, List.all_eq_true, Assigns]
    constructor
    · rintro ⟨vs, hvs, v, hv, hadmits⟩
      exact ⟨v, ⟨vs, hvs, hv⟩, hadmits⟩
    · rintro ⟨v, ⟨vs, hvs, hv⟩, hadmits⟩
      exact ⟨vs, hvs, v, hv, hadmits⟩
  rw [covers, List.all_eq_true]
  constructor
  · intro h x hx
    have hentry := p.find?_byVariable x
    rw [if_pos hx] at hentry
    exact (hgroup x _).mp (h _ (NameMap.find?_eq_some_iff.mp hentry))
  · rintro h ⟨x, cs⟩ hentry
    have hfind := NameMap.find?_eq_some_iff.mpr hentry
    rw [Path.find?_byVariable] at hfind
    split at hfind
    · rename_i hx
      cases hfind
      exact (hgroup x _).mpr (h x hx)
    · cases hfind

/-- A test that assigns admitted values to the variables of a path drives the path. -/
theorem covers_of_admits (hadmits : p.admits b = true)
    (hassigns : ∀ x ∈ p.vars, ∀ v, b.find? x = some v → t.Assigns x v) : t.covers p = true := by
  refine covers_iff.mpr fun x hx => ?_
  obtain ⟨v, hv, hadm⟩ := Path.admits_iff_vars.mp hadmits x hx
  exact ⟨v, hassigns x hx v hv, hadm⟩

/-- **A test drives a path by a choice of its literals.** It does so exactly when some map gives to
each variable of the path a literal that the test assigns to it, so that the path admits the map. In
particular a test drives a path that the exact solver finds feasible when it assigns, alone or among
other literals, the solver's value to each variable that is bound. That needs a decision procedure
that does not fail on the path, since otherwise the solver's values need not be admitted. -/
theorem covers_iff_exists_choice (hb : backend.Sound) (t : TestUnit) (p : Path) :
    (t.covers p = true ↔
        ∃ b : Bindings, (∀ x ∈ p.vars, ∃ v, t.Assigns x v ∧ b.find? x = some v) ∧
          p.admits b = true) ∧
      (¬ backend.FailsOn p → ((Solver.exactWith backend).solve p).feasible = true →
        (∀ x v, ((Solver.exactWith backend).solve p).bindings.find? x = some v →
          t.Assigns x v) →
        t.covers p = true) := by
  refine ⟨⟨fun h => ?_, ?_⟩, fun hn hfeasible hassigns => ?_⟩
  · obtain ⟨b, hkeys, hassigns, hadmits⟩ := Path.exists_bindings_iff.mpr (covers_iff.mp h)
    refine ⟨b, fun x hx => ?_, hadmits⟩
    obtain ⟨v, hv⟩ := NameMap.mem_keys_iff.mp ((hkeys x).mpr hx)
    exact ⟨v, hassigns x v hv, hv⟩
  · rintro ⟨b, hchoice, hadmits⟩
    refine covers_of_admits hadmits fun x hx v hv => ?_
    obtain ⟨v', hassigns, hv'⟩ := hchoice x hx
    rw [hv] at hv'
    cases hv'
    exact hassigns
  · exact covers_of_admits (exactVerdict_admits hb hn hfeasible) fun x _ v => hassigns x v

/-- A path that leaves one integer to `x`. -/
def narrowPath : Path where
  id := "narrow"
  conditions := [⟨"x", .gt, .int 3, false⟩, ⟨"open", .eq, .bool false, false⟩,
    ⟨"x", .ge, .int 6, true⟩, ⟨"x", .ne, .int 5, false⟩]

/-- A test that assigns to `x` that integer, after another one. -/
def twiceTest : TestUnit :=
  Source.testUnit "twice".toList
    "int x = 7; boolean open = false; run(x, open); x = 4; run(x, open);".toList

/-- The test drives the path, since it assigns what the solver finds. -/
theorem twiceTest_covers_narrowPath :
    (SatBackend.ofSearch Sat.solve).Sound ∧
      ¬ (SatBackend.ofSearch Sat.solve).FailsOn narrowPath ∧
      (Solver.exact.solve narrowPath).feasible = true ∧
      (∀ x v, (Solver.exact.solve narrowPath).bindings.find? x = some v →
        twiceTest.Assigns x v) ∧
      twiceTest.covers narrowPath = true ∧
      ∃ b : Bindings, (∀ x ∈ narrowPath.vars, ∃ v, twiceTest.Assigns x v ∧ b.find? x = some v) ∧
        narrowPath.admits b = true := by
  have hn := (neverFails_ofSearch Sat.solve).not_failsOn narrowPath
  have hfeasible : (Solver.exact.solve narrowPath).feasible = true := by decide +kernel
  have hbindings : (Solver.exact.solve narrowPath).bindings.entries =
      [("open", .bool false), ("x", .int 4)] := by decide +kernel
  have hinputs : twiceTest.inputs.entries =
      [("open", [.bool false]), ("x", [.int 7, .int 4])] := by decide +kernel
  have hassigns : ∀ x v, (Solver.exact.solve narrowPath).bindings.find? x = some v →
      twiceTest.Assigns x v := by
    intro x v hv
    rw [NameMap.find?_eq_some_iff, hbindings] at hv
    simp only [List.mem_cons, Prod.mk.injEq, List.not_mem_nil, or_false] at hv
    rcases hv with ⟨rfl, rfl⟩ | ⟨rfl, rfl⟩
    · exact ⟨[.bool false], by rw [NameMap.find?, hinputs]; decide, by decide⟩
    · exact ⟨[.int 7, .int 4], by rw [NameMap.find?, hinputs]; decide, by decide⟩
  obtain ⟨hiff, hsolver⟩ := covers_iff_exists_choice exact_solve.toSound twiceTest narrowPath
  have hcovers := hsolver hn hfeasible hassigns
  exact ⟨exact_solve.toSound, hn, hfeasible, hassigns, hcovers, hiff.mp hcovers⟩

end TestUnit

end Testwright
