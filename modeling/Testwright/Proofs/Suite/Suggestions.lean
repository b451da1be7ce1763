import Testwright.Proofs.Analysis.Enumeration
import Testwright.Proofs.Ids
import Testwright.Proofs.Solver.Exact
import Testwright.Proofs.Suite.Driving
import Testwright.Proofs.Suite.Frames

/-!
# Suggestions that close their gaps

The suggestion for a path that no test drives is put among the test sources. It opens no gap, and
it closes its own if its frame is read back, but otherwise holds no test at all
(`path_suggestion_closes_gap`). The conditions of a path stand in the display name, where that of a
false side has a closing parenthesis, so its gap remains (`meter_suggestion_not_found`).
-/

namespace Testwright

open Text Source

variable {backend : SatBackend} {s : Solver} {method body : String} {path path' : Path}

/-! ## Paths and their identifiers -/

theorem toList_id_pathAt (method : String) (ps : List Predicate) (mask : Nat) :
    (pathAt method ps mask).id.toList =
      (method.toList ++ "_path_".toList) ++ Nat.toDigits 10 mask := by
  show (method ++ "_path_" ++ mask.repr).toList = _
  simp

@[simp] theorem Path.id_solved (s : Solver) (p : Path) : (p.solved s).id = p.id := rfl

/-- The number of a path is the one at the end of its identifier. -/
theorem serial_pathAt (method : String) (ps : List Predicate) (mask : Nat) :
    serial (pathAt method ps mask).id = mask := by
  refine serial_of_toList _ (toList_id_pathAt method ps mask) ?_
  intro c hc
  rw [List.getLast?_append_of_ne_nil _ (by decide)] at hc
  cases hc
  decide

/-- Different paths of a method have different identifiers. -/
theorem eq_of_id_eq (hpath : path ∈ (analyze s method body).paths)
    (hpath' : path' ∈ (analyze s method body).paths) (hid : path.id = path'.id) :
    path = path' := by
  rw [paths_analyze] at hpath hpath'
  obtain ⟨mask, -, rfl⟩ := mem_solvedPaths.mp hpath
  obtain ⟨mask', -, rfl⟩ := mem_solvedPaths.mp hpath'
  have hserial := congrArg serial hid
  rw [Path.id_solved, Path.id_solved, serial_pathAt, serial_pathAt] at hserial
  rw [hserial]

/-- The name of the test for a path is the name of the method between word characters. -/
theorem exists_title_suffix (hpath : path ∈ (analyze s method body).paths) :
    ∃ suffix, (∀ c ∈ suffix, isWord c = true) ∧
      ("test_" ++ path.id).toList = "test_".toList ++ (method.toList ++ suffix) := by
  rw [paths_analyze] at hpath
  obtain ⟨mask, -, rfl⟩ := mem_solvedPaths.mp hpath
  refine ⟨"_path_".toList ++ Nat.toDigits 10 mask, fun c hc => ?_, ?_⟩
  · rcases List.mem_append.mp hc with hc | hc
    · exact List.all_eq_true.mp (by decide) c hc
    · exact isWord_of_isDigit (isDigit_of_isAsciiDigit (isDigit_of_mem_toDigits hc))
  · rw [String.toList_append, Path.id_solved, toList_id_pathAt, List.append_assoc]

/-- A feasible path admits the inputs that the solver found for it. -/
theorem admits_inputs (hb : backend.Sound) (hn : backend.NeverFails)
    (hpath : path ∈ (analyze (.exactWith backend) method body).paths)
    (hfeasible : path.feasible = true) : path.admits path.inputs = true := by
  rw [paths_analyze] at hpath
  obtain ⟨mask, -, rfl⟩ := mem_solvedPaths.mp hpath
  let p := pathAt method (predicates body) mask
  have hverdict : (exactVerdict backend p).feasible = true := hfeasible
  show p.admits (exactVerdict backend p).bindings = true
  exact exactVerdict_admits hb (hn.not_failsOn p) hverdict

/-! ## Tests that drive a path -/

/-- The test in the frame for a feasible path drives it. -/
theorem exists_unit_covers (hb : backend.Sound) (hn : backend.NeverFails)
    (hpath : path ∈ (analyze (.exactWith backend) method body).paths)
    (hfeasible : path.feasible = true)
    (hframe : IsFramable method path.constraint path.inputs) :
    ∃ t ∈ testUnits (testFrame ("test_" ++ path.id) method path.constraint path.inputs),
      t.covers path = true := by
  obtain ⟨suffix, hsuffix, htitle⟩ := exists_title_suffix hpath
  obtain ⟨t, ht, -, hliterals⟩ :=
    exists_unit_of_testFrame hframe (isPlainName_of_title hframe.method htitle hsuffix)
  refine ⟨t, ht, TestUnit.covers_of_admits (admits_inputs hb hn hpath hfeasible) ?_⟩
  exact fun x _ v hv => hliterals (x, v) (NameMap.find?_eq_some_iff.mp hv)

/-- No literal of an analysis has a closing parenthesis or an at sign. -/
def Analysis.HasPlainLiterals (a : Analysis) : Prop :=
  ∀ path ∈ a.paths, ∀ c ∈ path.conditions,
    ')' ∉ c.value.render.toList ∧ '@' ∉ c.value.render.toList

/-- A variable that is arranged is not written with these characters. -/
theorem notMem_comparison_of_isArranged {x : Char} (hx : x = ')' ∨ x = '@') {c : Condition}
    {v : Value} (harranged : IsArranged (c.var, v)) (hvalue : x ∉ c.value.render.toList) :
    x ∉ c.comparison.toList := by
  refine notMem_comparison hx (fun hmem => ?_) hvalue
  have hframe := isFrameChar_of_isWord (isWord_of_isPlainName harranged.name x hmem)
  obtain ⟨-, hparen, hat⟩ := of_isFrameChar hframe
  exact hx.elim hparen hat

/-- The frame for a feasible path holds no test unless it is read back. -/
theorem testUnits_eq_nil_of_path (hb : backend.Sound) (hn : backend.NeverFails)
    (hpath : path ∈ (analyze (.exactWith backend) method body).paths)
    (hfeasible : path.feasible = true)
    (hmethod : ∀ c ∈ method.toList, isWord c = true ∨ c = '$')
    (hinputs : ∀ e ∈ path.inputs.entries, IsArranged e)
    (hliterals : (analyze (.exactWith backend) method body).HasPlainLiterals)
    (hnot : ¬ IsFramable method path.constraint path.inputs) :
    testUnits (testFrame ("test_" ++ path.id) method path.constraint path.inputs) = [] := by
  have harranged : ∀ c ∈ path.conditions, ∃ v, IsArranged (c.var, v) := by
    intro c hc
    obtain ⟨v, hv, -⟩ := Path.admits_iff.mp (admits_inputs hb hn hpath hfeasible) c hc
    exact ⟨v, hinputs _ (NameMap.find?_eq_some_iff.mp hv)⟩
  have hcloses : closesConditions path.constraint.toList = true := by
    refine closesConditions_constraint fun c hc => ?_
    obtain ⟨v, hv⟩ := harranged c hc
    exact notMem_comparison_of_isArranged (.inl rfl) hv (hliterals path hpath c hc).1
  have hat : '@' ∉ path.constraint.toList := by
    refine at_notMem_constraint fun c hc => ?_
    obtain ⟨v, hv⟩ := harranged c hc
    exact notMem_comparison_of_isArranged (.inr rfl) hv (hliterals path hpath c hc).2
  obtain ⟨suffix, hsuffix, htitle⟩ := exists_title_suffix hpath
  exact testUnits_testFrame_eq_nil hmethod hinputs hcloses hat htitle hsuffix hnot

/-! ## Gaps -/

/-- The gap of a path is that of a feasible one that no test drives. -/
theorem exists_path_of_mem_gapsOf {tests : List TestUnit} {a : Analysis} {id constraint : String}
    {inputs : Bindings} {d : String}
    (h : CoverageGap.uncoveredPath id constraint inputs d ∈ gapsOf tests a) :
    ∃ p ∈ a.paths, p.feasible = true ∧ (∀ t ∈ tests, t.covers p = false) ∧
      p.id = id ∧ p.constraint = constraint ∧ p.inputs = inputs := by
  rcases List.mem_append.mp h with hside | hpath
  · obtain ⟨u, -, hu⟩ := List.mem_map.mp hside
    cases hu
  · obtain ⟨p, hp, hof⟩ := List.mem_map.mp hpath
    obtain ⟨hmem, hnone⟩ := List.mem_filter.mp hp
    obtain ⟨hp, hfeasible⟩ := List.mem_filter.mp hmem
    rw [Bool.not_eq_true', List.any_eq_false] at hnone
    injection hof with hid hconstraint hinputs
    exact ⟨p, hp, hfeasible, fun t ht => Bool.eq_false_iff.mpr (hnone t ht), hid, hconstraint,
      hinputs⟩

/-- More tests open no gap. -/
theorem gapsOf_sublist {tests more : List TestUnit} (h : tests ⊆ more) (a : Analysis) :
    (gapsOf more a).Sublist (gapsOf tests a) := by
  refine (List.Sublist.refl _).append (List.Sublist.map _ (List.monotone_filter_right _ ?_))
  intro p hp
  rw [Bool.not_eq_true', List.any_eq_false] at hp ⊢
  exact fun t ht => hp t (h ht)

theorem gapsOf_append_sublist (tests more : List TestUnit) (a : Analysis) :
    (gapsOf (tests ++ more) a).Sublist (gapsOf tests a) :=
  gapsOf_sublist (List.subset_append_left tests more) a

/-- The methods of a class with a body are validated in their order. -/
theorem validateMethods_eq_map (s : Solver) (tests : List TestUnit) (source : String)
    (methods : List MethodInfo) :
    validateMethods s tests source methods =
      (methods.filter fun m => !(m.bodyIn source).isEmpty).map fun m =>
        validateUnits s tests m.name (m.bodyIn source) := by
  induction methods with
  | nil => rfl
  | cons m rest ih =>
      rw [validateMethods] at ih ⊢
      simp only [List.filterMap_cons, List.filter_cons, ih]
      cases (m.bodyIn source).isEmpty <;> rfl

/-- **When the suggestion for a path closes its gap.** With the suggested frame among the test
sources the method has the same analysis, and no gap that it did not have before. The gap of the
path is closed if the frame is read back. If it is not, then nothing changes at all, as long as no
literal of the method has a closing parenthesis or an at sign. -/
theorem path_suggestion_closes_gap (hb : backend.Sound) (hn : backend.NeverFails)
    {sources : List String} {source : String} {c : ClassInfo} {i k : Nat} {v : MethodValidation}
    {id constraint d : String} {inputs : Bindings} {sug : Suggestion}
    (hv : (validateClass (.exactWith backend) sources source c).validations[i]? = some v)
    (hgap : v.gaps[k]? = some (.uncoveredPath id constraint inputs d))
    (hsug : v.suggestions[k]? = some sug) :
    ∃ v', (validateClass (.exactWith backend) (sources ++ [sug.code]) source c).validations[i]? =
        some v' ∧
      v'.method = v.method ∧ v'.analysis = v.analysis ∧ v'.gaps.Sublist v.gaps ∧
      (IsFramable v.method constraint inputs →
        ∀ constraint' inputs' d', .uncoveredPath id constraint' inputs' d' ∉ v'.gaps) ∧
      ((∀ c ∈ v.method.toList, isWord c = true ∨ c = '$') →
        (∀ e ∈ inputs.entries, IsArranged e) → v.analysis.HasPlainLiterals →
        ¬ IsFramable v.method constraint inputs → v'.gaps = v.gaps) := by
  rw [validateClass, validateMethods_eq_map, List.getElem?_map, Option.map_eq_some_iff] at hv
  obtain ⟨m, hm, rfl⟩ := hv
  let tests := sources.flatMap testUnits
  let a := analyze (.exactWith backend) m.name (m.bodyIn source)
  change (gapsOf tests a)[k]? = _ at hgap
  -- the suggestion stands at the place of its gap
  have hcode : sug.code = testFrame ("test_" ++ id) m.name constraint inputs := by
    have hplace : ((gapsOf tests a).map fun g => g.suggest a (basePriority + g.priority +
        scoreBonus (validationScore tests.length a.feasiblePaths a.coverage)))[k]? = some sug := hsug
    rw [List.getElem?_map, hgap] at hplace
    cases hplace
    rfl
  obtain ⟨p, hp, hfeasible, -, rfl, rfl, rfl⟩ :=
    exists_path_of_mem_gapsOf (List.mem_of_getElem? hgap)
  refine ⟨validateUnits (.exactWith backend) (tests ++ testUnits sug.code) m.name (m.bodyIn source),
    ?_, rfl, rfl, gapsOf_append_sublist _ _ _, ?_, ?_⟩
  · rw [validateClass, validateMethods_eq_map, List.getElem?_map, hm, List.flatMap_append,
      List.flatMap_singleton]
    rfl
  · intro hframe constraint' inputs' d' hremains
    obtain ⟨p', hp', -, hnone, hid, -⟩ := exists_path_of_mem_gapsOf hremains
    cases eq_of_id_eq hp' hp hid
    obtain ⟨t, ht, hcovers⟩ := exists_unit_covers hb hn hp hfeasible hframe
    rw [← hcode] at ht
    have hnot := hnone t (List.mem_append_right _ ht)
    rw [hcovers] at hnot
    cases hnot
  · intro hmethod hinputs hliterals hnot
    have hnone := testUnits_eq_nil_of_path hb hn hp hfeasible hmethod hinputs hliterals hnot
    rw [← hcode] at hnone
    rw [hnone, List.append_nil]

/-! ## A method with one branch -/

/-- The body of a method that tells high values from low ones. -/
def meterBody : String :=
  "\x7b\n    if (x > 3) \x7b\n        return 1;\n    \x7d\n    return 0;\n\x7d"

/-- A class with this method. -/
def meter : ClassInfo := ⟨"Meter", "", [⟨"level", [], "int", some meterBody⟩], []⟩

/-- The gap of the path on the true side. -/
def highGap : CoverageGap :=
  .uncoveredPath "level_path_0" "x > 3" (.ofList [("x", .int 4)])
    "No test drives path level_path_0: x > 3"

/-- The gap of the path on the false side. -/
def lowGap : CoverageGap :=
  .uncoveredPath "level_path_1" "!(x > 3)" (.ofList [("x", .int 2)])
    "No test drives path level_path_1: !(x > 3)"

theorem validations_meter (sources : List String) :
    (validateClass .exact sources "" meter).validations =
      [validateUnits .exact (sources.flatMap testUnits) "level" meterBody] := by
  have hbody : (meter.methods.filter fun m => !(m.bodyIn "").isEmpty) = meter.methods := by
    decide +kernel
  rw [validateClass, validateMethods_eq_map, hbody]
  rfl

theorem gaps_meter : (validateUnits .exact [] "level" meterBody).gaps = [highGap, lowGap] := by
  show gapsOf [] (analyze .exact "level" meterBody) = _
  decide +kernel

theorem suggestions_meter :
    ∃ high low, (validateUnits .exact [] "level" meterBody).suggestions = [high, low] ∧
      low.code = testFrame "test_level_path_1" "level" "!(x > 3)" (.ofList [("x", .int 2)]) := by
  have hsuggestions := suggestions_validateUnits .exact [] "level" meterBody
  rw [gaps_meter] at hsuggestions
  exact ⟨_, _, hsuggestions, rfl⟩

theorem isArranged_of_mem {n : Int64} :
    ∀ e ∈ (NameMap.ofList [("x", Value.int n)]).entries, IsArranged e := by
  have hname : isPlainName "x".toList = true ∧ isIdentifier "x" = true := by decide
  intro e he
  cases List.mem_singleton.mp he
  exact ⟨⟨hname.1, rfl⟩, hname.2⟩

theorem isWord_of_mem_level : ∀ c ∈ "level".toList, isWord c = true :=
  List.all_eq_true.mp (by decide)

theorem meter_suggestion_closes_gap :
    (SatBackend.ofSearch Sat.solve).Sound ∧ (SatBackend.ofSearch Sat.solve).NeverFails ∧
      ∃ v sug v',
      (validateClass .exact [] "" meter).validations[0]? = some v ∧ v.gaps[0]? = some highGap ∧
      v.suggestions[0]? = some sug ∧ IsFramable v.method "x > 3" (.ofList [("x", .int 4)]) ∧
      (validateClass .exact [sug.code] "" meter).validations[0]? = some v' ∧
      ∀ constraint inputs d, .uncoveredPath "level_path_0" constraint inputs d ∉ v'.gaps := by
  let v := validateUnits .exact [] "level" meterBody
  have hv : (validateClass .exact [] "" meter).validations[0]? = some v := by
    rw [validations_meter]
    rfl
  have hgap : v.gaps[0]? = some highGap := by
    rw [gaps_meter]
    rfl
  obtain ⟨high, low, hsuggestions, -⟩ := suggestions_meter
  have hsug : v.suggestions[0]? = some high := by
    rw [hsuggestions]
    rfl
  have hframe : IsFramable v.method "x > 3" (.ofList [("x", .int 4)]) :=
    ⟨isWord_of_mem_level, isArranged_of_mem, by decide, by decide⟩
  have hn := neverFails_ofSearch Sat.solve
  obtain ⟨v', hv', -, -, -, hclosed, -⟩ :=
    path_suggestion_closes_gap exact_solve.toSound hn hv hgap hsug
  exact ⟨exact_solve.toSound, hn, v, high, v', hv, hgap, hsug, hframe, hv', hclosed hframe⟩

/-- The suggestion for the path on the false side does not close its gap, although `x` is a plain
name with an integer: no test is found in its frame. -/
theorem meter_suggestion_not_found :
    ∃ v sug v', (validateClass .exact [] "" meter).validations[0]? = some v ∧
      v.gaps[1]? = some lowGap ∧ v.suggestions[1]? = some sug ∧
      (validateClass .exact [sug.code] "" meter).validations[0]? = some v' ∧
      lowGap ∈ v'.gaps := by
  obtain ⟨high, low, hsuggestions, hcode⟩ := suggestions_meter
  have htitle : "test_level_path_1".toList = "test_".toList ++ ("level".toList ++ "_path_1".toList) := by
    decide
  have hnone : testUnits low.code = [] := by
    rw [hcode]
    exact testUnits_testFrame_eq_nil (fun c hc => .inl (isWord_of_mem_level c hc)) isArranged_of_mem
      (by decide) (by decide) htitle (List.all_eq_true.mp (by decide))
      fun hframe => hframe.display (by decide)
  let v := validateUnits .exact [] "level" meterBody
  have hagain : (validateClass .exact [low.code] "" meter).validations[0]? = some v := by
    rw [validations_meter, List.flatMap_singleton, hnone]
    rfl
  refine ⟨v, low, v, ?_, ?_, ?_, hagain, ?_⟩
  · rw [validations_meter]
    rfl
  · rw [gaps_meter]
    rfl
  · rw [hsuggestions]
    rfl
  · rw [gaps_meter]
    exact List.mem_cons_of_mem _ List.mem_cons_self

end Testwright
