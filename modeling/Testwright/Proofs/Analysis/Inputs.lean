import Testwright.Proofs.Analysis.Enumeration
import Testwright.Proofs.Solver.Exact
import Testwright.Proofs.Source.Conditions

/-!
# Every input takes one path

Values for the variables that decide all predicates of a method say on which side each predicate is
taken. Main statement: as long as no combination of sides is left out, exactly one path is taken on
such values, and the exact solver finds it feasible (`exists_unique_path_taken`).
-/

namespace Testwright

open Testwright.Sat

/-! ## Literals of predicates -/

/-- A literal is a value of its own or a symbol; there is none for an object of which only its
existence matters. -/
theorem Value.ofLiteral_ne_nonNull (cs : List Char) : Value.ofLiteral cs ≠ .nonNull := by
  unfold ofLiteral ofTrimmed
  repeat' split
  all_goals simp

namespace Source

theorem value_ne_nonNull_of_compareSides {left right : List Char} {r : Relation} {c : Comparison}
    (h : compareSides left r right = some c) : c.value ≠ .nonNull := by
  unfold compareSides at h
  split at h
  · cases h
  · cases h
    exact Value.ofLiteral_ne_nonNull _

theorem value_ne_nonNull_of_readInstanceOf {cs : List Char} {c : Comparison}
    (h : readInstanceOf cs = some c) : c.value ≠ .nonNull := by
  unfold readInstanceOf at h
  split at h <;> cases h
  simp

theorem value_ne_nonNull_of_readEquals {cs : List Char} {c : Comparison}
    (h : readEquals cs = some c) : c.value ≠ .nonNull := by
  unfold readEquals at h
  split at h <;> cases h
  exact Value.ofLiteral_ne_nonNull _

theorem value_ne_nonNull_of_readFlag {cs : List Char} {c : Comparison}
    (h : readFlag cs = some c) : c.value ≠ .nonNull := by
  unfold readFlag at h
  split at h <;> cases h
  simp

/-- No condition that is read compares with an object of which only its existence matters. -/
theorem value_ne_nonNull_of_readCondition {cs : List Char} {c : Comparison}
    (h : readCondition cs = some c) : c.value ≠ .nonNull := by
  cases isReadAs_of_readCondition h with
  | instanceOf _ hread => exact value_ne_nonNull_of_readInstanceOf hread
  | equals _ _ hread => exact value_ne_nonNull_of_readEquals hread
  | comparison _ _ _ _ hread => exact value_ne_nonNull_of_compareSides hread
  | flag _ _ _ hread => exact value_ne_nonNull_of_readFlag hread

theorem value_ne_nonNull_of_mem_predicatesAt {p : Predicate} {line : LineNumber}
    {sites : List Text.Found} (hp : p ∈ predicatesAt line sites) : p.value ≠ .nonNull := by
  induction sites generalizing line with
  | nil => cases hp
  | cons site rest ih =>
      rw [predicatesAt] at hp
      split at hp
      · rename_i c hc
        obtain ⟨inner, -, hread⟩ := Option.bind_eq_some_iff.mp hc
        rcases List.mem_cons.mp hp with rfl | hp
        · exact value_ne_nonNull_of_readCondition hread
        · exact ih hp
      · exact ih hp

end Source

/-! ## Deciding predicates -/

/-- A value decides a predicate: it can be judged, and where the predicate compares by size with an
integer, it is an integer. -/
structure Predicate.Decides (p : Predicate) (v : Value) : Prop where
  judged : ((p.condition false).holds v).isSome = true
  integer : p.relation.isOrdering = true → p.value.asInt.isSome = true → v.asInt.isSome = true

/-- A value that decides a predicate meets exactly one of its sides. -/
theorem Predicate.Decides.exists_holds_iff {p : Predicate} {v : Value} (h : p.Decides v) :
    ∃ falseSide : Bool, ∀ negated,
      (p.condition negated).holds v = some (falseSide == negated) := by
  have hholds : ∀ negated, (p.condition negated).holds v =
      ((p.condition false).compares v).map (· != negated) := by
    intro negated
    refine if_neg ?_
    simp only [Bool.and_eq_true, not_and, Bool.not_eq_true]
    rintro ⟨hordering, hliteral⟩
    simp [Option.isNone_eq_false_iff, h.integer hordering hliteral]
  have hjudged := h.judged
  rw [hholds, Option.isSome_map] at hjudged
  obtain ⟨met, hmet⟩ := Option.isSome_iff_exists.mp hjudged
  refine ⟨!met, fun negated => ?_⟩
  rw [hholds, hmet]
  cases met <;> cases negated <;> rfl

/-- Whether all conditions of a path hold of the values of an input. -/
def Path.isTakenBy (p : Path) (input : String → Value) : Bool :=
  p.conditions.all fun c => c.holds (input c.var) == some true

variable {backend : SatBackend} {method : String} {ps : List Predicate} {input : String → Value}

@[simp] theorem Path.isTakenBy_solved (s : Solver) (p : Path) :
    (p.solved s).isTakenBy input = p.isTakenBy input := rfl

theorem isTakenBy_pathAt_iff {mask : Nat} :
    (pathAt method ps mask).isTakenBy input = true ↔
      ∀ j (hj : j < ps.length),
        (ps[j].condition (takesFalseSide mask j)).holds (input ps[j].var) = some true := by
  simp only [Path.isTakenBy, pathAt, List.all_map, List.all_eq_true, Function.comp_apply,
    beq_iff_eq, Prod.forall, List.mem_zipIdx_iff_getElem?, List.getElem?_eq_some_iff]
  constructor
  · intro h j hj
    exact h ps[j] j ⟨hj, rfl⟩
  · rintro h p j ⟨hj, hp⟩
    rw [← hp]
    exact h j hj

/-- An input that decides all predicates takes the path of one number. -/
theorem exists_mask_isTakenBy_iff (method : String) (hfew : ps.length ≤ 4)
    (hdecides : ∀ p ∈ ps, p.Decides (input p.var)) :
    ∃ mask < pathCount ps.length, ∀ m < pathCount ps.length,
      (pathAt method ps m).isTakenBy input = true ↔ m = mask := by
  have hsides : ∀ p : Predicate, ∃ falseSide : Bool, p ∈ ps → ∀ negated,
      (p.condition negated).holds (input p.var) = some (falseSide == negated) := by
    intro p
    by_cases hp : p ∈ ps
    · obtain ⟨falseSide, hside⟩ := (hdecides p hp).exists_holds_iff
      exact ⟨falseSide, fun _ => hside⟩
    · exact ⟨false, fun h => absurd h hp⟩
  choose falseSide hside using hsides
  have htaken : ∀ m, (pathAt method ps m).isTakenBy input = true ↔
      ∀ j (hj : j < ps.length), takesFalseSide m j = falseSide ps[j] := by
    intro m
    rw [isTakenBy_pathAt_iff]
    refine forall₂_congr fun j hj => ?_
    rw [hside _ (List.getElem_mem hj), Option.some_inj, beq_iff_eq, eq_comm]
  obtain ⟨mask, hmask, hbits⟩ := exists_mask ps.length
    (fun j => (ps[j]?).any falseSide) (fun j hj h4 => absurd hj (by omega))
  have hbits' : ∀ j (hj : j < ps.length), takesFalseSide mask j = falseSide ps[j] := by
    intro j hj
    simp [hbits j hj, hj]
  refine ⟨mask, hmask, fun m hm => (htaken m).trans ⟨fun h => ?_, fun h => h ▸ hbits'⟩⟩
  exact eq_of_takesFalseSide_eq hm hmask fun j hj => (h j hj).trans (hbits' j hj).symm

/-- The solved paths that such an input takes are one path. -/
theorem exists_filter_isTakenBy_eq (method : String) (s : Solver) (hfew : ps.length ≤ 4)
    (hdecides : ∀ p ∈ ps, p.Decides (input p.var)) :
    ∃ mask, (pathAt method ps mask).isTakenBy input = true ∧
      (solvedPaths s method ps).filter (·.isTakenBy input) =
        [(pathAt method ps mask).solved s] := by
  obtain ⟨mask, hmask, htaken⟩ := exists_mask_isTakenBy_iff method hfew hdecides
  refine ⟨mask, (htaken mask hmask).mpr rfl, ?_⟩
  have hcongr : ∀ m ∈ List.range (pathCount ps.length),
      (pathAt method ps m).isTakenBy input = (m == mask) := by
    intro m hm
    rw [Bool.eq_iff_iff, beq_iff_eq]
    exact htaken m (List.mem_range.mp hm)
  rw [solvedPaths, List.filter_map]
  simp only [Function.comp_def, Path.isTakenBy_solved]
  rw [List.filter_congr hcongr, List.filter_beq,
    List.count_eq_one_of_mem List.nodup_range (List.mem_range.mpr hmask)]
  rfl

/-! ## Feasible paths -/

/-- **Every input takes exactly one path, and that path is feasible.** Where no predicate is left on
its true side only, values that decide all predicates of a method meet all conditions of one path,
and the exact solver does not rule it out. -/
theorem exists_unique_path_taken (hb : backend.Exact) (method body : String)
    (hfew : (Source.predicates body).length ≤ 4) (input : String → Value)
    (hdecides : ∀ p ∈ Source.predicates body, p.Decides (input p.var)) :
    ∃ path, (analyze (.exactWith backend) method body).paths.filter (·.isTakenBy input) = [path] ∧
      path.feasible = true := by
  obtain ⟨mask, htaken, hfilter⟩ :=
    exists_filter_isTakenBy_eq method (.exactWith backend) hfew hdecides
  let p := pathAt method (Source.predicates body) mask
  have hlit : ∀ c ∈ p.conditions, c.relation = .eq ∨ c.relation = .ne → c.value ≠ .nonNull := by
    intro c hc _
    -- the literals of the conditions come from the text
    obtain ⟨⟨q, j⟩, hq, rfl⟩ := List.mem_map.mp hc
    exact Source.value_ne_nonNull_of_mem_predicatesAt (List.fst_mem_of_mem_zipIdx hq)
  have hinput : ∀ c ∈ p.conditions, c.holds (input c.var) ≠ some false := by
    intro c hc
    rw [beq_iff_eq.mp (List.all_eq_true.mp htaken c hc)]
    simp
  obtain ⟨b, hchoice, hadmits⟩ := exists_choice_of_input hlit hinput
  refine ⟨p.solved (.exactWith backend), ?_, exactVerdict_feasible_of_choice hb hchoice hadmits⟩
  rw [paths_analyze, hfilter]

/-- A body with two predicates on `x`, one on `name` and one that is dropped. -/
def thresholdsBody : String :=
  "if (x > 10) { a(); }\nif (x < y || z) { }\nif (5 <= x) { b(); }\nif (name.equals(\"q\")) { c(); }"

/-- Values between the thresholds of `thresholdsBody`. -/
def betweenThresholds (name : String) : Value := if name = "x" then .int 7 else .str "p"

theorem thresholdsBody_path_taken :
    (SatBackend.ofSearch Sat.solve).Exact ∧ (Source.predicates thresholdsBody).length ≤ 4 ∧
      (∀ p ∈ Source.predicates thresholdsBody, p.Decides (betweenThresholds p.var)) ∧
      ∃ path, (analyze .exact "f" thresholdsBody).paths.filter
        (·.isTakenBy betweenThresholds) = [path] ∧ path.feasible = true := by
  have hpredicates : Source.predicates thresholdsBody =
      [⟨1, "x", .gt, .int 10⟩, ⟨3, "x", .ge, .int 5⟩, ⟨4, "name", .eq, .str "q"⟩] := by
    decide +kernel
  have hfew : (Source.predicates thresholdsBody).length ≤ 4 := by
    rw [hpredicates]
    decide
  have hdecides : ∀ p ∈ Source.predicates thresholdsBody, p.Decides (betweenThresholds p.var) := by
    rw [hpredicates]
    simp only [List.forall_mem_cons]
    refine ⟨⟨by decide, by decide⟩, ⟨by decide, by decide⟩, ⟨by decide, by decide⟩, by simp⟩
  exact ⟨exact_solve, hfew, hdecides,
    exists_unique_path_taken exact_solve "f" thresholdsBody hfew betweenThresholds hdecides⟩

end Testwright
