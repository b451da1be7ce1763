import Mathlib.Data.List.Nodup
import Testwright.Proofs.Path.Variables
import Testwright.Proofs.Sat.Formula
import Testwright.Proofs.Solver.Candidates
import Testwright.Solver.Encoding

/-!
# Models of an encoded path

The models of an encoded path are the choices of one candidate for each of its variables that no
condition rejects (`holds_formula_iff`), and decoding a model gives the choice back
(`decode_eq_of_selects`). The numbering is opened once: a candidate's number is its place in the
list of all candidates of all variables (`codes_encode`).
-/

namespace Testwright

open Testwright.Sat

/-! ## Numbers -/

/-- The candidates of each group, with their variable and their number. -/
def codes (gs : List (String × CandidateGroup)) : List ((String × Value) × Nat) :=
  gs.flatMap fun g => g.2.map fun e => ((g.1, e.1), e.2)

/-- The candidates of an encoded path, with their variable and their number. -/
def EncodedPath.codes (e : EncodedPath) : List ((String × Value) × Nat) :=
  Testwright.codes e.groups.entries

/-- Each variable of a path with each of its candidates. -/
def Path.options (p : Path) : List (String × Value) :=
  p.byVariable.entries.flatMap fun g => (candidates g.2).map fun v => (g.1, v)

theorem codes_numberGroups (n : Nat) (l : List (String × List Value)) :
    codes (numberGroups n l) = (l.flatMap fun g => g.2.map fun v => (g.1, v)).zipIdx n := by
  induction l generalizing n with
  | nil => rfl
  | cons g rest ih =>
      obtain ⟨name, vs⟩ := g
      have hrest := ih (n + vs.length)
      unfold codes at hrest ⊢
      rw [numberGroups, List.flatMap_cons, List.flatMap_cons, hrest, List.zipIdx_append,
        List.zipIdx_map, List.length_map]
      rfl

/-- The number of a candidate is its place among all candidates of all variables. -/
theorem codes_encode (p : Path) : p.encode.codes = p.options.zipIdx := by
  show codes (numberGroups 0 (p.byVariable.map fun _ cs => candidates cs).entries) = _
  rw [codes_numberGroups, Path.options, NameMap.map, List.flatMap_map]

theorem Path.mem_options {p : Path} {x : String} {v : Value} :
    (x, v) ∈ p.options ↔ x ∈ p.vars ∧ v ∈ candidates (conditionsOn p.conditions x) := by
  have hgroup : ∀ cs, (x, cs) ∈ p.byVariable.entries ↔
      x ∈ p.vars ∧ conditionsOn p.conditions x = cs := by
    intro cs
    rw [← NameMap.find?_eq_some_iff, find?_byVariable]
    simp
  simp [options, hgroup]

/-- No variable has a candidate twice. -/
theorem Path.nodup_options (p : Path) : p.options.Nodup := by
  rw [options, List.nodup_flatMap]
  refine ⟨fun g _ => (nodup_candidates g.2).map fun v w h => congrArg Prod.snd h, ?_⟩
  -- options of different groups differ in the variable
  refine p.byVariable.ascending.imp fun {g g'} hlt => ?_
  show List.Disjoint _ _
  intro o ho ho'
  obtain ⟨v, -, rfl⟩ := List.mem_map.mp ho
  obtain ⟨w, -, hw⟩ := List.mem_map.mp ho'
  have : g.1 = g'.1 := (congrArg Prod.fst hw).symm
  exact String.lt_irrefl _ (this ▸ hlt)

/-- The numbers are those from 0 on, each once. -/
theorem numbers_codes_encode (p : Path) :
    p.encode.codes.map (·.2) = List.range p.encode.codes.length := by
  rw [codes_encode, List.zipIdx_map_snd, List.length_zipIdx, List.range_eq_range']

theorem nodup_numbers_codes_encode (p : Path) : (p.encode.codes.map (·.2)).Nodup := by
  rw [numbers_codes_encode]
  exact List.nodup_range

/-- Every candidate of every variable has a number. -/
theorem options_codes_encode (p : Path) : p.encode.codes.map (·.1) = p.options := by
  rw [codes_encode, List.zipIdx_map_fst]

/-- Different candidates have different numbers, and different numbers are of different
candidates. -/
theorem code_number_eq_iff {p : Path} {c d : (String × Value) × Nat} (hc : c ∈ p.encode.codes)
    (hd : d ∈ p.encode.codes) : c.2 = d.2 ↔ c.1 = d.1 := by
  have hoptions : (p.encode.codes.map (·.1)).Nodup := by
    rw [options_codes_encode]
    exact p.nodup_options
  exact ⟨fun h => by rw [List.inj_on_of_nodup_map (nodup_numbers_codes_encode p) hc hd h],
    fun h => by rw [List.inj_on_of_nodup_map hoptions hc hd h]⟩

/-! ## Groups -/

theorem EncodedPath.mem_codes {e : EncodedPath} {x : String} {v : Value} {n : Nat} :
    ((x, v), n) ∈ e.codes ↔ ∃ g, e.groups.find? x = some g ∧ (v, n) ∈ g := by
  simp only [NameMap.find?_eq_some_iff, codes, Testwright.codes, List.mem_flatMap, List.mem_map]
  constructor
  · rintro ⟨⟨y, g⟩, hg, ⟨w, k⟩, he, h⟩
    cases h
    exact ⟨g, hg, he⟩
  · rintro ⟨g, hg, he⟩
    exact ⟨(x, g), hg, (v, n), he, rfl⟩

/-- There is a group for each variable of a path. -/
theorem Path.mem_keys_groups {p : Path} {x : String} :
    x ∈ p.encode.groups.keys ↔ x ∈ p.vars := by
  have hkeys : p.encode.groups.keys = p.byVariable.keys :=
    (names_numberGroups 0 _).trans (NameMap.keys_map _ _)
  rw [hkeys, NameMap.mem_keys_iff]
  simp [find?_byVariable]

/-- The numbers of a group are different. -/
theorem nodup_group {p : Path} {x : String} {g : CandidateGroup}
    (hg : p.encode.groups.find? x = some g) : (g.map (·.2)).Nodup := by
  have hsub : (g.map fun e => ((x, e.1), e.2)).Sublist p.encode.codes := by
    have hmem : (x, g) ∈ p.encode.groups.entries := NameMap.find?_eq_some_iff.mp hg
    exact (List.sublist_flatten_of_mem (List.mem_map.mpr ⟨_, hmem, rfl⟩))
  have := (nodup_numbers_codes_encode p).sublist (hsub.map (·.2))
  rwa [List.map_map] at this

/-- Exactly one number of a group is true when those of one candidate are, and no others. -/
theorem holds_exactlyOne_group {p : Path} {x : String} {g : CandidateGroup} {m : Model}
    (hg : p.encode.groups.find? x = some g) :
    Formula.holds m.assignment (exactlyOne (g.map (·.2))) = true ↔
      ∃ v ∈ g.map (·.1), ∀ e ∈ g, e.2 ∈ m ↔ e.1 = v := by
  have hcode : ∀ e ∈ g, ((x, e.1), e.2) ∈ p.encode.codes := fun e he =>
    EncodedPath.mem_codes.mpr ⟨g, hg, he⟩
  have hsame : ∀ e ∈ g, ∀ e' ∈ g, e.2 = e'.2 ↔ e.1 = e'.1 := by
    intro e he e' he'
    simpa using code_number_eq_iff (hcode e he) (hcode e' he')
  rw [holds_exactlyOne (nodup_group hg)]
  simp only [List.mem_map, Model.assignment_eq_true, forall_exists_index, and_imp,
    forall_apply_eq_imp_iff₂]
  constructor
  · rintro ⟨_, ⟨e, he, rfl⟩, hall⟩
    exact ⟨e.1, ⟨e, he, rfl⟩, fun e' he' => (hall e' he').trans (hsame e' he' e he)⟩
  · rintro ⟨_, ⟨e, he, rfl⟩, hall⟩
    exact ⟨e.2, ⟨e, he, rfl⟩, fun e' he' => (hall e' he').trans (hsame e' he' e he).symm⟩

/-! ## Choices -/

/-- A candidate for each variable of a path. -/
structure Path.IsChoice (p : Path) (b : Bindings) : Prop where
  keys : ∀ x, x ∈ b.keys ↔ x ∈ p.vars
  candidate : ∀ x v, b.find? x = some v → v ∈ candidates (conditionsOn p.conditions x)

/-- The model makes true the numbers of the chosen candidates, and of no others. -/
def EncodedPath.Selects (e : EncodedPath) (m : Model) (b : Bindings) : Prop :=
  ∀ x v n, ((x, v), n) ∈ e.codes → (n ∈ m ↔ b.find? x = some v)

/-- The model that makes true the numbers of the chosen candidates. -/
def EncodedPath.modelOf (e : EncodedPath) (b : Bindings) : Model :=
  (e.codes.filter fun c => b.find? c.1.1 = some c.1.2).map (·.2)

/-- Every choice is selected by a model. -/
theorem selects_modelOf (p : Path) (b : Bindings) : p.encode.Selects (p.encode.modelOf b) b := by
  intro x v n hcode
  simp only [EncodedPath.modelOf, List.mem_map, List.mem_filter, decide_eq_true_eq]
  constructor
  · rintro ⟨c, ⟨hc, hb⟩, hn⟩
    have : c.1 = (x, v) := (code_number_eq_iff hc hcode).mp hn
    rw [this] at hb
    exact hb
  · intro hb
    exact ⟨((x, v), n), ⟨hcode, hb⟩, rfl⟩

theorem Path.IsChoice.exists_find? {p : Path} {b : Bindings} (hb : p.IsChoice b) {x : String}
    (hx : x ∈ p.vars) : ∃ v, b.find? x = some v :=
  NameMap.mem_keys_iff.mp ((hb.keys x).mpr hx)

/-- What a choice has for a variable is in the group of the variable. -/
theorem Path.IsChoice.mem_group {p : Path} {b : Bindings} (hb : p.IsChoice b) {x : String}
    {g : CandidateGroup} (hg : p.encode.groups.find? x = some g) {v : Value}
    (hv : b.find? x = some v) : v ∈ g.map (·.1) := by
  have hx : x ∈ p.vars := (hb.keys x).mp (NameMap.mem_keys_iff.mpr ⟨v, hv⟩)
  have hoption : (x, v) ∈ p.encode.codes.map (·.1) := by
    rw [options_codes_encode]
    exact mem_options.mpr ⟨hx, hb.candidate x v hv⟩
  obtain ⟨⟨⟨y, w⟩, n⟩, hcode, h⟩ := List.mem_map.mp hoption
  cases h
  obtain ⟨g', hg', hmem⟩ := EncodedPath.mem_codes.mp hcode
  cases hg.symm.trans hg'
  exact List.mem_map.mpr ⟨_, hmem, rfl⟩

/-- A model that selects a choice has one true number in each group. -/
theorem EncodedPath.Selects.mem_iff {p : Path} {m : Model} {b : Bindings}
    (hsel : p.encode.Selects m b) {x : String} {g : CandidateGroup}
    (hg : p.encode.groups.find? x = some g) {v : Value} (hv : b.find? x = some v) :
    ∀ e ∈ g, e.2 ∈ m ↔ e.1 = v := by
  intro e he
  rw [hsel x e.1 e.2 (mem_codes.mpr ⟨g, hg, he⟩), hv, Option.some_inj, eq_comm]

/-- Where one candidate of a group is true, it is the one that is decoded. -/
theorem find?_decode {e : EncodedPath} {m : Model} {x : String} {g : CandidateGroup}
    (hg : e.groups.find? x = some g) {v : Value} (hv : v ∈ g.map (·.1))
    (hall : ∀ c ∈ g, c.2 ∈ m ↔ c.1 = v) : (e.decode m).find? x = some v := by
  obtain ⟨c, hc, rfl⟩ := List.mem_map.mp hv
  rw [EncodedPath.decode, NameMap.find?_filterMap, hg, Option.bind_some]
  cases hfound : g.find? fun c => m.contains c.2 with
  | none =>
      have := List.find?_eq_none.mp hfound c hc
      simp [(hall c hc).mpr rfl] at this
  | some d =>
      have hd : d.2 ∈ m := by simpa using List.find?_some hfound
      exact congrArg some ((hall d (List.mem_of_find?_eq_some hfound)).mp hd)

/-- Decoding a model gives the choice that it selects. -/
theorem decode_eq_of_selects {p : Path} {m : Model} {b : Bindings} (hb : p.IsChoice b)
    (hsel : p.encode.Selects m b) : p.encode.decode m = b := by
  refine NameMap.eq_of_find?_eq fun x => ?_
  cases hg : p.encode.groups.find? x with
  | none =>
      have hx : x ∉ b.keys := by
        rw [hb.keys, ← Path.mem_keys_groups, NameMap.mem_keys_iff, hg]
        simp
      rw [EncodedPath.decode, NameMap.find?_filterMap, hg]
      cases hv : b.find? x with
      | none => rfl
      | some v => exact absurd (NameMap.mem_keys_iff.mpr ⟨v, hv⟩) hx
  | some g =>
      have hx : x ∈ p.vars := Path.mem_keys_groups.mp (NameMap.mem_keys_iff.mpr ⟨g, hg⟩)
      obtain ⟨v, hv⟩ := hb.exists_find? hx
      rw [hv, find?_decode hg (hb.mem_group hg hv) (hsel.mem_iff hg hv)]

/-! ## Clauses -/

theorem mem_candidates_of_mem_group {p : Path} {x : String} {g : CandidateGroup}
    (hg : p.encode.groups.find? x = some g) {v : Value} (hv : v ∈ g.map (·.1)) :
    v ∈ candidates (conditionsOn p.conditions x) := by
  obtain ⟨e, he, rfl⟩ := List.mem_map.mp hv
  have hcode : ((x, e.1), e.2) ∈ p.encode.codes := EncodedPath.mem_codes.mpr ⟨g, hg, he⟩
  have hoption : (x, e.1) ∈ p.encode.codes.map (·.1) := List.mem_map.mpr ⟨_, hcode, rfl⟩
  rw [options_codes_encode] at hoption
  exact (Path.mem_options.mp hoption).2

theorem holds_structural_iff_groups {p : Path} {a : Nat → Bool} :
    Formula.holds a p.encode.structural = true ↔
      ∀ x g, p.encode.groups.find? x = some g →
        Formula.holds a (exactlyOne (g.map (·.2))) = true := by
  have hflat : ∀ c, c ∈ p.encode.structural ↔
      ∃ x g, p.encode.groups.find? x = some g ∧ c ∈ exactlyOne (g.map (·.2)) := by
    intro c
    simp only [NameMap.find?_eq_some_iff]
    show c ∈ p.encode.groups.entries.flatMap (fun g => exactlyOne (g.2.map (·.2))) ↔ _
    simp only [List.mem_flatMap, Prod.exists]
  simp only [Formula.holds_iff, hflat]
  exact ⟨fun h x g hg c hc => h c ⟨x, g, hg, hc⟩, fun h c ⟨x, g, hg, hc⟩ => h x g hg c hc⟩

/-- The structural clauses say that a model selects a choice. -/
theorem holds_structural_iff {p : Path} {m : Model} :
    Formula.holds m.assignment p.encode.structural = true ↔
      ∃ b, p.IsChoice b ∧ p.encode.Selects m b := by
  rw [holds_structural_iff_groups]
  constructor
  · -- the choice is what is decoded: each group has one true number
    intro h
    have hdecode : ∀ x g, p.encode.groups.find? x = some g →
        ∃ v, v ∈ g.map (·.1) ∧ (∀ e ∈ g, e.2 ∈ m ↔ e.1 = v) ∧
          (p.encode.decode m).find? x = some v := by
      intro x g hg
      obtain ⟨v, hv, hall⟩ := (holds_exactlyOne_group hg).mp (h x g hg)
      exact ⟨v, hv, hall, find?_decode hg hv hall⟩
    have hgroup : ∀ x v, (p.encode.decode m).find? x = some v →
        ∃ g, p.encode.groups.find? x = some g := by
      intro x v hv
      rw [EncodedPath.decode, NameMap.find?_filterMap] at hv
      obtain ⟨g, hg, -⟩ := Option.bind_eq_some_iff.mp hv
      exact ⟨g, hg⟩
    refine ⟨p.encode.decode m, ⟨fun x => ?_, fun x v hv => ?_⟩, fun x v n hcode => ?_⟩
    · rw [← Path.mem_keys_groups, NameMap.mem_keys_iff, NameMap.mem_keys_iff]
      refine ⟨fun ⟨v, hv⟩ => hgroup x v hv, fun ⟨g, hg⟩ => ?_⟩
      obtain ⟨v, -, -, hv⟩ := hdecode x g hg
      exact ⟨v, hv⟩
    · obtain ⟨g, hg⟩ := hgroup x v hv
      obtain ⟨w, hw, -, hw'⟩ := hdecode x g hg
      cases hv.symm.trans hw'
      exact mem_candidates_of_mem_group hg hw
    · obtain ⟨g, hg, hmem⟩ := EncodedPath.mem_codes.mp hcode
      obtain ⟨w, -, hall, hw⟩ := hdecode x g hg
      rw [hall (v, n) hmem, hw, Option.some_inj, eq_comm]
  · rintro ⟨b, hb, hsel⟩ x g hg
    have hx : x ∈ p.vars := Path.mem_keys_groups.mp (NameMap.mem_keys_iff.mpr ⟨g, hg⟩)
    obtain ⟨v, hv⟩ := hb.exists_find? hx
    exact (holds_exactlyOne_group hg).mpr ⟨v, hb.mem_group hg hv, hsel.mem_iff hg hv⟩

/-- Where a model selects a choice, the clauses of the conditions say that the path admits it. -/
theorem holds_conditions_iff {p : Path} {m : Model} {b : Bindings} (hb : p.IsChoice b)
    (hsel : p.encode.Selects m b) :
    Formula.holds m.assignment p.encode.conditions = true ↔ p.admits b = true := by
  rw [Formula.holds_iff, Path.admits_iff]
  -- the only literal of a clause that can be true is the one of the chosen candidate
  have hclause : ∀ c ∈ p.conditions, ∃ g v, p.encode.groups.find? c.var = some g ∧
      b.find? c.var = some v ∧
      (Clause.holds m.assignment (c.clause g) = true ↔ c.admits v = true) := by
    intro c hc
    have hx : c.var ∈ p.vars := Path.mem_vars.mpr ⟨c, hc, rfl⟩
    obtain ⟨g, hg⟩ := NameMap.mem_keys_iff.mp (Path.mem_keys_groups.mpr hx)
    obtain ⟨v, hv⟩ := hb.exists_find? hx
    refine ⟨g, v, hg, hv, ?_⟩
    have hall := hsel.mem_iff hg hv
    obtain ⟨e, he, hev⟩ := List.mem_map.mp (hb.mem_group hg hv)
    simp only [Clause.holds_iff, Condition.clause, List.mem_map, List.mem_filter, pos]
    constructor
    · rintro ⟨l, ⟨d, ⟨hd, hadmits⟩, rfl⟩, hl⟩
      rw [← (hall d hd).mp (Model.assignment_eq_true.mp hl)]
      exact hadmits
    · intro hadmits
      refine ⟨_, ⟨e, ⟨he, hev ▸ hadmits⟩, rfl⟩, ?_⟩
      exact Model.assignment_eq_true.mpr ((hall e he).mpr hev)
  constructor
  · intro h c hc
    obtain ⟨g, v, hg, hv, hiff⟩ := hclause c hc
    refine ⟨v, hv, hiff.mp (h _ (List.mem_filterMap.mpr ⟨c, hc, ?_⟩))⟩
    exact congrArg (Option.map c.clause) hg
  · intro h d hd
    obtain ⟨c, hc, hd⟩ := List.mem_filterMap.mp hd
    obtain ⟨g, v, hg, hv, hiff⟩ := hclause c hc
    obtain ⟨w, hw, hadmits⟩ := h c hc
    cases hv.symm.trans hw
    have hgroup : (p.groups.find? c.var).map c.clause = some (c.clause g) :=
      congrArg (Option.map c.clause) hg
    cases hgroup.symm.trans hd
    exact hiff.mpr hadmits

/-- The models of an encoded path select the choices that the path admits. -/
theorem holds_formula_iff {p : Path} {m : Model} :
    Formula.holds m.assignment p.encode.formula = true ↔
      ∃ b, p.IsChoice b ∧ p.encode.Selects m b ∧ p.admits b = true := by
  rw [EncodedPath.formula, Formula.holds_append, holds_structural_iff]
  constructor
  · rintro ⟨⟨b, hb, hsel⟩, h⟩
    exact ⟨b, hb, hsel, (holds_conditions_iff hb hsel).mp h⟩
  · rintro ⟨b, hb, hsel, h⟩
    exact ⟨⟨b, hb, hsel⟩, (holds_conditions_iff hb hsel).mpr h⟩

/-- **Models are choices.** The candidates of all variables are numbered from 0 on, each with a
number of its own. A model of the encoded path makes true the numbers of one candidate for each
variable, such that no condition rejects the candidate of its variable, and every such choice is a
model; decoding gives back the choice that a model makes. -/
theorem models_encode (p : Path) :
    p.encode.codes.map (·.2) = List.range p.encode.codes.length ∧
      (p.encode.codes.map (·.1)).Nodup ∧
      (∀ x v, (x, v) ∈ p.encode.codes.map (·.1) ↔
        x ∈ p.vars ∧ v ∈ candidates (conditionsOn p.conditions x)) ∧
      ∀ m : Model,
        (Formula.holds m.assignment p.encode.formula = true ↔
          ∃ b, p.IsChoice b ∧ p.encode.Selects m b ∧ p.admits b = true) ∧
        ∀ b, p.IsChoice b ∧ p.encode.Selects m b ↔
          Formula.holds m.assignment p.encode.structural = true ∧ p.encode.decode m = b := by
  refine ⟨numbers_codes_encode p, ?_, fun x v => ?_, fun m => ⟨holds_formula_iff, fun b => ?_⟩⟩
  · rw [options_codes_encode]
    exact p.nodup_options
  · rw [options_codes_encode]
    exact Path.mem_options
  · constructor
    · rintro ⟨hb, hsel⟩
      exact ⟨holds_structural_iff.mpr ⟨b, hb, hsel⟩, decode_eq_of_selects hb hsel⟩
    · rintro ⟨h, rfl⟩
      obtain ⟨b, hb, hsel⟩ := holds_structural_iff.mp h
      rw [decode_eq_of_selects hb hsel]
      exact ⟨hb, hsel⟩

end Testwright
