import Testwright.ClassInfo
import Testwright.Path.Codec
import Testwright.Proofs.Json.Reading

/-!
# Classes and paths read back

What is written as a document is read back: classes with all that is known about them, and the
values, conditions, paths and verdicts of an analysis. Main statement: it is read from the text of
the document, in whatever order the members of its objects stand (`documents_read_back`).
-/

namespace Testwright

open Json

/-! ## Classes -/

theorem TypedName.reads_toJson (p : TypedName) : Reads TypedName.ofJson? p.toJson p := by
  intro w hw
  obtain ⟨found, hrecord, hfound⟩ := hw.exists_found ["name", "type"] (by simp) (by simp)
  have hname := hfound.required_eq "name" rfl (reads_text p.name)
  have htype := hfound.required_eq "type" rfl (reads_text p.type)
  rw [ofJson?, hrecord]
  simp only [Option.bind_eq_bind, Option.bind_some, hname, htype]

theorem MethodInfo.reads_toJson (m : MethodInfo) : Reads MethodInfo.ofJson? m.toJson m := by
  intro w hw
  obtain ⟨found, hrecord, hfound⟩ :=
    hw.exists_found ["name", "parameters", "return_type", "body"] (by simp) (by simp)
  have hname := hfound.required_eq "name" rfl (reads_text m.name)
  have hparameters := hfound.defaulted_eq "parameters" rfl
    (reads_list fun p _ => p.reads_toJson) []
  have htype := hfound.defaulted_eq "return_type" rfl (reads_text m.returnType) "void"
  have hbody := hfound.defaulted_eq "body" rfl (reads_optionalText m.body) none
  rw [ofJson?, hrecord]
  simp only [Option.bind_eq_bind, Option.bind_some, hname, hparameters, htype, hbody]

theorem ClassInfo.reads_toJson (c : ClassInfo) : Reads ClassInfo.ofJson? c.toJson c := by
  intro w hw
  obtain ⟨found, hrecord, hfound⟩ :=
    hw.exists_found ["class_name", "package", "methods", "fields"] (by simp) (by simp)
  have hname := hfound.required_eq "class_name" rfl (reads_text c.name)
  have hpackage := hfound.defaulted_eq "package" rfl (reads_text c.package) ""
  have hmethods := hfound.defaulted_eq "methods" rfl
    (reads_list fun m _ => m.reads_toJson) []
  have hfields := hfound.defaulted_eq "fields" rfl
    (reads_list fun p _ => p.reads_toJson) []
  rw [ofJson?, hrecord]
  simp only [Option.bind_eq_bind, Option.bind_some, hname, hpackage, hmethods, hfields]

@[simp] theorem TypedName.writable_toJson (p : TypedName) : p.toJson.Writable := by
  simp [toJson]

@[simp] theorem MethodInfo.writable_toJson (m : MethodInfo) : m.toJson.Writable := by
  simp [toJson]

theorem ClassInfo.writable_toJson (c : ClassInfo) : c.toJson.Writable := by
  simp [toJson]

/-! ## Values and conditions -/

namespace Value

/-- The kind of a value. -/
def kind : Value → ValueKind
  | null => .null
  | nonNull => .nonNull
  | bool _ => .bool
  | int _ => .int
  | str _ => .str
  | symbol _ => .symbol

/-- What a value holds beside its kind, as a document. -/
def contentToJson : Value → Option Json
  | null => none
  | nonNull => none
  | bool b => some (.bool b)
  | int n => some (Json.int n.toInt)
  | str s => some (text s)
  | symbol s => some (text s)

/-- The fields of a value: the name of its kind and its content, if it has any. -/
def fields (name : String) (v : Value) : List (String × Json) :=
  ("kind", text name) :: v.contentToJson.toList.map fun j => ("value", j)

theorem exists_toJson_eq (v : Value) :
    ∃ name, ValueKind.names.lookup name = some v.kind ∧ v.toJson = record (v.fields name) := by
  cases v <;> exact ⟨_, rfl, rfl⟩

theorem lookup_fields (name : String) (v : Value) :
    (v.fields name).lookup "value" = v.contentToJson := by
  cases v <;> rfl

/-- The kind and the content of a value make the value again. -/
theorem withContent_eq {v : Value} {found : Option Json}
    (h : Option.Rel Rearranged v.contentToJson found) : v.kind.withContent found = some v := by
  cases v with
  | null => cases h; rfl
  | nonNull => cases h; rfl
  | bool b =>
      obtain ⟨hw⟩ := h
      exact congrArg (Option.map Value.bool) (reads_bool b _ hw)
  | int n =>
      obtain ⟨hw⟩ := h
      exact congrArg (Option.map Value.int) (reads_int64 n _ hw)
  | str s =>
      obtain ⟨hw⟩ := h
      exact congrArg (Option.map Value.str) (reads_text s _ hw)
  | symbol s =>
      obtain ⟨hw⟩ := h
      exact congrArg (Option.map Value.symbol) (reads_text s _ hw)

theorem reads_toJson (route : Route) (v : Value) : Reads (ofJson? route) v.toJson v := by
  intro w hw
  obtain ⟨name, hname, hjson⟩ := v.exists_toJson_eq
  rw [hjson] at hw
  obtain ⟨found, hrecord, hfound⟩ :=
    hw.exists_found ["kind", "value"] (by cases v <;> simp [fields, contentToJson])
      (by cases v <;> simp [fields, contentToJson])
  have hkind := hfound.required_eq "kind" rfl (reads_named route hname)
  have hcontent := hfound "value"
  rw [lookup_fields] at hcontent
  cases hw
  simp only [ofJson?, hrecord, Option.bind_eq_bind, Option.bind_some, hkind]
  exact withContent_eq hcontent

@[simp] theorem writable_toJson (v : Value) : v.toJson.Writable := by
  cases v <;> simp [toJson]

end Value

theorem Relation.reads_toJson (route : Route) (r : Relation) :
    Reads (Relation.ofJson? route) r.toJson r :=
  reads_named route (by cases r <;> rfl)

theorem Condition.reads_toJson (route : Route) (c : Condition) :
    Reads (Condition.ofJson? route) c.toJson c := by
  intro w hw
  obtain ⟨found, hrecord, hfound⟩ :=
    hw.exists_found ["variable", "op", "value", "negated"] (by simp) (by simp)
  have hvar := hfound.required_eq "variable" rfl (reads_text c.var)
  have hrelation := hfound.required_eq "op" rfl (c.relation.reads_toJson route)
  have hvalue := hfound.required_eq "value" rfl (c.value.reads_toJson route)
  have hnegated := hfound.required_eq "negated" rfl (reads_bool c.negated)
  rw [ofJson?, hrecord]
  simp only [Option.bind_eq_bind, Option.bind_some, hvar, hrelation, hvalue, hnegated]

@[simp] theorem Condition.writable_toJson (c : Condition) : c.toJson.Writable := by
  simp [toJson, Relation.toJson]

/-! ## Paths and verdicts -/

@[simp] theorem Bindings.writable_toJson (b : Bindings) : (Bindings.toJson b).Writable := by
  simp [toJson]

theorem Path.writable_toJson (p : Path) : p.toJson.Writable := by
  simp [toJson, lineToJson]

theorem Verdict.writable_toJson (v : Verdict) : v.toJson.Writable := by
  simp [toJson]

theorem Bindings.reads_toJson (route : Route) (b : Bindings) :
    Reads (Bindings.ofJson? route) b.toJson b :=
  reads_nameMap (Value.reads_toJson route) b

theorem Path.reads_toJson (p : Path) : Reads Path.ofJson? p.toJson p := by
  intro w hw
  obtain ⟨found, hrecord, hfound⟩ :=
    hw.exists_found ["id", "conditions", "is_feasible", "input_values", "covered_statements"]
      (by simp) (by simp)
  have hid := hfound.required_eq "id" rfl (reads_text p.id)
  have hconditions := hfound.required_eq "conditions" rfl
    (reads_list fun c _ => c.reads_toJson .direct)
  have hfeasible := hfound.required_eq "is_feasible" rfl (reads_bool p.feasible)
  have hinputs := hfound.required_eq "input_values" rfl
    (Bindings.reads_toJson .direct p.inputs)
  have hlines := hfound.required_eq "covered_statements" rfl
    (reads_list fun n _ => reads_uint32 n)
  rw [ofJson?, hrecord]
  simp only [Option.bind_eq_bind, Option.bind_some, hid, hconditions, hfeasible, hinputs, hlines]

theorem Verdict.reads_toJson (v : Verdict) : Reads Verdict.ofJson? v.toJson v := by
  intro w hw
  obtain ⟨found, hrecord, hfound⟩ :=
    hw.exists_found ["feasible", "bindings"] (by simp) (by simp)
  have hfeasible := hfound.required_eq "feasible" rfl (reads_bool v.feasible)
  have hbindings := hfound.required_eq "bindings" rfl
    (Bindings.reads_toJson .direct v.bindings)
  rw [ofJson?, hrecord]
  simp only [Option.bind_eq_bind, Option.bind_some, hfeasible, hbindings]

/-! ## Texts -/

/-- What is written is read back from the text of its document, in whatever order the members of the
objects stand. -/
def ReadsBack {α : Type} (write : α → Json) (read : Json → Option α) : Prop :=
  ∀ (a : α) (w : Json), Rearranged (write a) w → (parse w.render).bind read = some a

/-- **Documents are read back.** A class whose name is not blank is read from the text of its
document as it was, and one whose name is nothing but white space is refused for it. Values,
conditions, paths and verdicts are read as they were. The members of every object may stand in any
order, that of the declaration of the fields as well as that of their names, and parts that are kept
aside before they are read make no difference. -/
theorem documents_read_back :
    (∀ (c : ClassInfo) (w : Json), Rearranged c.toJson w →
      ((∃ ch ∈ c.name.toList, Text.isBlank ch = false) → ClassInfo.parse w.render = .ok c) ∧
      ((∀ ch ∈ c.name.toList, Text.isBlank ch = true) →
        ClassInfo.parse w.render = .error .missingName)) ∧
    (∀ route, ReadsBack Value.toJson (Value.ofJson? route)) ∧
    (∀ route, ReadsBack Condition.toJson (Condition.ofJson? route)) ∧
    ReadsBack Path.toJson Path.ofJson? ∧
    ReadsBack Verdict.toJson Verdict.ofJson? := by
  refine ⟨fun c w hw => ?_, fun route v w hw => ?_, fun route c w hw => ?_, fun p w hw => ?_,
    fun v w hw => ?_⟩
  · have hread := c.reads_toJson.parse_render c.writable_toJson hw
    rw [ClassInfo.parse, hread]
    refine ⟨fun hname => if_neg ?_, fun hname => if_pos (List.all_eq_true.mpr hname)⟩
    intro hblank
    obtain ⟨ch, hmem, hch⟩ := hname
    rw [List.all_eq_true.mp hblank ch hmem] at hch
    cases hch
  · exact (v.reads_toJson route).parse_render v.writable_toJson hw
  · exact (c.reads_toJson route).parse_render c.writable_toJson hw
  · exact p.reads_toJson.parse_render p.writable_toJson hw
  · exact v.reads_toJson.parse_render v.writable_toJson hw

/-- A class with names that have to be escaped and a method without a body. -/
def cafeClass : ClassInfo where
  name := "Caf\u00e9\"1\""
  package := "a\\b\x01"
  methods := [⟨"run", [], "void", none⟩]
  fields := [⟨"n", "int"⟩]

/-- The class as a document with the fields of each record in the order of their declaration. -/
def cafeDocument : Json :=
  record [("class_name", text "Caf\u00e9\"1\""), ("package", text "a\\b\x01"),
    ("methods", .array [record [("name", text "run"), ("parameters", .array []),
      ("return_type", text "void"), ("body", .null)]]),
    ("fields", .array [record [("name", text "n"), ("type", text "int")]])]

theorem cafeDocument_rearranged : Rearranged cafeClass.toJson cafeDocument := by
  -- the body comes last, and the other fields of the class stand in reverse
  have hmethod : Rearranged (MethodInfo.toJson ⟨"run", [], "void", none⟩)
      (record [("name", text "run"), ("parameters", .array []), ("return_type", text "void"),
        ("body", .null)]) :=
    .object (RearrangedMembers.refl _) (@List.perm_append_comm _ [_] _)
  exact .object (.cons _ (.refl _) (.cons _ (.refl _) (.cons _ (.array (.cons hmethod .nil))
    (.cons _ (.refl _) .nil)))) (.cons _ (List.reverse_perm _).symm)

/-- The class is read from the text of that document. Without its name it is refused, and a value
whose content stands before its kind is read as well. -/
theorem cafeDocument_read_back :
    Rearranged cafeClass.toJson cafeDocument ∧
      (∃ ch ∈ cafeClass.name.toList, Text.isBlank ch = false) ∧
      ClassInfo.parse cafeDocument.render = .ok cafeClass ∧
      (∀ ch ∈ "\u3000 ".toList, Text.isBlank ch = true) ∧
      ClassInfo.parse (ClassInfo.toJson { cafeClass with name := "\u3000 " }).render =
        .error .missingName ∧
      Rearranged (Value.symbol "\u00e9").toJson
        (record [("value", text "\u00e9"), ("kind", text "symbol")]) ∧
      (parse (record [("value", text "\u00e9"), ("kind", text "symbol")]).render).bind
        (Value.ofJson? .direct) = some (.symbol "\u00e9") := by
  have hname : ∃ ch ∈ cafeClass.name.toList, Text.isBlank ch = false :=
    ⟨'C', by simp [cafeClass], by decide⟩
  have hblank : ∀ ch ∈ "\u3000 ".toList, Text.isBlank ch = true := by decide
  have hvalue : Rearranged (Value.symbol "\u00e9").toJson
      (record [("value", text "\u00e9"), ("kind", text "symbol")]) :=
    .object (RearrangedMembers.refl _) (.swap _ _ _)
  exact ⟨cafeDocument_rearranged, hname,
    (documents_read_back.1 _ _ cafeDocument_rearranged).1 hname, hblank,
    (documents_read_back.1 _ _ (.refl _)).2 hblank, hvalue,
    documents_read_back.2.1 .direct _ _ hvalue⟩

end Testwright
