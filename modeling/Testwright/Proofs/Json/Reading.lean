import Mathlib.Algebra.Group.Int.Defs
import Mathlib.Data.List.Basic
import Testwright.Json.Decode
import Testwright.Proofs.Json.Documents
import Testwright.Proofs.NameMap
import Testwright.Proofs.Path.Literal

/-!
# Values read back

The members of an object may stand in any order (`Rearranged`). A reader that takes a document as it
was written takes it in any arrangement, too: `Reads` says so, with one rule for each kind of value,
and `FoundFields` is what a reader of a record finds of its fields.
-/

namespace Testwright.Json

/-! ## Arrangements -/

mutual

/-- The two documents differ in the order of the members of their objects only. -/
inductive Rearranged : Json → Json → Prop
  | null : Rearranged .null .null
  | bool (b : Bool) : Rearranged (.bool b) (.bool b)
  | number (n : Number) : Rearranged (.number n) (.number n)
  | string (s : Option String) : Rearranged (.string s) (.string s)
  | array {items items' : List Json} : RearrangedItems items items' →
      Rearranged (.array items) (.array items')
  | object {members middle members' : List (Option String × Json)} :
      RearrangedMembers members middle → middle.Perm members' →
      Rearranged (.object members) (.object members')

/-- Items are rearranged each at its place. -/
inductive RearrangedItems : List Json → List Json → Prop
  | nil : RearrangedItems [] []
  | cons {v v' : Json} {items items' : List Json} : Rearranged v v' →
      RearrangedItems items items' → RearrangedItems (v :: items) (v' :: items')

/-- Members are rearranged each at its place, under its key. -/
inductive RearrangedMembers : List (Option String × Json) → List (Option String × Json) → Prop
  | nil : RearrangedMembers [] []
  | cons (k : Option String) {v v' : Json} {members members' : List (Option String × Json)} :
      Rearranged v v' → RearrangedMembers members members' →
      RearrangedMembers ((k, v) :: members) ((k, v') :: members')

end

mutual

theorem Rearranged.refl (v : Json) : Rearranged v v := by
  match v with
  | .null => exact .null
  | .bool b => exact .bool b
  | .number n => exact .number n
  | .string s => exact .string s
  | .array items => exact .array (RearrangedItems.refl items)
  | .object members => exact .object (RearrangedMembers.refl members) (List.Perm.refl members)

theorem RearrangedItems.refl (items : List Json) : RearrangedItems items items := by
  match items with
  | [] => exact .nil
  | v :: items => exact .cons (Rearranged.refl v) (RearrangedItems.refl items)

theorem RearrangedMembers.refl (members : List (Option String × Json)) :
    RearrangedMembers members members := by
  match members with
  | [] => exact .nil
  | (k, v) :: members => exact .cons k (Rearranged.refl v) (RearrangedMembers.refl members)

end

theorem RearrangedItems.exists_of_mem {items items' : List Json} (h : RearrangedItems items items')
    {v' : Json} (hv : v' ∈ items') : ∃ v ∈ items, Rearranged v v' := by
  induction items generalizing items' with
  | nil => cases h; cases hv
  | cons w items ih =>
      cases h with
      | cons hw hrest =>
          rcases List.mem_cons.mp hv with rfl | hv
          · exact ⟨w, List.mem_cons_self, hw⟩
          · obtain ⟨v, hmem, hv⟩ := ih hrest hv
            exact ⟨v, List.mem_cons_of_mem w hmem, hv⟩

theorem RearrangedMembers.exists_of_mem {members members' : List (Option String × Json)}
    (h : RearrangedMembers members members') {m' : Option String × Json} (hm : m' ∈ members') :
    ∃ m ∈ members, m.1 = m'.1 ∧ Rearranged m.2 m'.2 := by
  induction members generalizing members' with
  | nil => cases h; cases hm
  | cons n members ih =>
      cases h with
      | cons k hn hrest =>
          rcases List.mem_cons.mp hm with rfl | hm
          · exact ⟨_, List.mem_cons_self, rfl, hn⟩
          · obtain ⟨m, hmem, hm⟩ := ih hrest hm
            exact ⟨m, List.mem_cons_of_mem _ hmem, hm⟩

/-- A document can be written in any arrangement. -/
theorem Writable.rearranged {v w : Json} (h : v.Writable) (hw : Rearranged v w) : w.Writable := by
  induction h generalizing w with
  | null => cases hw; exact .null
  | bool b => cases hw; exact .bool b
  | number hn => cases hw; exact .number hn
  | text s => cases hw; exact .text s
  | array _ ih =>
      cases hw with
      | array hitems =>
          refine .array fun v' hv' => ?_
          obtain ⟨v, hv, hrearranged⟩ := hitems.exists_of_mem hv'
          exact ih v hv hrearranged
  | object hkeys _ ih =>
      cases hw with
      | object hmembers hperm =>
          refine .object (fun m' hm' => ?_) fun m' hm' => ?_
          · obtain ⟨m, hm, hkey, -⟩ := hmembers.exists_of_mem (hperm.mem_iff.mpr hm')
            exact hkey ▸ hkeys m hm
          · obtain ⟨m, hm, -, hrearranged⟩ := hmembers.exists_of_mem (hperm.mem_iff.mpr hm')
            exact ih m hm hrearranged

/-! ## Documents that can be written -/

@[simp] theorem writable_bool (b : Bool) : (Json.bool b).Writable := .bool b

@[simp] theorem writable_text (s : String) : (text s).Writable := .text s

@[simp] theorem writable_int (n : Int) : (int n).Writable := .number (wellFormed_int n)

@[simp] theorem writable_nat (n : Nat) : (nat n).Writable := writable_int n

@[simp] theorem writable_record {fields : List (String × Json)} :
    (record fields).Writable ↔ ∀ m ∈ fields, m.2.Writable := by
  constructor
  · intro h m hm
    cases h with
    | object _ hmembers => exact hmembers (some m.1, m.2) (List.mem_map_of_mem hm)
  · intro h
    refine .object (fun m hm => ?_) fun m hm => ?_
    · obtain ⟨n, -, rfl⟩ := List.mem_map.mp hm
      rfl
    · obtain ⟨n, hn, rfl⟩ := List.mem_map.mp hm
      exact h n hn

section

variable {α : Type} {f : α → Json}

@[simp] theorem writable_ofList {l : List α} :
    (ofList f l).Writable ↔ ∀ a ∈ l, (f a).Writable := by
  constructor
  · intro h a ha
    cases h with
    | array hitems => exact hitems (f a) (List.mem_map_of_mem ha)
  · intro h
    refine .array fun v hv => ?_
    obtain ⟨a, ha, rfl⟩ := List.mem_map.mp hv
    exact h a ha

@[simp] theorem writable_ofOption {o : Option α} :
    (ofOption f o).Writable ↔ ∀ a ∈ o, (f a).Writable := by
  cases o with
  | none => exact iff_of_true .null (fun _ ha => by cases ha)
  | some a => exact ⟨fun h b hb => by cases hb; exact h, fun h => h a rfl⟩

@[simp] theorem writable_ofNameMap {m : NameMap α} :
    (ofNameMap f m).Writable ↔ ∀ e ∈ m.entries, (f e.2).Writable := by
  rw [ofNameMap, writable_record, List.forall_mem_map]

end

/-! ## Plain values -/

variable {α : Type}

/-- However the members of a document are arranged, a reader reads this value from it. -/
def Reads (f : Json → Option α) (v : Json) (a : α) : Prop := ∀ w, Rearranged v w → f w = some a

/-- What is read from a document is read from its text. -/
theorem Reads.parse_render {f : Json → Option α} {v w : Json} {a : α} (h : Reads f v a)
    (hv : v.Writable) (hw : Rearranged v w) : (parse w.render).bind f = some a := by
  rw [(hv.rearranged hw).parse_render]
  exact h w hw

theorem reads_bool (b : Bool) : Reads bool? (.bool b) b := by
  rintro _ ⟨⟩
  rfl

theorem reads_text (s : String) : Reads text? (text s) s := by
  rintro _ ⟨⟩
  rfl

theorem reads_optionalText (o : Option String) : Reads (optional? text?) (ofOption text o) o := by
  cases o with
  | none => rintro _ ⟨⟩; rfl
  | some s => rintro _ ⟨⟩; rfl

theorem reads_named {table : List (String × α)} (route : Route) {s : String} {a : α}
    (h : table.lookup s = some a) : Reads (named? table route) (text s) a := by
  rintro _ ⟨⟩
  exact h

/-- An integer that fits into 64 bits, with or without a sign, is read exactly. -/
theorem reads_integer {n : Int} (hlow : -2 ^ 63 ≤ n) (hhigh : n < 2 ^ 64) :
    Reads integer? (int n) n := by
  rintro _ ⟨⟩
  have hword : maxWord = 2 ^ 64 - 1 := rfl
  have hhalf : Nat.pow 2 63 = 2 ^ 63 := rfl
  show (if decide (n < 0) = true then _ else _) = _
  rw [Nat.ofDigitChars_ten_toDigits, hword, hhalf]
  rcases Int.lt_or_le n 0 with hn | hn
  · rw [if_pos (decide_eq_true hn), if_pos (by omega)]
    exact congrArg some (by omega)
  · rw [if_neg (by simpa using hn), if_pos (by omega)]
    exact congrArg some (by omega)

theorem reads_int64 (n : Int64) : Reads int64? (int n.toInt) n := by
  intro w hw
  have hlow := n.le_toInt
  have hhigh := n.toInt_lt
  rw [int64?, reads_integer (by omega) (by omega) w hw]
  exact Text.toInt64?_toInt n

theorem reads_uint32 (n : UInt32) : Reads uint32? (nat n.toNat) n := by
  intro w hw
  have hlt := n.toNat_lt
  have hbound : Nat.pow 2 32 = 2 ^ 32 := rfl
  rw [uint32?, natBelow?, reads_integer (by omega) (by omega) w hw, Option.bind_some, hbound,
    if_pos ⟨by omega, by omega⟩]
  exact congrArg some (UInt32.ofNat_toNat (x := n))

/-- A list is read item by item. -/
theorem reads_list {β : Type} {f : Json → Option β} {g : β → Json} {l : List β}
    (h : ∀ a ∈ l, Reads f (g a) a) : Reads (list? f) (ofList g l) l := by
  have hread : ∀ items, RearrangedItems (l.map g) items → items.mapM f = some l := by
    induction l with
    | nil => rintro _ ⟨⟩; rfl
    | cons a l ih =>
        obtain ⟨ha, hl⟩ := List.forall_mem_cons.mp h
        intro items hitems
        cases hitems with
        | cons hv hrest =>
            rw [List.mapM_cons, ha _ hv, ih hl _ hrest]
            rfl
  intro w hw
  cases hw with
  | array hitems => exact hread _ hitems

/-! ## Members with keys -/

/-- The second fields are the first ones, each rearranged. -/
def FoundFields (fields found : List (String × Json)) : Prop :=
  ∀ name, Option.Rel Rearranged (fields.lookup name) (found.lookup name)

/-- A field as a member. -/
def asMember (m : String × Json) : Option String × Json := (some m.1, m.2)

/-- The members of a record are rearranged under the same keys. -/
theorem RearrangedMembers.exists_fields {fields : List (String × Json)}
    {members : List (Option String × Json)} (h : RearrangedMembers (fields.map asMember) members) :
    ∃ found : List (String × Json), members = found.map asMember ∧
      found.map (·.1) = fields.map (·.1) ∧ FoundFields fields found := by
  induction fields generalizing members with
  | nil =>
      cases h
      exact ⟨[], rfl, rfl, fun _ => .none⟩
  | cons m fields ih =>
      obtain ⟨k, v⟩ := m
      cases h with
      | @cons _ _ v' _ _ hv hrest =>
          obtain ⟨found, rfl, hkeys, hfound⟩ := ih hrest
          refine ⟨(k, v') :: found, rfl, by rw [List.map_cons, hkeys]; rfl, fun name => ?_⟩
          rw [lookup_cons_eq_ite, lookup_cons_eq_ite]
          split
          · exact .some hv
          · exact hfound name

theorem timesKeyed_map_asMember (name : String) (fields : List (String × Json)) :
    timesKeyed name (fields.map asMember) = (fields.map (·.1)).count name := by
  rw [timesKeyed, List.countP_map, List.count, List.countP_map]
  rfl

/-- A member with one of some names as its key, as a field. -/
def knownField (names : List String) (m : Option String × Json) : Option (String × Json) :=
  m.1.bind fun k => if names.contains k then some (k, m.2) else none

section

variable {fields : List (String × Json)} {members : List (Option String × Json)}
  {names : List String}

theorem filterMap_knownField (hnames : ∀ name ∈ fields.map (·.1), name ∈ names) :
    (fields.map asMember).filterMap (knownField names) = fields := by
  have hall : ∀ m ∈ fields, (knownField names ∘ asMember) m = some m := fun m hm =>
    if_pos (List.contains_iff_mem.mpr (hnames m.1 (List.mem_map_of_mem hm)))
  rw [List.filterMap_map, List.filterMap_congr hall, List.filterMap_some]

/-- The fields of a record are found, none of them twice, in whatever order the members stand. -/
theorem record?_eq_of_perm (h : (fields.map asMember).Perm members)
    (hkeys : (fields.map (·.1)).Nodup) :
    (object members).record? names = some (members.filterMap (knownField names)) := by
  have hsome : members.all (·.1.isSome) = true := by
    rw [List.all_eq_true]
    intro m hm
    obtain ⟨n, -, rfl⟩ := List.mem_map.mp (h.mem_iff.mpr hm)
    rfl
  have honce : (names.all fun n => decide (timesKeyed n members ≤ 1)) = true := by
    rw [List.all_eq_true]
    intro name _
    have hcount : timesKeyed name members = (fields.map (·.1)).count name :=
      (h.countP_eq _).symm.trans (timesKeyed_map_asMember name fields)
    rw [hcount, decide_eq_true_iff]
    exact List.nodup_iff_count.mp hkeys name
  rw [record?, hsome, honce]
  rfl

/-- A reader of a record finds its fields, each rearranged. -/
theorem Rearranged.exists_found {w : Json} (h : Rearranged (record fields) w) (names : List String)
    (hkeys : (fields.map (·.1)).Nodup) (hnames : ∀ name ∈ fields.map (·.1), name ∈ names) :
    ∃ found, w.record? names = some found ∧ FoundFields fields found := by
  cases h with
  | object hmembers hperm =>
      obtain ⟨found, rfl, hfoundKeys, hfound⟩ := RearrangedMembers.exists_fields hmembers
      rw [← hfoundKeys] at hkeys hnames
      refine ⟨_, record?_eq_of_perm hperm hkeys, fun name => ?_⟩
      have hpicked := hperm.filterMap (knownField names)
      rw [filterMap_knownField hnames] at hpicked
      rw [← lookup_eq_of_perm hkeys hpicked]
      exact hfound name

end

namespace FoundFields

variable {fields found : List (String × Json)} {v : Json} {f : Json → Option α} {a : α}

theorem exists_lookup (h : FoundFields fields found) {name : String}
    (hname : fields.lookup name = some v) :
    ∃ w, found.lookup name = some w ∧ Rearranged v w := by
  have hrel := h name
  rw [hname] at hrel
  generalize found.lookup name = o at hrel ⊢
  obtain ⟨hrearranged⟩ := hrel
  exact ⟨_, rfl, hrearranged⟩

/-- A field of a record is read. -/
theorem required_eq (h : FoundFields fields found) (name : String)
    (hname : fields.lookup name = some v) (hv : Reads f v a) : required found name f = some a := by
  obtain ⟨w, hw, hrearranged⟩ := h.exists_lookup hname
  rw [required, hw]
  exact hv w hrearranged

/-- A field that might be absent is read when it is present. -/
theorem defaulted_eq (h : FoundFields fields found) (name : String)
    (hname : fields.lookup name = some v) (hv : Reads f v a) (value : α) :
    defaulted found name value f = some a := by
  obtain ⟨w, hw, hrearranged⟩ := h.exists_lookup hname
  rw [defaulted, hw]
  exact hv w hrearranged

end FoundFields

/-! ## Maps -/

section

variable {f : Json → Option α} {g : α → Json}

/-- A member of a map is read under its name. -/
def readMember (f : Json → Option α) (m : Option String × Json) : Option (String × α) :=
  m.1.bind fun k => (f m.2).map fun a => (k, a)

theorem mapM_eq_some_filterMap {β γ : Type} {f : β → Option γ} {l : List β}
    (h : ∀ b ∈ l, (f b).isSome = true) : l.mapM f = some (l.filterMap f) := by
  induction l with
  | nil => rfl
  | cons b l ih =>
      obtain ⟨hb, hl⟩ := List.forall_mem_cons.mp h
      obtain ⟨c, hc⟩ := Option.isSome_iff_exists.mp hb
      rw [List.mapM_cons, List.filterMap_cons_some hc, ih hl, hc]
      rfl

theorem RearrangedMembers.filterMap_readMember {entries : List (String × α)}
    {members : List (Option String × Json)} (hread : ∀ a, Reads f (g a) a)
    (h : RearrangedMembers ((entries.map fun e => (e.1, g e.2)).map asMember) members) :
    (∀ m ∈ members, (readMember f m).isSome = true) ∧
      members.filterMap (readMember f) = entries := by
  induction entries generalizing members with
  | nil =>
      cases h
      exact ⟨List.forall_mem_nil _, rfl⟩
  | cons e entries ih =>
      cases h with
      | @cons _ _ v _ _ hv hrest =>
          obtain ⟨hsome, hentries⟩ := ih hrest
          have hmember : readMember f (some e.1, v) = some e := by
            show (f v).map _ = _
            rw [hread e.2 v hv]
            rfl
          exact ⟨List.forall_mem_cons.mpr ⟨Option.isSome_of_eq_some hmember, hsome⟩,
            (List.filterMap_cons_some hmember).trans (by rw [hentries])⟩

/-- A map is read from its members in any order. -/
theorem reads_nameMap (hread : ∀ a, Reads f (g a) a) (m : NameMap α) :
    Reads (nameMap? f) (ofNameMap g m) m := by
  intro w hw
  cases hw with
  | @object _ _ members hmembers hperm =>
      obtain ⟨hsome, hentries⟩ := hmembers.filterMap_readMember hread
      have hall : ∀ e ∈ members, (readMember f e).isSome = true := fun e he =>
        hsome e (hperm.mem_iff.mpr he)
      have hread := hperm.filterMap (readMember f)
      rw [hentries] at hread
      show (members.mapM (readMember f)).map NameMap.ofList = _
      rw [mapM_eq_some_filterMap hall]
      exact congrArg some (NameMap.ofList_eq_of_perm hread.symm)

end

end Testwright.Json
