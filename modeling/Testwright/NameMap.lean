/-!
# Maps from names

Maps from names to values, listed in ascending order of the names. The order belongs to the type,
so two maps with the same values are equal, and a map is written and walked in one order only.
-/

namespace Testwright

universe u v

/-- The entries with the one at a name changed, or put at its place in the order. -/
def upsertEntry {α : Type u} (name : String) (f : Option α → α) :
    List (String × α) → List (String × α)
  | [] => [(name, f none)]
  | (k, v) :: rest =>
    if name < k then (name, f none) :: (k, v) :: rest
    else if name = k then (k, f (some v)) :: rest
    else (k, v) :: upsertEntry name f rest

theorem name_of_mem_upsertEntry {α : Type u} {name : String} {f : Option α → α}
    {l : List (String × α)} {p : String × α} (h : p ∈ upsertEntry name f l) :
    p.1 = name ∨ ∃ q ∈ l, p.1 = q.1 := by
  induction l with
  | nil => simp [upsertEntry] at h; simp [h]
  | cons q rest ih =>
    obtain ⟨k, v⟩ := q
    unfold upsertEntry at h
    grind

theorem ascending_upsertEntry {α : Type u} {name : String} {f : Option α → α}
    {l : List (String × α)} (h : l.Pairwise fun a b => a.1 < b.1) :
    (upsertEntry name f l).Pairwise fun a b => a.1 < b.1 := by
  induction l with
  | nil => simp [upsertEntry]
  | cons q rest ih =>
    obtain ⟨k, v⟩ := q
    unfold upsertEntry
    obtain ⟨hk, hr⟩ := List.pairwise_cons.1 h
    split
    · rename_i hlt
      refine List.pairwise_cons.2 ⟨fun p hp => ?_, h⟩
      rcases List.mem_cons.1 hp with rfl | hp
      · exact hlt
      · exact String.lt_trans hlt (hk p hp)
    · split
      · exact List.pairwise_cons.2 ⟨fun p hp => hk p hp, hr⟩
      · rename_i hlt hne
        refine List.pairwise_cons.2 ⟨fun p hp => ?_, ih hr⟩
        rcases name_of_mem_upsertEntry hp with hp | ⟨r, hr', hp⟩
        · show k < p.1
          rw [hp]; grind
        · show k < p.1
          rw [hp]; exact hk r hr'

/-- A map from names to values, in ascending order of the names. -/
structure NameMap (α : Type u) where
  entries : List (String × α)
  ascending : entries.Pairwise fun a b => a.1 < b.1

namespace NameMap

variable {α : Type u} {β : Type v}

/-- Maps are equal when their entries are. -/
@[ext] theorem ext {m n : NameMap α} (h : m.entries = n.entries) : m = n := by
  cases m; cases n; simp_all

instance [DecidableEq α] : DecidableEq (NameMap α) := fun m n =>
  if h : m.entries = n.entries then .isTrue (ext h) else .isFalse fun e => h (e ▸ rfl)

/-- The map without entries. -/
def empty : NameMap α := ⟨[], .nil⟩

instance : Inhabited (NameMap α) := ⟨empty⟩

/-- The map with the value at a name computed from the one it had. -/
def upsert (m : NameMap α) (name : String) (f : Option α → α) : NameMap α :=
  ⟨upsertEntry name f m.entries, ascending_upsertEntry m.ascending⟩

/-- The map with a value at a name, in place of any it had. -/
def insert (m : NameMap α) (name : String) (value : α) : NameMap α :=
  m.upsert name fun _ => value

/-- The value at a name. -/
def find? (m : NameMap α) (name : String) : Option α := m.entries.lookup name

/-- The names, ascending. -/
def keys (m : NameMap α) : List String := m.entries.map (·.1)

/-- The map with each value replaced. -/
def map (m : NameMap α) (f : String → α → β) : NameMap β :=
  ⟨m.entries.map fun e => (e.1, f e.1 e.2), List.pairwise_map.2 m.ascending⟩

/-- The map of the values that are given, without the names that have none. -/
def filterMap (m : NameMap α) (f : String → α → Option β) : NameMap β :=
  ⟨m.entries.filterMap fun e => (f e.1 e.2).map fun b => (e.1, b), by
    refine List.Pairwise.filterMap _ (fun a b hab c hc d hd => ?_) m.ascending
    obtain ⟨x, -, rfl⟩ := Option.map_eq_some_iff.1 hc
    obtain ⟨y, -, rfl⟩ := Option.map_eq_some_iff.1 hd
    exact hab⟩

/-- The map with the entries of a list, a later entry in place of an earlier one. -/
def ofList (l : List (String × α)) : NameMap α :=
  l.foldl (fun m e => m.insert e.1 e.2) empty

/-- The elements of a list, grouped under a name each, in their order. -/
def group (name : β → String) (l : List β) : NameMap (List β) :=
  l.foldl (fun m b => m.upsert (name b) fun old => old.getD [] ++ [b]) empty

end NameMap

end Testwright
