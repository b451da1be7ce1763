import Testwright.NameMap

/-!
# Looking names up

What a map gives at a name after each operation. The names of a map are in ascending order, so there
is at most one entry to find (`find?_eq_some_iff`), and a map is determined by what it gives at the
names (`eq_of_find?_eq`).
-/

namespace Testwright

universe u v

variable {α : Type u} {β : Type v}

/-! ## Lists of entries -/

theorem lookup_cons_eq_ite (k : String) (a : α) (l : List (String × α)) (x : String) :
    ((k, a) :: l).lookup x = if x = k then some a else l.lookup x := by
  by_cases h : x = k
  · simp [h]
  · simp [List.lookup_cons, h, beq_false_of_ne h]

/-- Where no name is repeated, an entry is found at its name. -/
theorem lookup_eq_some_iff_mem {l : List (String × α)} (h : (l.map (·.1)).Nodup) {x : String}
    {a : α} : l.lookup x = some a ↔ (x, a) ∈ l := by
  induction l with
  | nil => simp
  | cons e rest ih =>
      obtain ⟨k, b⟩ := e
      obtain ⟨hk, hrest⟩ := List.nodup_cons.mp h
      rw [lookup_cons_eq_ite, List.mem_cons]
      by_cases hx : x = k
      · subst hx
        have hnot : (x, a) ∉ rest := fun ha => hk (List.mem_map.mpr ⟨_, ha, rfl⟩)
        simp [hnot, eq_comm]
      · simp [hx, ih hrest]

/-- Where no name is repeated, the order of the entries does not matter. -/
theorem lookup_eq_of_perm {l l' : List (String × α)} (h : (l.map (·.1)).Nodup) (hp : l.Perm l')
    (x : String) : l.lookup x = l'.lookup x := by
  have h' : (l'.map (·.1)).Nodup := (hp.map _).nodup_iff.mp h
  refine Option.ext fun a => ?_
  rw [lookup_eq_some_iff_mem h, lookup_eq_some_iff_mem h', hp.mem_iff]

/-! ## Lists in ascending order -/

/-- A name before all names of a list has no entry there. -/
theorem lookup_of_forall_lt {name : String} {l : List (String × α)}
    (h : ∀ e ∈ l, name < e.1) : l.lookup name = none := by
  rw [List.lookup_eq_none_iff]
  intro e he
  exact bne_iff_ne.mpr fun hn => String.lt_irrefl _ (hn ▸ h e he)

/-- Changing the entry at a name leaves the other names alone. -/
theorem lookup_upsertEntry {name : String} {f : Option α → α} {l : List (String × α)}
    (h : l.Pairwise fun a b => a.1 < b.1) (x : String) :
    (upsertEntry name f l).lookup x =
      if x = name then some (f (l.lookup name)) else l.lookup x := by
  induction l with
  | nil => rw [upsertEntry, lookup_cons_eq_ite]; rfl
  | cons e rest ih =>
      obtain ⟨k, a⟩ := e
      obtain ⟨hk, hrest⟩ := List.pairwise_cons.mp h
      unfold upsertEntry
      split
      · rename_i hlt
        have hnone : List.lookup name ((k, a) :: rest) = none := by
          refine lookup_of_forall_lt fun e he => ?_
          rcases List.mem_cons.mp he with rfl | he
          · exact hlt
          · exact String.lt_trans hlt (hk e he)
        rw [lookup_cons_eq_ite, hnone]
      · split
        · rename_i _ heq
          subst heq
          simp only [lookup_cons_eq_ite, if_true]
          split <;> rfl
        · rename_i _ hne
          simp only [lookup_cons_eq_ite, ih hrest, if_neg hne]
          by_cases hx : x = k
          · have : ¬ x = name := fun e => hne (e.symm.trans hx)
            simp only [if_pos hx, if_neg this]
          · simp only [if_neg hx]

namespace NameMap

/-! ## One name -/

theorem find?_upsert (m : NameMap α) (name : String) (f : Option α → α) (x : String) :
    (m.upsert name f).find? x = if x = name then some (f (m.find? name)) else m.find? x :=
  lookup_upsertEntry m.ascending x

theorem find?_insert (m : NameMap α) (name : String) (value : α) (x : String) :
    (m.insert name value).find? x = if x = name then some value else m.find? x :=
  find?_upsert m name _ x

theorem nodup_keys (m : NameMap α) : m.keys.Nodup := by
  refine List.pairwise_map.mpr (m.ascending.imp fun hlt heq => ?_)
  rw [heq] at hlt
  exact String.lt_irrefl _ hlt

/-- There is at most one entry at a name. -/
theorem find?_eq_some_iff {m : NameMap α} {x : String} {a : α} :
    m.find? x = some a ↔ (x, a) ∈ m.entries :=
  lookup_eq_some_iff_mem m.nodup_keys

theorem mem_keys_iff {m : NameMap α} {x : String} : x ∈ m.keys ↔ ∃ a, m.find? x = some a := by
  simp [keys, find?_eq_some_iff]

theorem nodup_entries (m : NameMap α) : m.entries.Nodup := by
  refine m.ascending.imp fun hlt heq => ?_
  subst heq
  exact String.lt_irrefl _ hlt

/-- A map is determined by what it gives at the names. -/
theorem eq_of_find?_eq {m n : NameMap α} (h : ∀ x, m.find? x = n.find? x) : m = n := by
  have hmem : ∀ e, e ∈ m.entries ↔ e ∈ n.entries := by
    intro e
    rw [← find?_eq_some_iff (m := m), ← find?_eq_some_iff (m := n), h]
  -- two ascending lists of the same entries are the same list
  have hperm : m.entries.Perm n.entries :=
    (List.perm_ext_iff_of_nodup m.nodup_entries n.nodup_entries).mpr hmem
  refine ext (hperm.eq_of_pairwise ?_ m.ascending n.ascending)
  intro a b _ _ hab hba
  exact absurd (String.lt_trans hab hba) (String.lt_irrefl _)

/-! ## All names -/

theorem keys_map (m : NameMap α) (f : String → α → β) : (m.map f).keys = m.keys := by
  simp [keys, map, Function.comp_def]

theorem find?_filterMap (m : NameMap α) (f : String → α → Option β) (x : String) :
    (m.filterMap f).find? x = (m.find? x).bind (f x) := by
  refine Option.ext fun b => ?_
  rw [find?_eq_some_iff, Option.bind_eq_some_iff]
  simp only [find?_eq_some_iff, filterMap, List.mem_filterMap, Option.map_eq_some_iff]
  constructor
  · rintro ⟨⟨k, a⟩, ha, c, hc, he⟩
    cases he
    exact ⟨a, ha, hc⟩
  · rintro ⟨a, ha, hb⟩
    exact ⟨(x, a), ha, b, hb, rfl⟩

theorem find?_map (m : NameMap α) (f : String → α → β) (x : String) :
    (m.map f).find? x = (m.find? x).map (f x) := by
  refine Option.ext fun b => ?_
  rw [find?_eq_some_iff, Option.map_eq_some_iff]
  simp only [find?_eq_some_iff, map, List.mem_map]
  constructor
  · rintro ⟨⟨k, a⟩, ha, he⟩
    cases he
    exact ⟨a, ha, rfl⟩
  · rintro ⟨a, ha, rfl⟩
    exact ⟨(x, a), ha, rfl⟩

/-! ## Lists made into maps -/

/-- What is found after the entries of a list were put into a map. -/
theorem find?_foldl_insert {l : List (String × α)} (h : (l.map (·.1)).Nodup) (m : NameMap α)
    (x : String) :
    (l.foldl (fun m e => m.insert e.1 e.2) m).find? x = (l.lookup x).or (m.find? x) := by
  induction l generalizing m with
  | nil => rfl
  | cons e rest ih =>
      obtain ⟨k, a⟩ := e
      obtain ⟨hk, hrest⟩ := List.nodup_cons.mp h
      rw [List.foldl_cons, ih hrest, find?_insert, lookup_cons_eq_ite]
      by_cases hx : x = k
      · -- the name does not occur again
        have hnone : rest.lookup x = none := by
          rw [List.lookup_eq_none_iff]
          exact fun e he => bne_iff_ne.mpr fun heq =>
            hk (List.mem_map.mpr ⟨e, he, heq.symm.trans hx⟩)
        rw [hnone, if_pos hx, if_pos hx]
        rfl
      · rw [if_neg hx, if_neg hx]

/-- A map is made again from its entries, in any order. -/
theorem ofList_eq_of_perm {l : List (String × α)} {m : NameMap α} (h : l.Perm m.entries) :
    ofList l = m := by
  have hl : (l.map (·.1)).Nodup := (h.map _).nodup_iff.mpr m.nodup_keys
  refine eq_of_find?_eq fun x => ?_
  rw [ofList, find?_foldl_insert hl, lookup_eq_of_perm hl h]
  exact Option.or_none

/-! ## Groups -/

/-- The elements that a group holds after those of a list were added to it. -/
theorem find?_foldl_group (name : β → String) (l : List β) (m : NameMap (List β)) (x : String) :
    (l.foldl (fun m b => m.upsert (name b) fun old => old.getD [] ++ [b]) m).find? x =
      if (l.filter (name · = x)).isEmpty then m.find? x
      else some ((m.find? x).getD [] ++ l.filter (name · = x)) := by
  induction l generalizing m with
  | nil => rfl
  | cons b rest ih =>
      rw [List.foldl_cons, ih, find?_upsert]
      by_cases hb : name b = x
      · subst hb
        -- the first of its name, or one more of them
        by_cases hrest : (rest.filter (name · = name b)).isEmpty <;> simp_all
      · have : ¬ x = name b := fun e => hb e.symm
        simp [this, hb]

/-- A group holds the elements of its name, in their order. -/
theorem find?_group (name : β → String) (l : List β) (x : String) :
    (group name l).find? x =
      if (l.filter (name · = x)).isEmpty then none else some (l.filter (name · = x)) := by
  rw [group, find?_foldl_group]
  rfl

end NameMap

end Testwright
