import Testwright.Proofs.Sat.Formula
import Testwright.Sat.Search

/-!
# The search decides formulas

A model that the search finds satisfies the formula (`holds_of_solve`), and the search finds one
whenever some assignment satisfies it (`solve_isSome`).

The search in one block goes by `searchWithin_eq_some`, which says all that a successful search can
have done. Its model mentions no variable from outside the formula, so a literal chosen first is not
overruled by the rest of the model, and the models of blocks without a common variable can be put
together.
-/

namespace Testwright.Sat

/-! ## Assuming a literal -/

theorem Literal.eq_or_eq_opposite {k l : Literal} (h : k.index = l.index) :
    k = l ∨ k = l.opposite := by
  obtain ⟨i, p⟩ := k
  obtain ⟨j, q⟩ := l
  cases p <;> cases q <;> simp_all [Literal.opposite]

theorem Literal.opposite_opposite (l : Literal) : l.opposite.opposite = l := by
  simp [Literal.opposite]

/-- An assignment makes a literal true, or else its opposite. -/
theorem Literal.opposite_true {a : Nat → Bool} {l : Literal} (h : ¬ a l.index = l.positive) :
    a l.opposite.index = l.opposite.positive := by
  cases hp : l.positive <;> simp_all [Literal.opposite]

namespace Formula

theorem mem_assume {l : Literal} {f : Formula} {c : Clause} :
    c ∈ f.assume l ↔ ∃ d ∈ f, l ∉ d ∧ d.filter (· != l.opposite) = c := by
  simp [assume, and_assoc]

/-- The variable of an assumed literal is gone. -/
theorem index_notMem_vars_assume (l : Literal) (f : Formula) :
    l.index ∉ (f.assume l).vars := by
  intro h
  obtain ⟨c, hc, k, hk, hindex⟩ := mem_vars.mp h
  obtain ⟨d, -, hld, rfl⟩ := mem_assume.mp hc
  obtain ⟨hkd, hne⟩ := List.mem_filter.mp hk
  rcases Literal.eq_or_eq_opposite hindex with rfl | rfl
  · exact hld hkd
  · simp at hne

theorem vars_assume_subset {l : Literal} {f : Formula} {n : Nat}
    (h : n ∈ (f.assume l).vars) : n ∈ f.vars := by
  obtain ⟨c, hc, k, hk, hindex⟩ := mem_vars.mp h
  obtain ⟨d, hd, -, rfl⟩ := mem_assume.mp hc
  exact mem_vars.mpr ⟨d, hd, k, (List.mem_filter.mp hk).1, hindex⟩

/-- Where a literal is true, assuming it changes nothing. -/
theorem holds_assume_iff {a : Nat → Bool} {l : Literal} (hl : a l.index = l.positive)
    (f : Formula) : Formula.holds a (f.assume l) = true ↔ Formula.holds a f = true := by
  rw [holds_iff, holds_iff]
  constructor
  · intro h d hd
    by_cases hld : l ∈ d
    · exact Clause.holds_iff.mpr ⟨l, hld, hl⟩
    · obtain ⟨k, hk, hak⟩ := Clause.holds_iff.mp (h _ (mem_assume.mpr ⟨d, hd, hld, rfl⟩))
      exact Clause.holds_iff.mpr ⟨k, (List.mem_filter.mp hk).1, hak⟩
  · intro h c hc
    obtain ⟨d, hd, -, rfl⟩ := mem_assume.mp hc
    obtain ⟨k, hk, hak⟩ := Clause.holds_iff.mp (h d hd)
    have hne : k ≠ l.opposite := by
      rintro rfl
      simp [Literal.opposite, hl] at hak
    exact Clause.holds_iff.mpr ⟨k, List.mem_filter.mpr ⟨hk, bne_iff_ne.mpr hne⟩, hak⟩

/-- A model of what remains, with the assumed literal added, is a model of the formula. -/
theorem holds_truth_append {l : Literal} {f : Formula} {m : Model}
    (hvars : ∀ n ∈ m, n ∈ (f.assume l).vars)
    (h : Formula.holds m.assignment (f.assume l) = true) :
    Formula.holds (Model.assignment (l.truth ++ m)) f = true := by
  have hindex : l.index ∉ m := fun hm => index_notMem_vars_assume l f (hvars _ hm)
  have hl : Model.assignment (l.truth ++ m) l.index = l.positive := by
    cases hp : l.positive <;> simp [Model.assignment, Literal.truth, hp, hindex]
  refine (holds_assume_iff hl f).mp (holds_of_agree (fun n hn => ?_) h)
  have hne : n ≠ l.index := fun e => index_notMem_vars_assume l f (e ▸ hn)
  cases hp : l.positive <;> simp [Model.assignment, Literal.truth, hp, hne]

/-! ## The size of a formula -/

theorem size_cons (d : Clause) (f : Formula) :
    Formula.size (d :: f) = d.length + f.size := by
  simp [size]

theorem size_assume_cons (l : Literal) (d : Clause) (f : Formula) :
    (Formula.assume l (d :: f)).size =
      (if l ∈ d then 0 else (d.filter (· != l.opposite)).length) + (f.assume l).size := by
  by_cases h : l ∈ d <;> simp [assume, size, h]

theorem size_assume_le (l : Literal) (f : Formula) : (f.assume l).size ≤ f.size := by
  induction f with
  | nil => exact Nat.le_refl _
  | cons d f ih =>
      have hlen : (d.filter (· != l.opposite)).length ≤ d.length := List.length_filter_le _ _
      rw [size_assume_cons, size_cons]
      split <;> omega

/-- Assuming a literal that occurs, or whose opposite occurs, makes a formula smaller. -/
theorem size_assume_lt {l : Literal} {f : Formula} {c : Clause} (hc : c ∈ f)
    (hl : l ∈ c ∨ l.opposite ∈ c) : (f.assume l).size < f.size := by
  induction f with
  | nil => exact absurd hc List.not_mem_nil
  | cons d f ih =>
      have hle := size_assume_le l f
      have hlen : (d.filter (· != l.opposite)).length ≤ d.length := List.length_filter_le _ _
      rw [size_assume_cons, size_cons]
      rcases List.mem_cons.mp hc with rfl | hc
      · by_cases hld : l ∈ c
        · -- the clause is dropped, and it has a literal
          have := List.length_pos_of_mem hld
          rw [if_pos hld]
          omega
        · -- the clause stays, and loses the opposite
          have hlt : (c.filter (· != l.opposite)).length < c.length :=
            List.length_filter_lt_length_iff_exists.mpr
              ⟨l.opposite, hl.resolve_left hld, by simp⟩
          rw [if_neg hld]
          omega
      · -- the clause is a later one, and this one does not grow
        have := ih hc
        split <;> omega

theorem mem_of_forced? {f : Formula} {l : Literal} (h : f.forced? = some l) : [l] ∈ f := by
  obtain ⟨c, hc, heq⟩ := List.exists_of_findSome?_eq_some h
  split at heq
  · cases heq
    exact hc
  · cases heq

end Formula

/-! ## Search in one block -/

/-- All that a successful search can have done: there was nothing to satisfy, or it assumed a
literal that occurs, or whose opposite occurs, and went on. -/
theorem searchWithin_eq_some {bound : Nat} {f : Formula} {m : Model}
    (h : searchWithin bound f = some m) :
    f = [] ∧ m = [] ∨ ∃ more l m', (∃ c ∈ f, l ∈ c ∨ l.opposite ∈ c) ∧ bound = more + 1 ∧
      searchWithin more (f.assume l) = some m' ∧ m = l.truth ++ m' := by
  unfold searchWithin at h
  split at h
  · cases h
  · split at h
    · -- nothing to satisfy
      rename_i hhead
      cases h
      exact .inl ⟨List.head?_eq_none_iff.mp hhead, rfl⟩
    · -- a forced literal
      rename_i more l hforced _
      obtain ⟨m', hm', rfl⟩ := Option.map_eq_some_iff.mp h
      exact .inr ⟨more, l, m', ⟨_, Formula.mem_of_forced? hforced, .inl List.mem_cons_self⟩, rfl,
        hm', rfl⟩
    · -- the first literal, or else its opposite
      rename_i more l c _ hhead
      have hc : l :: c ∈ f := List.mem_of_head? hhead
      split at h
      · rename_i m' hm'
        cases h
        exact .inr ⟨more, l, m', ⟨_, hc, .inl List.mem_cons_self⟩, rfl, hm', rfl⟩
      · obtain ⟨m', hm', rfl⟩ := Option.map_eq_some_iff.mp h
        refine .inr ⟨more, l.opposite, m', ⟨_, hc, .inr ?_⟩, rfl, hm', rfl⟩
        rw [Literal.opposite_opposite]
        exact List.mem_cons_self
    · cases h

/-- The variables of a model that the search finds occur in the formula. -/
theorem searchWithin_vars {bound : Nat} {f : Formula} {m : Model}
    (h : searchWithin bound f = some m) : ∀ n ∈ m, n ∈ f.vars := by
  induction bound generalizing f m with
  | zero =>
      rcases searchWithin_eq_some h with ⟨rfl, rfl⟩ | ⟨_, _, _, _, hbound, _⟩
      · simp
      · cases hbound
  | succ bound ih =>
      rcases searchWithin_eq_some h with ⟨rfl, rfl⟩ | ⟨more, l, m', ⟨c, hc, hl⟩, hbound, hm', rfl⟩
      · simp
      · cases hbound
        intro n hn
        rcases List.mem_append.mp hn with hn | hn
        · have : n = l.index := by
            cases hp : l.positive <;> simp_all [Literal.truth]
          subst this
          rcases hl with hl | hl
          · exact Formula.mem_vars.mpr ⟨c, hc, l, hl, rfl⟩
          · exact Formula.mem_vars.mpr ⟨c, hc, l.opposite, hl, rfl⟩
        · exact Formula.vars_assume_subset (ih hm' n hn)

/-- What the search finds is a model. -/
theorem holds_of_searchWithin {bound : Nat} {f : Formula} {m : Model}
    (h : searchWithin bound f = some m) : Formula.holds m.assignment f = true := by
  induction bound generalizing f m with
  | zero =>
      rcases searchWithin_eq_some h with ⟨rfl, rfl⟩ | ⟨_, _, _, _, hbound, _⟩
      · rfl
      · cases hbound
  | succ bound ih =>
      rcases searchWithin_eq_some h with ⟨rfl, rfl⟩ | ⟨more, l, m', _, hbound, hm', rfl⟩
      · rfl
      · cases hbound
        exact Formula.holds_truth_append (searchWithin_vars hm') (ih hm')

/-- A satisfied formula has no empty clause. -/
theorem Formula.contains_nil_eq_false {a : Nat → Bool} {f : Formula}
    (ha : Formula.holds a f = true) : f.contains [] = false := by
  rw [List.contains_eq_mem, decide_eq_false_iff_not]
  intro hmem
  simpa using Clause.holds_iff.mp (Formula.holds_iff.mp ha [] hmem)

/-- A satisfied formula is empty or starts with a literal. -/
theorem Formula.eq_nil_or_cons_cons {a : Nat → Bool} {f : Formula}
    (ha : Formula.holds a f = true) : f = [] ∨ ∃ l c rest, f = (l :: c) :: rest := by
  match f with
  | [] => exact .inl rfl
  | [] :: _ => simp [Formula.holds, Clause.holds] at ha
  | (l :: c) :: rest => exact .inr ⟨l, c, rest, rfl⟩

/-- A formula that some assignment satisfies is not given up within a bound as large as it. -/
theorem searchWithin_isSome {bound : Nat} {f : Formula} {a : Nat → Bool}
    (ha : Formula.holds a f = true) (hsize : f.size ≤ bound) :
    (searchWithin bound f).isSome = true := by
  induction bound generalizing f with
  | zero =>
      rcases Formula.eq_nil_or_cons_cons ha with rfl | ⟨l, c, rest, rfl⟩
      · rfl
      · simp [Formula.size] at hsize
  | succ bound ih =>
      -- whichever literal is assumed, the search goes on when it is true
      have hnext : ∀ k, (∃ c ∈ f, k ∈ c ∨ k.opposite ∈ c) → a k.index = k.positive →
          (searchWithin bound (f.assume k)).isSome = true := by
        intro k ⟨c, hc, hk⟩ hak
        have hlt := Formula.size_assume_lt hc hk
        exact ih ((Formula.holds_assume_iff hak f).mpr ha) (by omega)
      have hempty := Formula.contains_nil_eq_false ha
      rcases Formula.eq_nil_or_cons_cons ha with rfl | ⟨l, c, rest, rfl⟩
      · rfl
      · unfold searchWithin
        rw [hempty]
        cases hforced : Formula.forced? ((l :: c) :: rest) with
        | some k =>
            have hk := Formula.mem_of_forced? hforced
            have hak : a k.index = k.positive := by
              simpa using Clause.holds_iff.mp (Formula.holds_iff.mp ha [k] hk)
            simpa using hnext k ⟨_, hk, .inl List.mem_cons_self⟩ hak
        | none =>
            simp only [Bool.false_eq_true, if_false, List.head?_cons]
            by_cases hal : a l.index = l.positive
            · have := hnext l ⟨_, List.mem_cons_self, .inl List.mem_cons_self⟩ hal
              obtain ⟨m, hm⟩ := Option.isSome_iff_exists.mp this
              rw [hm]
              rfl
            · have := hnext l.opposite ⟨_, List.mem_cons_self, .inr (by
                rw [Literal.opposite_opposite]; exact List.mem_cons_self)⟩
                (Literal.opposite_true hal)
              split
              · rfl
              · simpa using this

/-! ## Blocks -/

/-- The clauses of a block mention only its variables. -/
def Block.Closed (b : Block) : Prop := ∀ n ∈ Formula.vars b.clauses, n ∈ b.vars

/-- Each block is closed, and no two of them share a variable. -/
def Separate (bs : List Block) : Prop :=
  (∀ b ∈ bs, b.Closed) ∧ bs.Pairwise fun b b' => ∀ n ∈ b.vars, n ∉ b'.vars

/-- The variables of a block that others were joined to. -/
theorem mem_vars_joined {met : List Block} {j : Block} {n : Nat} :
    n ∈ (met.foldl (fun j b => ⟨mergeVariables j.vars b.vars, j.clauses ++ b.clauses⟩) j).vars ↔
      n ∈ j.vars ∨ ∃ b ∈ met, n ∈ b.vars := by
  induction met generalizing j with
  | nil => simp
  | cons b met ih =>
      have hmerge : n ∈ mergeVariables j.vars b.vars ↔ n ∈ j.vars ∨ n ∈ b.vars := by
        by_cases hb : n ∈ b.vars <;> simp [mergeVariables, hb]
      simp [ih, hmerge, or_assoc]

/-- The clauses of a block that others were joined to. -/
theorem mem_clauses_joined {met : List Block} {j : Block} {c : Clause} :
    c ∈ (met.foldl (fun j b => ⟨mergeVariables j.vars b.vars, j.clauses ++ b.clauses⟩) j).clauses ↔
      c ∈ j.clauses ∨ ∃ b ∈ met, c ∈ b.clauses := by
  induction met generalizing j with
  | nil => simp
  | cons b met ih => simp [ih, or_assoc]

/-- Adding a clause adds it to the clauses of the blocks, and nothing else. -/
theorem mem_clauses_addClause {bs : List Block} {c d : Clause} :
    (∃ b ∈ addClause bs c, d ∈ b.clauses) ↔ d = c ∨ ∃ b ∈ bs, d ∈ b.clauses := by
  simp only [addClause, List.partition_eq_filter_filter, List.mem_cons, exists_eq_or_imp,
    mem_clauses_joined, List.mem_filter, List.not_mem_nil, or_false, or_assoc]
  refine or_congr_right ?_
  rw [← exists_or]
  refine exists_congr fun b => ?_
  by_cases h : b.meets c = true <;> simp [h]

/-- Adding a clause keeps the blocks separate. -/
theorem Separate.addClause {bs : List Block} (h : Separate bs) (c : Clause) :
    Separate (addClause bs c) := by
  obtain ⟨hclosed, hpair⟩ := h
  -- blocks that differ in whether they meet the clause share no variable
  have hapart : ∀ b ∈ bs, ∀ b' ∈ bs, b.meets c = true ∧ b'.meets c = false →
      ∀ n ∈ b.vars, n ∉ b'.vars := by
    refine List.Pairwise.forall_of_forall_of_flip ?_ (hpair.imp ?_) (hpair.imp ?_)
    · intro b _ h
      simp [h.1] at h
    · intro b b' h _
      exact h
    · intro b b' h _ n hn hn'
      exact h n hn' hn
  rw [addClause.eq_def, List.partition_eq_filter_filter]
  refine ⟨?_, List.pairwise_cons.mpr ⟨?_, hpair.sublist List.filter_sublist⟩⟩
  · intro b hb n hn
    rcases List.mem_cons.mp hb with rfl | hb
    · obtain ⟨d, hd, l, hl, rfl⟩ := Formula.mem_vars.mp hn
      refine mem_vars_joined.mpr ?_
      rcases mem_clauses_joined.mp hd with hd | ⟨b, hb, hd⟩
      · rw [List.mem_singleton.mp hd] at hl
        exact .inl (List.mem_map.mpr ⟨l, hl, rfl⟩)
      · have hvar := Formula.mem_vars.mpr ⟨d, hd, l, hl, rfl⟩
        exact .inr ⟨b, hb, hclosed b (List.mem_filter.mp hb).1 _ hvar⟩
    · exact hclosed b (List.mem_filter.mp hb).1 n hn
  · intro b' hb' n hn
    obtain ⟨hb', hmeets⟩ := List.mem_filter.mp hb'
    have hmeets : b'.meets c = false := by simpa using hmeets
    rcases mem_vars_joined.mp hn with hn | ⟨b, hb, hn⟩
    · obtain ⟨l, hl, rfl⟩ := List.mem_map.mp hn
      have := List.any_eq_false.mp hmeets l hl
      simpa using this
    · obtain ⟨hb, hmet⟩ := List.mem_filter.mp hb
      exact hapart b hb b' hb' ⟨hmet, hmeets⟩ n hn

/-- Adding clauses one after another keeps the blocks separate and loses no clause. -/
theorem blocks_foldl {bs : List Block} (h : Separate bs) (f : Formula) :
    Separate (f.foldl addClause bs) ∧
      ∀ d, (∃ b ∈ f.foldl addClause bs, d ∈ b.clauses) ↔ d ∈ f ∨ ∃ b ∈ bs, d ∈ b.clauses := by
  induction f generalizing bs with
  | nil => exact ⟨h, by simp⟩
  | cons c f ih =>
      obtain ⟨hsep, hmem⟩ := ih (h.addClause c)
      refine ⟨hsep, fun d => ?_⟩
      rw [List.foldl_cons, hmem, mem_clauses_addClause, List.mem_cons, or_left_comm, or_assoc]

theorem Formula.separate_blocks (f : Formula) : Separate f.blocks :=
  (blocks_foldl ⟨by simp, .nil⟩ f).1

/-- The blocks of a formula hold its clauses. -/
theorem Formula.mem_blocks {f : Formula} {c : Clause} :
    (∃ b ∈ f.blocks, c ∈ b.clauses) ↔ c ∈ f := by
  simpa [blocks] using (@blocks_foldl [] ⟨by simp, .nil⟩ f).2 c

/-! ## Search in all blocks -/

/-- The models of separate blocks, put together, satisfy them all. -/
theorem holds_of_searchBlocks {bs : List Block} {ms : List Model} (h : Separate bs)
    (hms : (bs.mapM fun b => searchBlock b.clauses) = some ms) :
    (∀ n ∈ ms.flatten, ∃ b ∈ bs, n ∈ b.vars) ∧
      ∀ b ∈ bs, Formula.holds (Model.assignment ms.flatten) b.clauses = true := by
  induction bs generalizing ms with
  | nil =>
      cases hms
      simp
  | cons b bs ih =>
      obtain ⟨hclosed, hpair⟩ := h
      obtain ⟨happart, hpair⟩ := List.pairwise_cons.mp hpair
      rw [List.mapM_cons] at hms
      obtain ⟨m, hm, ms', hms', rfl⟩ : ∃ m, searchBlock b.clauses = some m ∧
          ∃ ms', (bs.mapM fun b => searchBlock b.clauses) = some ms' ∧ m :: ms' = ms := by
        simpa [bind, pure, Option.bind_eq_some_iff] using hms
      obtain ⟨hvars, hholds⟩ := ih ⟨fun b' hb' => hclosed b' (.tail _ hb'), hpair⟩ hms'
      have hmvars : ∀ n ∈ m, n ∈ b.vars := fun n hn =>
        hclosed b List.mem_cons_self n (searchWithin_vars hm n hn)
      constructor
      · intro n hn
        rcases List.mem_append.mp hn with hn | hn
        · exact ⟨b, List.mem_cons_self, hmvars n hn⟩
        · obtain ⟨b', hb', hn⟩ := hvars n hn
          exact ⟨b', .tail _ hb', hn⟩
      · intro b' hb'
        rcases List.mem_cons.mp hb' with rfl | hb'
        · -- the other models do not reach into this block
          refine Formula.holds_of_agree (fun n hn => ?_) (holds_of_searchWithin hm)
          have hother : n ∉ ms'.flatten := fun hms => by
            obtain ⟨b'', hb'', hn'⟩ := hvars n hms
            exact happart b'' hb'' n (hclosed b' List.mem_cons_self n hn) hn'
          simp [Model.assignment, hother]
        · -- the model of this block does not reach into the others
          refine Formula.holds_of_agree (fun n hn => ?_) (hholds b' hb')
          have hthis : n ∉ m := fun hnm =>
            happart b' hb' n (hmvars n hnm) (hclosed b' (.tail _ hb') n hn)
          simp [Model.assignment, hthis]

/-- Each block that an assignment satisfies gets a model. -/
theorem searchBlocks_isSome {bs : List Block} {a : Nat → Bool}
    (h : ∀ b ∈ bs, Formula.holds a b.clauses = true) :
    (bs.mapM fun b => searchBlock b.clauses).isSome = true := by
  induction bs with
  | nil => rfl
  | cons b bs ih =>
      have hb : (searchBlock b.clauses).isSome = true :=
        searchWithin_isSome (h b List.mem_cons_self) (Nat.le_refl _)
      obtain ⟨m, hm⟩ := Option.isSome_iff_exists.mp hb
      obtain ⟨ms, hms⟩ := Option.isSome_iff_exists.mp (ih fun b' hb' => h b' (.tail _ hb'))
      rw [List.mapM_cons, hm, hms]
      rfl

/-- What the solver gives is a model of the formula. -/
theorem holds_of_solve {f : Formula} {m : Model} (h : solve f = some m) :
    Formula.holds m.assignment f = true := by
  obtain ⟨ms, hms, rfl⟩ := Option.map_eq_some_iff.mp h
  rw [Formula.holds_iff]
  intro c hc
  obtain ⟨b, hb, hcb⟩ := Formula.mem_blocks.mpr hc
  exact Formula.holds_iff.mp ((holds_of_searchBlocks f.separate_blocks hms).2 b hb) c hcb

/-- The solver gives a model of every formula that has one. -/
theorem solve_isSome {f : Formula} {a : Nat → Bool} (h : Formula.holds a f = true) :
    (solve f).isSome = true := by
  have hblocks : ∀ b ∈ f.blocks, Formula.holds a b.clauses = true := fun b hb =>
    Formula.holds_iff.mpr fun c hc =>
      Formula.holds_iff.mp h c (Formula.mem_blocks.mp ⟨b, hb, hc⟩)
  rw [solve, Option.isSome_map]
  exact searchBlocks_isSome hblocks

end Testwright.Sat
