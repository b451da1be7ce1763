import Testwright.Proofs.Source.Literals
import Testwright.Proofs.Text.Collecting

/-!
# The assignments behind the recorded values

An assignment of a literal stands in a text where a name begins, an equals sign follows it, and a
literal follows that (`Assignment.StandsIn`). Where two of them overlap, the one that begins first
counts, so the text determines which ones count (`IsLeftmostFrom.unique`). Main statement: the
values that are recorded for the names are the literals of these assignments that no part of a name
or of a number follows; all of them are whole right-hand sides exactly if each such assignment ends
with its literal (`literalBindings_of_assignments`).
-/

namespace Testwright.Source

open Text Pattern

variable {c c' : Cursor} {cs name literal r : List Char}

/-! ## An assignment at a place -/

/-- A text that begins with the assignment of a literal to a name; `rest` follows the literal. -/
inductive BeginsAssignment (name literal rest : List Char) : List Char → Prop where
  | intro {g g' : List Char} (hname : isPlainName name = true) (hg : ∀ x ∈ g, isBlank x = true)
      (hg' : ∀ x ∈ g', isBlank x = true) (hliteral : IsLiteral literal rest) :
      BeginsAssignment name literal rest (name ++ (g ++ '=' :: (g' ++ (literal ++ rest))))

theorem BeginsAssignment.exists_start (h : BeginsAssignment name literal r cs) :
    ∃ x t, cs = x :: t ∧ isWord x = true := by
  obtain ⟨hname, -, -, -⟩ := h
  obtain ⟨x, s, rfl, hx, -⟩ := exists_of_isPlainName hname
  exact ⟨x, _, rfl, (of_isNameStart hx).1⟩

/-- An assignment is read up to the end of its literal. -/
theorem BeginsAssignment.reads (h : BeginsAssignment name literal r c.rest)
    (hbefore : ∀ y ∈ c.before, isWord y = false) :
    ∃ c', literalBinding.Reads c c' ∧ c'.rest = r ∧
      c'.spans.map Span.text = literal :: name :: c.spans.map Span.text := by
  obtain ⟨x, t, hc, hx⟩ := h.exists_start
  have hedge := (Cursor.atEdge_iff hc hx).mpr hbefore
  generalize hrest : c.rest = cs at h
  obtain ⟨hname, hg, hg', hliteral⟩ := h
  exact reads_literalBinding_of_literal hname hg hg' hliteral.isBlank_of_head hedge hrest
    fun _ hc₁ => hliteral.reads hc₁

theorem spells_assignedName {s : List Char} {k : List (List Char)} :
    assignedName.Spells s k ↔ isPlainName s = true ∧ k = [] := by
  constructor
  · rintro ⟨_, s, _, _, rfl, rfl, ⟨⟨x, hx, rfl⟩, rfl⟩, hs, rfl⟩
    refine ⟨?_, rfl⟩
    rw [List.singleton_append, isPlainName, hx, List.all_eq_true.mpr hs]
    rfl
  · rintro ⟨hname, rfl⟩
    obtain ⟨x, s, rfl, hx, hs⟩ := exists_of_isPlainName hname
    exact ⟨[x], s, [], [], rfl, rfl, ⟨⟨x, hx, rfl⟩, rfl⟩, hs, rfl⟩

/-- Where an assignment is read, there is one. -/
theorem exists_assignment_of_reads (h : literalBinding.Reads c c') :
    (∀ y ∈ c.before, isWord y = false) ∧
      ∃ name literal r, BeginsAssignment name literal r c.rest := by
  have hedge : c.atEdge = true := by
    cases hat : c.atEdge with
    | true => rfl
    | false =>
        have hfails : literalBinding.Fails c :=
          (((((fails_edge hat).seq _).seq _).seq _).seq _).seq _
        exact absurd hfails h.not_fails
  obtain ⟨s, k, hto⟩ := h.exists_readsTo
  have hspells : ((((edge ++ capture assignedName) ++ blank) ++ char '=') ++ blank ++
      capture Source.literal).Spells s k := h.spells hto
  obtain ⟨_, l, _, _, rfl, -, ⟨_, g', _, _, rfl, -, ⟨_, _, _, _, rfl, -, ⟨_, g, _, _, rfl, -,
    ⟨_, name, _, _, rfl, -, ⟨rfl, -⟩, _, hname, -⟩, hg, -⟩, hequals⟩, hg', -⟩, _, hl, -⟩ := hspells
  obtain ⟨rfl, -⟩ := spells_char.mp hequals
  have hplain := (spells_assignedName.mp hname).1
  obtain ⟨literal, r, hliteral, his⟩ := exists_isLiteral_of_spells hl c'.rest
  have hbegins : BeginsAssignment name literal r c.rest := by
    have hrest : c.rest = name ++ (g ++ '=' :: (g' ++ (literal ++ r))) := by
      rw [hto.1, ← hliteral]
      simp
    rw [hrest]
    exact .intro hplain hg hg' his
  obtain ⟨x, t, hc, hx⟩ := hbegins.exists_start
  exact ⟨(Cursor.atEdge_iff hc hx).mp hedge, name, literal, r, hbegins⟩

/-! ## The assignments of a text -/

/-- An assignment with the text around it. -/
structure Assignment where
  before : List Char
  name : List Char
  literal : List Char
  rest : List Char

namespace Assignment

variable {a b : Assignment}

/-- The assignment stands in the text, and its name is not the end of a longer word. -/
def StandsIn (a : Assignment) (cs : List Char) : Prop :=
  (∀ y ∈ a.before.getLast?, isWord y = false) ∧
    ∃ t, cs = a.before ++ t ∧ BeginsAssignment a.name a.literal a.rest t

/-- The assignment begins inside another one of the same text. -/
def BeginsInside (cs : List Char) (b a : Assignment) : Prop :=
  a.before.length < b.before.length ∧ b.before.length + a.rest.length < cs.length

/-- An assignment that stands in a text is read at its place. -/
theorem StandsIn.reads {u t : List Char} (h : a.StandsIn (u ++ t))
    (hu : a.before.length = u.length) :
    a.before = u ∧ ∃ c, literalBinding.Reads ⟨u.getLast?, t, 0, []⟩ c ∧ c.rest = a.rest ∧
      c.spans.map Span.text = [a.literal, a.name] := by
  obtain ⟨hbefore, t', heq, hbegins⟩ := h
  obtain ⟨rfl, rfl⟩ := List.append_inj heq hu.symm
  exact ⟨rfl, hbegins.reads (c := ⟨a.before.getLast?, t, 0, []⟩) hbefore⟩

/-- At a place there is at most one assignment. -/
theorem StandsIn.unique (ha : a.StandsIn cs) (hb : b.StandsIn cs)
    (h : a.before.length = b.before.length) : a = b := by
  obtain ⟨t, rfl⟩ : ∃ t, cs = b.before ++ t := by
    obtain ⟨-, t, hcs, -⟩ := hb
    exact ⟨t, hcs⟩
  obtain ⟨hbefore, c, hc, hrest, hspans⟩ := ha.reads h
  obtain ⟨-, c', hc', hrest', hspans'⟩ := hb.reads rfl
  obtain rfl : c = c' := hc.unique hc'
  rw [hspans] at hspans'
  cases a
  cases b
  simp_all

theorem exists_standsIn_of_reads {u t : List Char}
    (h : literalBinding.Reads ⟨u.getLast?, t, 0, []⟩ c) :
    ∃ a : Assignment, a.before = u ∧ a.StandsIn (u ++ t) := by
  obtain ⟨hbefore, name, literal, r, hbegins⟩ := exists_assignment_of_reads h
  exact ⟨⟨u, name, literal, r⟩, rfl, hbefore, t, rfl, hbegins⟩

end Assignment

open Assignment

/-- The assignments of a text from a place on that count, from left to right: none of them begins
inside another, and each other assignment that stands there begins inside one of them. -/
structure IsLeftmostFrom (n : Nat) (cs : List Char) (as : List Assignment) : Prop where
  stands : ∀ a ∈ as, a.StandsIn cs
  from_le : ∀ a ∈ as, n ≤ a.before.length
  sorted : as.Pairwise fun a b => a.before.length < b.before.length
  apart : ∀ a ∈ as, ∀ b ∈ as, ¬ b.BeginsInside cs a
  covers : ∀ b : Assignment, b.StandsIn cs → n ≤ b.before.length →
    b ∈ as ∨ ∃ a ∈ as, b.BeginsInside cs a

namespace IsLeftmostFrom

variable {n : Nat} {as as' : List Assignment}

/-- An assignment that counts in one list does so in another, if the earlier ones there are in the
first. -/
theorem mem_of_earlier (h : IsLeftmostFrom n cs as) (h' : IsLeftmostFrom n cs as') {a : Assignment}
    (hearlier : ∀ b ∈ as', b.before.length < a.before.length → b ∈ as) (ha : a ∈ as) : a ∈ as' := by
  apply (h'.covers a (h.stands a ha) (h.from_le a ha)).resolve_right
  rintro ⟨b, hb, hinside⟩
  exact h.apart b (hearlier b hb hinside.1) a ha hinside

theorem mem_iff (h : IsLeftmostFrom n cs as) (h' : IsLeftmostFrom n cs as') (a : Assignment) :
    a ∈ as ↔ a ∈ as' := by
  -- by induction on where the assignment begins
  generalize hk : a.before.length = k
  induction k using Nat.strongRecOn generalizing a with
  | ind k ih =>
      constructor
      · intro ha
        exact h.mem_of_earlier h' (fun b hb hlt => (ih _ (hk ▸ hlt) b rfl).mpr hb) ha
      · intro ha
        exact h'.mem_of_earlier h (fun b hb hlt => (ih _ (hk ▸ hlt) b rfl).mp hb) ha

theorem nodup (h : IsLeftmostFrom n cs as) : as.Nodup := by
  refine h.sorted.imp fun hlt heq => ?_
  rw [heq] at hlt
  exact Nat.lt_irrefl _ hlt

/-- **A text determines which of its assignments count.** -/
theorem unique (h : IsLeftmostFrom n cs as) (h' : IsLeftmostFrom n cs as') : as = as' := by
  have hperm : as.Perm as' := (List.perm_ext_iff_of_nodup h.nodup h'.nodup).mpr (h.mem_iff h')
  refine hperm.eq_of_pairwise ?_ h.sorted h'.sorted
  intro a b _ _ hab hba
  exact absurd (Nat.lt_trans hab hba) (Nat.lt_irrefl _)

variable {u t s : List Char}

/-- Where no assignment is read and the text ends, none counts. -/
theorem done (hfails : literalBinding.Fails ⟨u.getLast?, [], 0, []⟩) :
    IsLeftmostFrom u.length (u ++ []) [] := by
  refine ⟨by simp, by simp, .nil, by simp, fun b hb hle => ?_⟩
  have hlength : b.before.length = u.length := by
    obtain ⟨-, t, heq, -⟩ := hb
    have hsum := congrArg List.length heq
    simp only [List.length_append, List.length_nil] at hsum
    omega
  obtain ⟨-, c, hreads, -⟩ := hb.reads hlength
  exact absurd hfails hreads.not_fails

/-- Where no assignment is read, those from the next place on count. -/
theorem skip {x : Char} (hfails : literalBinding.Fails ⟨u.getLast?, x :: t, 0, []⟩)
    (h : IsLeftmostFrom (u ++ [x]).length (u ++ x :: t) as) :
    IsLeftmostFrom u.length (u ++ x :: t) as := by
  refine ⟨h.stands, fun a ha => ?_, h.sorted, h.apart, fun b hb hle => ?_⟩
  · have hle := h.from_le a ha
    simp only [List.length_append] at hle
    omega
  · refine h.covers b hb ?_
    have hne : b.before.length ≠ u.length := by
      intro heq
      obtain ⟨-, c, hreads, -⟩ := hb.reads heq
      exact hreads.not_fails hfails
    simp only [List.length_append, List.length_singleton]
    omega

/-- Where one is read, it counts, and so do those after it. -/
theorem cons {a : Assignment} (ha : a.StandsIn cs) (hend : u.length + a.rest.length = cs.length)
    (hlt : a.before.length < u.length) (h : IsLeftmostFrom u.length cs as) :
    IsLeftmostFrom a.before.length cs (a :: as) := by
  have hafter : ∀ b ∈ as, a.before.length < b.before.length ∧ ¬ b.BeginsInside cs a := by
    intro b hb
    have hle := h.from_le b hb
    refine ⟨by omega, fun hinside => ?_⟩
    have hin := hinside.2
    omega
  refine ⟨List.forall_mem_cons.mpr ⟨ha, h.stands⟩, List.forall_mem_cons.mpr ⟨Nat.le_refl _, ?_⟩,
    List.pairwise_cons.mpr ⟨fun b hb => (hafter b hb).1, h.sorted⟩, ?_, ?_⟩
  · exact fun b hb => Nat.le_of_lt (hafter b hb).1
  · intro b hb b' hb' hinside
    have hbefore := hinside.1
    rcases List.mem_cons.mp hb with hfirst | hb <;> rcases List.mem_cons.mp hb' with hfirst' | hb'
    · rw [hfirst, hfirst'] at hbefore
      exact Nat.lt_irrefl _ hbefore
    · rw [hfirst] at hinside
      exact (hafter b' hb').2 hinside
    · rw [hfirst'] at hbefore
      exact Nat.lt_asymm hbefore (hafter b hb).1
    · exact h.apart b hb b' hb' hinside
  · intro b hb hle
    by_cases hfar : u.length ≤ b.before.length
    · rcases h.covers b hb hfar with hmem | ⟨b', hb', hinside⟩
      · exact .inl (List.mem_cons_of_mem a hmem)
      · exact .inr ⟨b', List.mem_cons_of_mem a hb', hinside⟩
    · rcases Nat.lt_or_eq_of_le hle with hlater | hsame
      · exact .inr ⟨a, List.mem_cons_self, hlater, by omega⟩
      · exact .inl (ha.unique hb hsame ▸ List.mem_cons_self)

end IsLeftmostFrom

/-- A search finds the assignments that count. -/
theorem exists_isLeftmostFrom {before : Option Char} {t : List Char}
    {l : List (List (List Char) × List Char)} (h : literalBinding.Finds before t l) (u : List Char)
    (hbefore : before = u.getLast?) :
    ∃ as, IsLeftmostFrom u.length (u ++ t) as ∧
      as.map (fun a => ([a.name, a.literal], a.rest)) = l := by
  induction h generalizing u with
  | done hfails =>
      subst hbefore
      exact ⟨[], .done hfails, rfl⟩
  | @skip _ x r l hfails _ ih =>
      subst hbefore
      obtain ⟨as, has, hmap⟩ := ih (u ++ [x]) (List.getLast?_concat).symm
      rw [List.append_assoc, List.singleton_append] at has
      exact ⟨as, has.skip hfails, hmap⟩
  | @found before cs s k c l hreads hto hs _ ih =>
      subst hbefore
      obtain ⟨a, hu, ha⟩ := exists_standsIn_of_reads hreads
      obtain ⟨-, c', hreads', hrest, hspans⟩ := ha.reads (congrArg List.length hu)
      obtain rfl : c' = c := hreads'.unique hreads
      have hcs : cs = s ++ c'.rest := hto.1
      have hk : c'.spans.map Span.text = k := hto.2.2.trans (List.append_nil k)
      obtain ⟨as, has, hmap⟩ := ih (u ++ s) (by
        rw [List.getLast?_append, List.getLast?_eq_some_getLast hs, Option.some_or])
      rw [List.append_assoc, ← hcs] at has
      refine ⟨a :: as, ?_, ?_⟩
      · rw [← hu] at has ha ⊢
        refine has.cons ha ?_ ?_
        · rw [← hrest, hcs]
          simp only [List.length_append]
          omega
        · have hpos := List.length_pos_iff.mpr hs
          rw [List.length_append]
          omega
      · rw [List.map_cons, hmap, ← hrest, ← hk, hspans]
        rfl

/-! ## The recorded values -/

/-- The name with the value that it is assigned. -/
def Assignment.entry (a : Assignment) : String × Value :=
  (String.ofList a.name, Value.ofLiteral a.literal)

/-- The values that the names are assigned, in the order of the assignments. -/
def assignedValues (as : List Assignment) : NameMap (List Value) :=
  (NameMap.group (·.1) (as.map entry)).map fun _ vs => vs.map (·.2)

theorem find?_assignedValues (as : List Assignment) (x : String) :
    (assignedValues as).find? x =
      if ((as.map entry).filter (·.1 = x)).isEmpty then none
      else some (((as.map entry).filter (·.1 = x)).map (·.2)) := by
  rw [assignedValues, NameMap.find?_map, NameMap.find?_group]
  split <;> rfl

/-- Whether the right-hand side ends where a text follows: after white space comes a semicolon, a
comma, a closing parenthesis or the end of the text. -/
def endsRightSide (r : List Char) : Bool :=
  (r.dropWhile isBlank).head?.all fun c => c == ';' || c == ',' || c == ')'

/-- What ends a right-hand side belongs to no name and to no number. -/
theorem isGlued_of_endsRightSide (h : endsRightSide r = true) : isGlued r = false := by
  cases r with
  | nil => rfl
  | cons x r =>
      show (isAlphanumeric x || x == '_' || x == '.') = false
      cases hx : isBlank x with
      | true =>
          exact forall_blank (P := fun x => (isAlphanumeric x || x == '_' || x == '.') = false)
            (by decide +kernel) hx
      | false =>
          rw [endsRightSide, List.dropWhile_cons_of_neg (by rw [hx]; exact Bool.false_ne_true),
            List.head?_cons, Option.all_some] at h
          simp only [Bool.or_eq_true, beq_iff_eq] at h
          rcases h with (rfl | rfl) | rfl <;> decide +kernel

theorem filterMap_bindingOf {fs : List Found} {as : List Assignment}
    (h : as.map (fun a => ([a.name, a.literal], a.rest)) = fs.map fun f => (f.captures, f.rest)) :
    fs.filterMap bindingOf = (as.filter fun a => !isGlued a.rest).map entry := by
  induction fs generalizing as with
  | nil =>
      rw [List.map_eq_nil_iff.mp h]
      rfl
  | cons f fs ih =>
      obtain ⟨a, as, rfl, hfirst, hmap⟩ := List.map_eq_cons_iff.mp h
      obtain ⟨hcaptures, hrest⟩ := Prod.mk.inj hfirst
      have hbinding : bindingOf f = if isGlued a.rest then none else some a.entry := by
        rw [bindingOf, ← hcaptures, ← hrest]
        rfl
      rw [List.filterMap_cons, hbinding, List.filter_cons, ih hmap]
      cases isGlued a.rest <;> rfl

/-- Without some of the assignments, the values are the same only if none is left out. -/
theorem assignedValues_filter_eq_iff {as : List Assignment} {p : Assignment → Bool} :
    assignedValues (as.filter p) = assignedValues as ↔ ∀ a ∈ as, p a = true := by
  constructor
  · intro h a ha
    let sameName : Assignment → Bool := fun b => b.entry.1 = a.entry.1
    have hfilter : ∀ bs : List Assignment,
        (bs.map entry).filter (·.1 = a.entry.1) = (bs.filter sameName).map entry :=
      fun bs => List.filter_map
    have hmem : a ∈ as.filter sameName := List.mem_filter.mpr ⟨ha, decide_eq_true rfl⟩
    have hne : ((as.filter sameName).map entry).isEmpty = false :=
      List.isEmpty_eq_false_iff_exists_mem.mpr ⟨a.entry, List.mem_map_of_mem hmem⟩
    have hcomm : (as.filter p).filter sameName = (as.filter sameName).filter p := by
      rw [List.filter_filter, List.filter_filter]
      exact List.filter_congr fun b _ => Bool.and_comm _ _
    -- the two lists of values at the name are equally long
    have hfind := congrArg (NameMap.find? · a.entry.1) h
    simp only [find?_assignedValues, hfilter, hne] at hfind
    split at hfind
    · cases hfind
    · have hlength := congrArg List.length (Option.some.inj hfind)
      rw [List.length_map, List.length_map, List.length_map, List.length_map, hcomm] at hlength
      exact List.length_filter_eq_length_iff.mp hlength a hmem
  · intro h
    rw [List.filter_eq_self.mpr h]

theorem literalBinding_consumes : literalBinding.Consumes := by
  apply consumes_of_spells
  rintro _ _ ⟨_, _, _, _, rfl, -, ⟨_, _, _, _, rfl, -, ⟨_, _, _, _, rfl, -, -, hequals⟩, -⟩, -⟩
  rw [(spells_char.mp hequals).1]
  simp

/-- **The recorded values are those of the assignments that count and whose literals are not glued
to what follows.** They are the values of whole right-hand sides exactly if each of these literals
ends its right-hand side. -/
theorem literalBindings_of_assignments (cs : List Char) :
    ∃ as, (∀ as', IsLeftmostFrom 0 cs as' ↔ as' = as) ∧
      literalBindings cs = assignedValues (as.filter fun a => !isGlued a.rest) ∧
      (literalBindings cs = assignedValues (as.filter fun a => endsRightSide a.rest) ↔
        ∀ a ∈ as, isGlued a.rest = false → endsRightSide a.rest = true) := by
  obtain ⟨l, hl⟩ := exists_finds literalBinding_consumes none cs
  obtain ⟨as, has, hmap⟩ := exists_isLeftmostFrom hl [] rfl
  have hvalues : literalBindings cs = assignedValues (as.filter fun a => !isGlued a.rest) := by
    rw [literalBindings, filterMap_bindingOf (hmap.trans hl.findAll.symm), assignedValues]
  have hfilter : (as.filter fun a => endsRightSide a.rest) =
      (as.filter fun a => !isGlued a.rest).filter fun a => endsRightSide a.rest := by
    rw [List.filter_filter]
    refine List.filter_congr fun a _ => ?_
    cases hends : endsRightSide a.rest with
    | false => rfl
    | true => rw [isGlued_of_endsRightSide hends]; rfl
  refine ⟨as, fun as' => ⟨fun h => h.unique has, fun h => h ▸ has⟩, hvalues, ?_⟩
  rw [hvalues, hfilter, eq_comm, assignedValues_filter_eq_iff]
  constructor
  · intro h a ha hglued
    exact h a (List.mem_filter.mpr ⟨ha, by rw [hglued]; rfl⟩)
  · intro h a ha
    obtain ⟨ha, hglued⟩ := List.mem_filter.mp ha
    exact h a ha (by simpa using hglued)

/-- The text of a subtraction. -/
def subtraction : List Char := "x = 10 - 5;".toList

/-- The first operand of a subtraction is recorded, though it ends no right-hand side. -/
theorem difference_recorded :
    (literalBindings subtraction).find? "x" = some [.int 10] ∧
      ∀ a : Assignment, a.StandsIn subtraction → endsRightSide a.rest = false := by
  refine ⟨by decide +kernel, fun a ha => ?_⟩
  obtain ⟨t, hcs⟩ : ∃ t, subtraction = a.before ++ t := by
    obtain ⟨-, t, hcs, -⟩ := ha
    exact ⟨t, hcs⟩
  have hplaces : ∀ n ∈ List.range 12, ∀ m ∈ literalBinding.matchAt (subtraction.take n).getLast?
      (subtraction.drop n), endsRightSide m.2.2 = false := by decide +kernel
  have hn : a.before.length < 12 := by
    have hlength := congrArg List.length hcs
    have heleven : subtraction.length = 11 := by decide
    rw [heleven, List.length_append] at hlength
    omega
  rw [hcs] at ha
  obtain ⟨-, c, hreads, hrest, -⟩ := ha.reads rfl
  have hplace := hplaces a.before.length (List.mem_range.mpr hn)
  rw [hcs, List.take_left, List.drop_left, matchAt_of_reads hreads] at hplace
  rw [← hrest]
  exact hplace _ rfl

end Testwright.Source
