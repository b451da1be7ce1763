import Testwright.Analysis
import Testwright.Proofs.Source.Conditions
import Testwright.Proofs.Text.Collecting

/-!
# The conditions of a body

Where an `if` statement begins depends on the character before it and on the text up to its opening
parenthesis only (`matchAt_ifSite_eq_some_iff`), and its condition on the text up to the closing one.
Main statement: the conditions of two bodies, one below the other, are those of the first and then
those of the second, further down by the rows of the first; the lines of the conditions ascend, and
every `if` statement is counted as recognised or as dropped (`predicates_append_row`). A line is a
word, so in a body with more rows than a word can count the lines start again from zero
(`twiceBody_lines_descend`).
-/

namespace Testwright

/-- A predicate some lines further down. -/
def Predicate.below (n : LineNumber) (p : Predicate) : Predicate := { p with line := p.line + n }

namespace Source

open Text Text.Pattern

variable {before before' : Option Char} {cs g r s : List Char} {line : LineNumber}
  {l l₁ l₂ : List Found} {m : List Char × List (List Char) × List Char}

/-! ## Where a statement begins -/

/-- The text from the word `if` up to the opening parenthesis. -/
def siteText (g : List Char) : List Char := 'i' :: 'f' :: (g ++ ['('])

/-- An `if` statement begins: the word stands alone, and after white space follows a parenthesis. -/
structure BeginsSite (before : Option Char) (cs g r : List Char) : Prop where
  alone : before.any isWord = false
  text : cs = siteText g ++ r
  blank : ∀ x ∈ g, isBlank x = true

theorem isWord_firstOfIf : isWord 'i' = true := by decide

theorem only_ifSite {c : Cursor} (h : BeginsSite c.before c.rest g r) :
    ifSite.Only c (c.past (siteText g) r) := by
  have hrest : c.rest = "if".toList ++ (g ++ '(' :: r) := by
    rw [h.text]
    simp [siteText]
  have hfirst : c.rest.head?.any isWord = true := by rw [hrest]; exact isWord_firstOfIf
  have hedge : Pattern.edge.Only c c := only_edge (by
    rw [Cursor.atEdge, h.alone, hfirst]
    rfl)
  have hword : (Pattern.word "if").Only c (c.past "if".toList (g ++ '(' :: r)) := only_word hrest
  have hblank : Pattern.blank.Only (c.past "if".toList (g ++ '(' :: r))
      ((c.past "if".toList (g ++ '(' :: r)).past g ('(' :: r)) :=
    only_all rfl h.blank (head?_cons (by decide))
  rw [Cursor.past_past] at hblank
  have hparen : (Pattern.char '(').Only (c.past ("if".toList ++ g) ('(' :: r))
      ((c.past ("if".toList ++ g) ('(' :: r)).past ['('] r) := only_one (x := '(') rfl rfl
  rw [Cursor.past_past] at hparen
  have hall := ((hedge.seq hword).seq hblank).seq hparen
  have htext : "if".toList ++ g ++ ['('] = siteText g := by simp [siteText]
  rwa [htext] at hall

/-- Wherever the pattern has a match, a statement begins. -/
theorem exists_beginsSite {c : Cursor} (h : ¬ ifSite.Fails c) :
    ∃ g r, BeginsSite c.before c.rest g r := by
  cases hedge : c.atEdge with
  | false => exact absurd ((((fails_edge hedge).seq _).seq _).seq _) h
  | true =>
      have hstart : Pattern.edge.Only c c := only_edge hedge
      rcases fails_or_reads_word "if" c with hword | ⟨c₁, hword, hrest⟩
      · exact absurd (((hstart.seq_fails hword).seq _).seq _) h
      obtain ⟨g, c₂, hblank, hrest₁, hg⟩ := reads_all isBlank c₁
      rcases fails_or_reads_char '(' c₂ with hparen | ⟨c₃, -, hrest₂⟩
      · exact absurd (((hstart.seq hword).seq hblank).seq_fails hparen) h
      have htext : c.rest = siteText g ++ c₃.rest := by
        rw [hrest, hrest₁, hrest₂]
        simp [siteText]
      refine ⟨g, c₃.rest, ?_, htext, hg⟩
      -- the word begins with a word character, so there is none before it
      have hfirst : c.rest.head?.any isWord = true := by rw [htext]; exact isWord_firstOfIf
      rw [Cursor.atEdge, hfirst] at hedge
      simpa using hedge

/-- What is read depends on the character before the statement and on the text up to its opening
parenthesis. -/
theorem matchAt_ifSite_eq_some_iff :
    ifSite.matchAt before cs = some m ↔
      ∃ g r, BeginsSite before cs g r ∧ m = (siteText g, [], r) := by
  have hread : ∀ {g r}, BeginsSite before cs g r →
      ifSite.matchAt before cs = some (siteText g, [], r) := by
    intro g r h
    rw [matchAt_of_reads (only_ifSite (c := ⟨before, cs, 0, []⟩) h).reads]
    have htake : cs.take (0 + (siteText g).length) = siteText g := by
      rw [Nat.zero_add, h.text]
      exact List.take_left
    exact congrArg (fun s => some (s, _, r)) htake
  constructor
  · intro h
    have hmatch : ¬ ifSite.Fails ⟨before, cs, 0, []⟩ := by
      intro hfails
      rw [matchAt_of_fails hfails] at h
      cases h
    obtain ⟨g, r, hsite⟩ := exists_beginsSite hmatch
    rw [hread hsite] at h
    exact ⟨g, r, hsite, (Option.some.inj h).symm⟩
  · rintro ⟨g, r, hsite, rfl⟩
    exact hread hsite

theorem consumes_ifSite : ifSite.Consumes := by
  intro before cs m h
  obtain ⟨g, r, -, rfl⟩ := matchAt_ifSite_eq_some_iff.mp h
  exact List.cons_ne_nil _ _

theorem matchAt_ifSite_congr (h : before.any isWord = before'.any isWord) :
    ifSite.matchAt before cs = ifSite.matchAt before' cs := by
  have hiff : ∀ m, ifSite.matchAt before cs = some m ↔ ifSite.matchAt before' cs = some m := by
    intro m
    rw [matchAt_ifSite_eq_some_iff, matchAt_ifSite_eq_some_iff]
    constructor
    · rintro ⟨g, r, hsite, rfl⟩
      exact ⟨g, r, ⟨h ▸ hsite.alone, hsite.text, hsite.blank⟩, rfl⟩
    · rintro ⟨g, r, hsite, rfl⟩
      exact ⟨g, r, ⟨h ▸ hsite.alone, hsite.text, hsite.blank⟩, rfl⟩
  exact Option.ext hiff

/-- Only whether a word goes on makes a difference for the statements of a text. -/
theorem collects_ifSite_congr (h : before.any isWord = before'.any isWord)
    (hl : ifSite.Collects before cs l) : ifSite.Collects before' cs l := by
  cases hl with
  | done hnone => exact .done (matchAt_ifSite_congr h ▸ hnone)
  | skip hnone hrest => exact .skip (matchAt_ifSite_congr h ▸ hnone) hrest
  | found hm hs hrest => exact .found (matchAt_ifSite_congr h ▸ hm) hs hrest

/-- The statements of a body. -/
theorem collects_ifSites (body : String) : ifSite.Collects none body.toList (ifSites body) := by
  obtain ⟨l, hl⟩ := exists_collects consumes_ifSite none body.toList
  rw [ifSites, hl.findAll]
  exact hl

/-! ## Conditions one after another -/

theorem lineFeeds_append (a b : List Char) :
    lineFeeds (a ++ b) = lineFeeds a + lineFeeds b := by
  rw [lineFeeds, List.count_append, UInt32.ofNat_add]
  rfl

/-- The condition of a statement, with the number of its line; none when it is not recognised. -/
def predicateAt? (here : LineNumber) (site : Found) : Option Predicate :=
  ((closeAfter '(' ')' site.rest).bind fun c => readCondition c.1).map fun c =>
    ⟨here, c.var, c.relation, c.value⟩

theorem predicatesAt_cons (line : LineNumber) (site : Found) (l : List Found) :
    predicatesAt line (site :: l) =
      (predicateAt? (line + lineFeeds site.skipped) site).toList ++
        predicatesAt (line + lineFeeds site.skipped + lineFeeds site.text) l := by
  rw [predicatesAt, predicateAt?]
  cases (closeAfter '(' ')' site.rest).bind fun c => readCondition c.1 <;> rfl

theorem predicateAt?_below (here n : LineNumber) (site : Found) :
    predicateAt? (here + n) site = (predicateAt? here site).map (Predicate.below n) := by
  rw [predicateAt?, predicateAt?, Option.map_map]
  rfl

theorem predicatesAt_below (line n : LineNumber) (l : List Found) :
    predicatesAt (line + n) l = (predicatesAt line l).map (Predicate.below n) := by
  induction l generalizing line with
  | nil => rfl
  | cons site l ih =>
      have hhere : line + n + lineFeeds site.skipped = line + lineFeeds site.skipped + n := by
        rw [UInt32.add_assoc, UInt32.add_comm n, ← UInt32.add_assoc]
      have hnext : line + n + lineFeeds site.skipped + lineFeeds site.text =
          line + lineFeeds site.skipped + lineFeeds site.text + n := by
        rw [hhere, UInt32.add_assoc, UInt32.add_comm n, ← UInt32.add_assoc]
      rw [predicatesAt_cons, predicatesAt_cons, hnext, ih, hhere, predicateAt?_below,
        List.map_append]
      cases predicateAt? (line + lineFeeds site.skipped) site <;> rfl

/-- What is passed over before the first statement counts for the lines. -/
theorem predicatesAt_passOver (line : LineNumber) (x : Char) (l : List Found) :
    predicatesAt line (passOver x l) = predicatesAt (line + lineFeeds [x]) l := by
  cases l with
  | nil => rfl
  | cons site l =>
      have hskipped : lineFeeds (x :: site.skipped) = lineFeeds [x] + lineFeeds site.skipped :=
        lineFeeds_append [x] site.skipped
      rw [passOver, predicatesAt_cons, predicatesAt_cons]
      dsimp only
      rw [hskipped, ← UInt32.add_assoc]
      rfl

theorem length_predicatesAt_le (line : LineNumber) (l : List Found) :
    (predicatesAt line l).length ≤ l.length := by
  induction l generalizing line with
  | nil => exact Nat.le_refl 0
  | cons site l ih =>
      have hrest := ih (line + lineFeeds site.skipped + lineFeeds site.text)
      have hfirst : (predicateAt? (line + lineFeeds site.skipped) site).toList.length ≤ 1 := by
        cases predicateAt? (line + lineFeeds site.skipped) site with
        | none => exact Nat.zero_le 1
        | some p => exact Nat.le_refl 1
      rw [predicatesAt_cons, List.length_append, List.length_cons]
      omega

/-! ## One body below another -/

/-- Every `if` statement of the body has its closing parenthesis in the body. -/
def SitesClosed (body : String) : Prop :=
  ∀ site ∈ ifSites body, (closeAfter '(' ')' site.rest).isSome = true

instance (body : String) : Decidable (SitesClosed body) := List.decidableBAll _ _

/-- The text ends in the word `if`, after which there is white space at most; `before` is the
character before the text. -/
def EndsInWordIf (before : Option Char) (cs : List Char) : Prop :=
  ∃ s g, cs = s ++ 'i' :: 'f' :: g ∧ (s.getLast?.or before).any isWord = false ∧
    ∀ x ∈ g, isBlank x = true

/-- The body ends in the word `if`, after which there is white space at most. -/
def EndsInIf (body : String) : Prop := EndsInWordIf none body.toList

theorem EndsInWordIf.append (h : EndsInWordIf (s.getLast?.or before) cs) :
    EndsInWordIf before (s ++ cs) := by
  obtain ⟨t, g, rfl, halone, hg⟩ := h
  refine ⟨s ++ t, g, (List.append_assoc _ _ _).symm, ?_, hg⟩
  rwa [List.getLast?_append, Option.or_assoc]

theorem not_endsInWordIf {x : Char} (h : cs.getLast? = some x) (hblank : isBlank x = false)
    (hx : x ≠ 'f') : ¬ EndsInWordIf before cs := by
  rintro ⟨s, g, rfl, -, hg⟩
  rw [List.getLast?_append, List.getLast?_cons_cons,
    List.getLast?_eq_some_getLast (List.cons_ne_nil _ _), Option.some_or,
    ← List.getLast?_eq_some_getLast] at h
  rcases List.mem_cons.mp (List.mem_of_getLast? h) with rfl | hmem
  · exact hx rfl
  · rw [hg x hmem] at hblank
    cases hblank

/-- A closing parenthesis is found in a longer text as well. -/
theorem closeAfter_append {inner rest : List Char} (t : List Char)
    (h : closeAfter '(' ')' cs = some (inner, rest)) :
    closeAfter '(' ')' (cs ++ t) = some (inner, rest ++ t) := by
  have hiff : ∀ {cs rest}, closeAfter '(' ')' cs = some (inner, rest) ↔
      cs = inner ++ ')' :: rest ∧ IsNested inner :=
    Delimiters.closeAfter_eq_some_iff (d := .parens)
  obtain ⟨rfl, hinner⟩ := hiff.mp h
  exact hiff.mpr ⟨by simp, hinner⟩

/-- No statement begins in a row and ends in the next one, unless the row ends in the word `if`. -/
theorem matchAt_ifSite_append {x : Char} (h : ifSite.matchAt before (x :: r) = none)
    (hseam : ¬ EndsInWordIf before (x :: r)) (t : List Char) :
    ifSite.matchAt before (x :: r ++ '\n' :: t) = none := by
  refine Option.eq_none_iff_forall_ne_some.mpr fun m hm => ?_
  obtain ⟨g, r', ⟨halone, htext, hg⟩, -⟩ := matchAt_ifSite_eq_some_iff.mp hm
  have hpieces : x :: r ++ '\n' :: t = 'i' :: 'f' :: g ++ '(' :: r' := by
    rw [htext]
    simp [siteText]
  rcases append_eq_append_cons_iff.mp hpieces with ⟨u, hword, hrest⟩ | ⟨u, hrow, -⟩
  · -- the row is a part of the word and the white space after it
    cases r with
    | nil =>
        cases u with
        | nil =>
            cases hrest
        | cons y u =>
            have hfeed : y = '\n' := (List.cons.inj hrest).1.symm
            have hsecond : y = 'f' := (List.cons.inj (List.cons.inj hword).2).1.symm
            rw [hfeed] at hsecond
            exact absurd hsecond (by decide)
    | cons y r =>
        obtain ⟨hfirst, hword⟩ := List.cons.inj hword
        obtain ⟨hsecond, rfl⟩ := List.cons.inj hword
        rw [← hfirst, ← hsecond] at hseam
        exact hseam ⟨[], r, rfl, halone, fun z hz => hg z (List.mem_append_left u hz)⟩
  · -- the statement begins and ends in the row
    have hsite : BeginsSite before (x :: r) g u := ⟨halone, by rw [hrow]; simp [siteText], hg⟩
    have hsome := matchAt_ifSite_eq_some_iff.mpr ⟨g, u, hsite, rfl⟩
    rw [h] at hsome
    cases hsome

/-- Every statement of a list has its closing parenthesis in the text after it. -/
def AllClosed (l : List Found) : Prop :=
  ∀ site ∈ l, (closeAfter '(' ')' site.rest).isSome = true

theorem AllClosed.of_passOver {x : Char} (h : AllClosed (passOver x l)) : AllClosed l := by
  cases l with
  | nil => exact h
  | cons first l => exact List.forall_mem_cons.mpr (List.forall_mem_cons.mp h)

/-- The condition of a statement that is closed does not depend on what follows. -/
theorem predicateAt?_append {site : Found} {t : List Char} (here : LineNumber)
    (h : (closeAfter '(' ')' site.rest).isSome = true) :
    predicateAt? here { site with rest := site.rest ++ t } = predicateAt? here site := by
  obtain ⟨⟨inner, rest⟩, hclose⟩ := Option.isSome_iff_exists.mp h
  rw [predicateAt?, predicateAt?]
  dsimp only
  rw [hclose, closeAfter_append t hclose]
  rfl

/-- If what follows the beginning of a statement ends in the word `if`, then so does the text. -/
theorem EndsInWordIf.of_site (hsite : BeginsSite before cs g r)
    (h : EndsInWordIf (siteText g).getLast? r) : EndsInWordIf before cs := by
  have hne : siteText g ≠ [] := List.cons_ne_nil _ _
  rw [hsite.text]
  refine EndsInWordIf.append ?_
  rw [List.getLast?_eq_some_getLast hne] at h
  rwa [List.getLast?_eq_some_getLast hne, Option.some_or]

/-- The statements of a text with a further row, and their conditions. -/
theorem exists_collects_append {b : List Char} (h₁ : ifSite.Collects before cs l₁)
    (hclosed : AllClosed l₁) (hseam : ¬ EndsInWordIf before cs) (h₂ : ifSite.Collects none b l₂) :
    ∃ l, ifSite.Collects before (cs ++ '\n' :: b) l ∧ l.length = l₁.length + l₂.length ∧
      ∀ line, predicatesAt line l =
        predicatesAt line l₁ ++ predicatesAt (line + lineFeeds cs + 1) l₂ := by
  induction h₁ with
  | @done before _ =>
      have hfeed : ifSite.matchAt before ('\n' :: b) = none := by
        refine Option.eq_none_iff_forall_ne_some.mpr fun m hm => ?_
        obtain ⟨g, r, ⟨-, htext, -⟩, -⟩ := matchAt_ifSite_eq_some_iff.mp hm
        cases htext
      have hrow : ifSite.Collects (some '\n') b l₂ := collects_ifSite_congr (by decide) h₂
      refine ⟨passOver '\n' l₂, .skip hfeed hrow, ?_, fun line => ?_⟩
      · rw [length_passOver, List.length_nil, Nat.zero_add]
      · rw [predicatesAt_passOver]
        have hnone : line + lineFeeds [] = line := UInt32.add_zero line
        rw [hnone]
        rfl
  | @skip before x r l h _ ih =>
      have hlater : ¬ EndsInWordIf (some x) r := fun hr => hseam (hr.append (s := [x]))
      obtain ⟨l', hl', hlength, hpredicates⟩ := ih hclosed.of_passOver hlater
      refine ⟨passOver x l', .skip (matchAt_ifSite_append h hseam b) hl', ?_, fun line => ?_⟩
      · rw [length_passOver, length_passOver, hlength]
      · rw [predicatesAt_passOver, predicatesAt_passOver, hpredicates]
        have hfeeds : lineFeeds (x :: r) = lineFeeds [x] + lineFeeds r := lineFeeds_append [x] r
        rw [hfeeds, ← UInt32.add_assoc line]
  | @found before cs s r k l h hs _ ih =>
      obtain ⟨g, rest, hsite, heq⟩ := matchAt_ifSite_eq_some_iff.mp h
      cases heq
      obtain ⟨hfirst, hrest⟩ := List.forall_mem_cons.mp hclosed
      obtain ⟨l', hl', hlength, hpredicates⟩ := ih hrest fun hr => hseam (hr.of_site hsite)
      have hlonger : BeginsSite before (cs ++ '\n' :: b) g (r ++ '\n' :: b) :=
        ⟨hsite.alone, by rw [hsite.text, List.append_assoc], hsite.blank⟩
      refine ⟨_, .found (matchAt_ifSite_eq_some_iff.mpr ⟨g, _, hlonger, rfl⟩) hs hl', ?_,
        fun line => ?_⟩
      · rw [List.length_cons, List.length_cons, hlength]
        omega
      · have hsame := fun here => predicateAt?_append (t := '\n' :: b) here hfirst
        have hfeeds : lineFeeds cs = lineFeeds (siteText g) + lineFeeds r := by
          rw [hsite.text, lineFeeds_append]
        have hnone : ∀ line : LineNumber, line + lineFeeds [] = line := UInt32.add_zero
        dsimp only at hsame
        rw [predicatesAt_cons, predicatesAt_cons, hsame, hpredicates, hfeeds, hnone,
          List.append_assoc, ← UInt32.add_assoc line]

/-! ## Lines -/

/-- The lines of the conditions, as numbers without a bound, ascend from the first line on. -/
theorem exists_lines (n : Nat) (l : List Found) :
    ∃ ns : List Nat, (predicatesAt (UInt32.ofNat n) l).map Predicate.line = ns.map UInt32.ofNat ∧
      ns.Pairwise (· ≤ ·) ∧ ∀ k ∈ ns, n ≤ k ∧ k ≤ n + (l.flatMap Found.passed).count '\n' := by
  induction l generalizing n with
  | nil => exact ⟨[], rfl, .nil, fun _ hk => absurd hk List.not_mem_nil⟩
  | cons site l ih =>
      obtain ⟨ns, hlines, hns, hbounds⟩ := ih (n + site.skipped.count '\n' + site.text.count '\n')
      have hhere : UInt32.ofNat n + lineFeeds site.skipped =
          UInt32.ofNat (n + site.skipped.count '\n') := (UInt32.ofNat_add _ _).symm
      have hnext : UInt32.ofNat (n + site.skipped.count '\n') + lineFeeds site.text =
          UInt32.ofNat (n + site.skipped.count '\n' + site.text.count '\n') :=
        (UInt32.ofNat_add _ _).symm
      have hcount : ((site :: l).flatMap Found.passed).count '\n' =
          site.skipped.count '\n' + site.text.count '\n' +
            (l.flatMap Found.passed).count '\n' := by
        rw [List.flatMap_cons, List.count_append, Found.passed, List.count_append]
      have hlater : ∀ k ∈ ns, n + site.skipped.count '\n' ≤ k ∧
          k ≤ n + ((site :: l).flatMap Found.passed).count '\n' := by
        intro k hk
        have hk' := hbounds k hk
        rw [hcount]
        omega
      rw [predicatesAt_cons, hhere, hnext]
      cases hfirst : predicateAt? (UInt32.ofNat (n + site.skipped.count '\n')) site with
      | none =>
          refine ⟨ns, hlines, hns, fun k hk => ?_⟩
          have hk' := hlater k hk
          omega
      | some p =>
          have hline : p.line = UInt32.ofNat (n + site.skipped.count '\n') := by
            obtain ⟨c, -, rfl⟩ := Option.map_eq_some_iff.mp hfirst
            rfl
          refine ⟨(n + site.skipped.count '\n') :: ns, ?_, ?_, ?_⟩
          · rw [Option.toList_some, List.singleton_append, List.map_cons, List.map_cons, hlines,
              hline]
          · exact List.pairwise_cons.mpr ⟨fun k hk => (hlater k hk).1, hns⟩
          · refine List.forall_mem_cons.mpr ⟨?_, fun k hk => ?_⟩
            · omega
            · have hk' := hlater k hk
              omega

/-- The lines of the conditions of a body are numbers of its lines, in their order. A number of a
line is a word; the numbers it stands for have no bound. -/
theorem exists_lines_predicates (body : String) :
    ∃ ns : List Nat, (predicates body).map Predicate.line = ns.map UInt32.ofNat ∧
      ns.Pairwise (· ≤ ·) ∧ ∀ n ∈ ns, 1 ≤ n ∧ n ≤ body.toList.count '\n' + 1 := by
  obtain ⟨ns, hlines, hns, hbounds⟩ := exists_lines 1 (ifSites body)
  refine ⟨ns, hlines, hns, fun n hn => ?_⟩
  have hcount := (collects_ifSites body).prefix_passed.sublist.count_le '\n'
  have hn' := hbounds n hn
  omega

theorem map_line_toNat (ps : List Predicate) :
    ps.map (fun p => p.line.toNat) = (ps.map Predicate.line).map UInt32.toNat := by
  rw [List.map_map]
  rfl

/-- Words that stand for numbers they can hold are as large as these. -/
theorem lines_of_numbers {n : Nat} {ps : List Predicate} {ns : List Nat} (hn : n < UInt32.size)
    (hlines : ps.map Predicate.line = ns.map UInt32.ofNat) (hns : ns.Pairwise (· ≤ ·))
    (hbounds : ∀ k ∈ ns, 1 ≤ k ∧ k ≤ n) :
    (ps.map fun p => p.line.toNat).Pairwise (· ≤ ·) ∧
      ∀ p ∈ ps, 1 ≤ p.line.toNat ∧ p.line.toNat ≤ n := by
  have hnumbers : ps.map (fun p => p.line.toNat) = ns := by
    rw [map_line_toNat, hlines, List.map_map]
    refine (List.map_congr_left fun k hk => ?_).trans (List.map_id ns)
    exact UInt32.toNat_ofNat_of_lt' (Nat.lt_of_le_of_lt (hbounds k hk).2 hn)
  refine ⟨hnumbers ▸ hns, fun p hp => hbounds _ ?_⟩
  rw [← hnumbers]
  exact List.mem_map_of_mem hp

/-- Every statement counts as recognised or as dropped. -/
theorem branches_add_dropped (s : Solver) (method body : String) :
    (analyze s method body).branches + (analyze s method body).dropped = countSites body :=
  Nat.add_sub_cancel' (length_predicatesAt_le 1 (ifSites body))

/-! ## Main statement -/

/-- The conditions of a body below another one follow the conditions of that one, further down by its
rows. -/
theorem predicates_append {b₁ b₂ : String} (hclosed : SitesClosed b₁) (hseam : ¬ EndsInIf b₁) :
    predicates (b₁ ++ "\n" ++ b₂) =
        predicates b₁ ++ (predicates b₂).map (Predicate.below (lineFeeds b₁.toList + 1)) ∧
      countSites (b₁ ++ "\n" ++ b₂) = countSites b₁ + countSites b₂ := by
  obtain ⟨l, hl, hlength, hpredicates⟩ :=
    exists_collects_append (collects_ifSites b₁) hclosed hseam (collects_ifSites b₂)
  have htext : (b₁ ++ "\n" ++ b₂).toList = b₁.toList ++ '\n' :: b₂.toList := by simp
  have hsites : ifSites (b₁ ++ "\n" ++ b₂) = l := by rw [ifSites, htext, hl.findAll]
  refine ⟨?_, ?_⟩
  · rw [predicates, hsites, hpredicates, UInt32.add_assoc, predicatesAt_below]
    rfl
  · rw [countSites, hsites, hlength]
    rfl

/-- When every `if` statement of a body has its closing parenthesis in the body and the body does not
end in the word `if`, then a body below it adds its own conditions, further down by the rows of the
first body, and its own statements. So the lines of conditions never descend and are lines of the
body, as long as a word can hold the number of its lines, and every statement counts as recognised or
as dropped. -/
theorem predicates_append_row :
    (∀ b₁ b₂ : String, SitesClosed b₁ → ¬ EndsInIf b₁ →
      predicates (b₁ ++ "\n" ++ b₂) =
          predicates b₁ ++ (predicates b₂).map (Predicate.below (lineFeeds b₁.toList + 1)) ∧
        countSites (b₁ ++ "\n" ++ b₂) = countSites b₁ + countSites b₂) ∧
    ∀ body : String,
      (∃ ns : List Nat, (predicates body).map Predicate.line = ns.map UInt32.ofNat ∧
        ns.Pairwise (· ≤ ·) ∧ ∀ n ∈ ns, 1 ≤ n ∧ n ≤ body.toList.count '\n' + 1) ∧
      (body.toList.count '\n' + 1 < UInt32.size →
        ((predicates body).map fun p => p.line.toNat).Pairwise (· ≤ ·) ∧
          ∀ p ∈ predicates body, 1 ≤ p.line.toNat ∧
            p.line.toNat ≤ body.toList.count '\n' + 1) ∧
      ∀ (s : Solver) (method : String),
        (analyze s method body).branches + (analyze s method body).dropped = countSites body := by
  refine ⟨fun b₁ b₂ => predicates_append, fun body => ?_⟩
  obtain ⟨ns, hlines, hns, hbounds⟩ := exists_lines_predicates body
  exact ⟨⟨ns, hlines, hns, hbounds⟩, fun h => lines_of_numbers h hlines hns hbounds,
    fun s method => branches_add_dropped s method body⟩

/-- The second body keeps its own first line, and a condition that spans rows stands on its first. -/
theorem predicates_of_two_rows :
    predicates ("if (a == 1) f();\nif ((b)\n < 2) g();" ++ "\n" ++ "if (c(d)) g(); if (!e) f();") =
        [⟨1, "a", .eq, .int 1⟩, ⟨2, "(b)", .lt, .int 2⟩, ⟨4, "e", .eq, .bool false⟩] ∧
      countSites ("if (a == 1) f();\nif ((b)\n < 2) g();" ++ "\n" ++ "if (c(d)) g(); if (!e) f();") =
        4 ∧
      ∀ p ∈ predicates "if (a == 1) f();\nif ((b)\n < 2) g();",
        1 ≤ p.line.toNat ∧ p.line.toNat ≤ 3 := by
  have hseam : ¬ EndsInIf "if (a == 1) f();\nif ((b)\n < 2) g();" :=
    not_endsInWordIf (x := ';') (by decide) (by decide) (by decide)
  obtain ⟨hpredicates, hcount⟩ := predicates_append_row.1 _
    "if (c(d)) g(); if (!e) f();" (by decide) hseam
  have hlines := (predicates_append_row.2 "if (a == 1) f();\nif ((b)\n < 2) g();").2.1 (by decide)
  refine ⟨?_, ?_, hlines.2⟩
  · rw [hpredicates]
    decide
  · rw [hcount]
    decide

/-! ## More rows than a word can count -/

theorem matchAt_ifSite_of_notMem (h : 'i' ∉ cs) : ifSite.matchAt before cs = none := by
  apply Option.eq_none_iff_forall_ne_some.mpr
  intro m hm
  obtain ⟨g, r, hsite, -⟩ := matchAt_ifSite_eq_some_iff.mp hm
  apply h
  rw [hsite.text]
  exact List.mem_cons_self

/-- A text without the first letter of the word has no statement. -/
theorem collects_ifSite_of_notMem (h : 'i' ∉ cs) : ifSite.Collects before cs [] := by
  induction cs generalizing before with
  | nil => exact .done (matchAt_ifSite_of_notMem h)
  | cons x r ih =>
      have hrest : 'i' ∉ r := fun hmem => h (List.mem_cons_of_mem x hmem)
      exact .skip (matchAt_ifSite_of_notMem h) (ih hrest)

/-- A text of empty rows. -/
def emptyRows (n : Nat) : String := String.ofList (List.replicate n '\n')

theorem toList_emptyRows (n : Nat) : (emptyRows n).toList = List.replicate n '\n' :=
  String.toList_ofList

/-- The conditions of a body below empty rows are further down by these. -/
theorem predicates_emptyRows_append (n : Nat) (b : String) :
    predicates (emptyRows n ++ "\n" ++ b) =
      (predicates b).map (Predicate.below (UInt32.ofNat (n + 1))) := by
  have hletter : 'i' ∉ (emptyRows n).toList := by
    intro hmem
    rw [toList_emptyRows] at hmem
    exact absurd (List.eq_of_mem_replicate hmem) (by decide)
  have hsites : ifSites (emptyRows n) = [] := (collects_ifSite_of_notMem hletter).findAll
  have hclosed : SitesClosed (emptyRows n) := by
    intro site hsite
    rw [hsites] at hsite
    cases hsite
  have hseam : ¬ EndsInIf (emptyRows n) := by
    intro ⟨s, g, htext, _⟩
    apply hletter
    rw [htext]
    exact List.mem_append_right s List.mem_cons_self
  have hfeeds : lineFeeds (emptyRows n).toList + 1 = UInt32.ofNat (n + 1) := by
    rw [lineFeeds, toList_emptyRows, List.count_replicate_self, UInt32.ofNat_add]
    rfl
  have hnone : predicates (emptyRows n) = [] := by
    rw [predicates, hsites]
    rfl
  rw [(predicates_append hclosed hseam).1, hfeeds, hnone]
  rfl

/-- A body, and the same one again below empty rows. -/
def twiceBody (b : String) (n : Nat) : String := b ++ "\n" ++ (emptyRows n ++ "\n" ++ b)

theorem count_twiceBody (b : String) (n : Nat) :
    (twiceBody b n).toList.count '\n' = 2 * b.toList.count '\n' + n + 2 := by
  have hfeed : "\n".toList.count '\n' = 1 := by decide
  simp only [twiceBody, String.toList_append, List.count_append, toList_emptyRows,
    List.count_replicate_self, hfeed]
  omega

/-- The conditions of the body are there twice. -/
theorem predicates_twiceBody {b : String} (hclosed : SitesClosed b) (hseam : ¬ EndsInIf b)
    (n : Nat) :
    predicates (twiceBody b n) =
      predicates b ++
        (predicates b).map (Predicate.below (UInt32.ofNat (b.toList.count '\n' + n + 2))) := by
  have hrows : UInt32.ofNat (n + 1) + (lineFeeds b.toList + 1) =
      UInt32.ofNat (b.toList.count '\n' + n + 2) := by
    have hsum : b.toList.count '\n' + n + 2 = n + 1 + (b.toList.count '\n' + 1) := by omega
    rw [hsum, UInt32.ofNat_add (n + 1), UInt32.ofNat_add (b.toList.count '\n')]
    rfl
  have hbelow : Predicate.below (lineFeeds b.toList + 1) ∘ Predicate.below (UInt32.ofNat (n + 1)) =
      Predicate.below (UInt32.ofNat (b.toList.count '\n' + n + 2)) := by
    funext p
    rw [← hrows, Function.comp_apply, Predicate.below, Predicate.below, Predicate.below,
      UInt32.add_assoc]
  rw [twiceBody, (predicates_append hclosed hseam).1, predicates_emptyRows_append, List.map_map,
    hbelow]

/-- In a body with one row more than a word can count, the condition on the last row is on line 0.
That is less than the line of the first condition, and no line of the body. -/
theorem twiceBody_lines_descend :
    (twiceBody "if (x > 3) f();" (UInt32.size - 3)).toList.count '\n' + 1 = UInt32.size ∧
      (predicates (twiceBody "if (x > 3) f();" (UInt32.size - 3))).map Predicate.line = [1, 0] ∧
      ¬ ((predicates (twiceBody "if (x > 3) f();" (UInt32.size - 3))).map
        fun p => p.line.toNat).Pairwise (· ≤ ·) ∧
      ¬ ∀ p ∈ predicates (twiceBody "if (x > 3) f();" (UInt32.size - 3)), 1 ≤ p.line.toNat := by
  have hclosed : SitesClosed "if (x > 3) f();" := by decide
  have hseam : ¬ EndsInIf "if (x > 3) f();" :=
    not_endsInWordIf (x := ';') (by decide) (by decide) (by decide)
  have hstatement : predicates "if (x > 3) f();" = [⟨1, "x", .gt, .int 3⟩] := by decide
  have hrows : "if (x > 3) f();".toList.count '\n' = 0 := by decide
  have hcount := count_twiceBody "if (x > 3) f();" (UInt32.size - 3)
  have hpredicates := predicates_twiceBody hclosed hseam (UInt32.size - 3)
  rw [hrows] at hcount hpredicates
  generalize twiceBody "if (x > 3) f();" (UInt32.size - 3) = body at hcount hpredicates ⊢
  have hlines : (predicates body).map Predicate.line = [1, 0] := by
    rw [hpredicates, hstatement]
    rfl
  refine ⟨?_, hlines, ?_, ?_⟩
  · rw [hcount]
    rfl
  · rw [map_line_toNat, hlines]
    decide
  · intro hbound
    have hzero : (0 : LineNumber) ∈ (predicates body).map Predicate.line := by
      rw [hlines]
      exact List.mem_cons_of_mem _ List.mem_cons_self
    obtain ⟨p, hp, hline⟩ := List.mem_map.mp hzero
    have hone := hbound p hp
    rw [hline] at hone
    cases hone

end Source

end Testwright
