import Testwright.Proofs.Source.TestHead
import Testwright.Proofs.Text.Barrier
import Testwright.Proofs.Text.Collecting
import Testwright.Proofs.Text.Nesting

/-!
# The texts of heads

What the head of a test method is as a text: it ends with an opening brace, and its last parenthesis
is a closing one (`exists_of_spells_testHead`). Which heads are found in a text does not depend on the
character before the text (`exists_testHead_finds`), and the body of a test method is nested
(`exists_of_unitOf`).
-/

namespace Testwright.Source

open Text Pattern Cursor

variable {before : Option Char} {c c' : Cursor} {s cs r : List Char} {x : Char}
  {k : List (List Char)} {l : List (List (List Char) × List Char)}

theorem omits_throws (hx : isThrowsChar x = false) :
    (Pattern.blank ++ .optional throwsClause).Omits x := by
  have hblank : isBlank x = false := by
    rw [isThrowsChar, Bool.or_eq_false_iff] at hx
    exact hx.2
  have hword : x ∉ "throws".toList := by
    have hletters : ∀ y ∈ "throws".toList, isThrowsChar y = true := by decide
    intro hmem
    rw [hletters x hmem] at hx
    cases hx
  exact (omits_all hblank).seq
    (((omits_word hword).seq (omits_one hblank)).seq (omits_whole hx)).optional

/-- A body starts with an opening brace, after what may stand before it. -/
theorem exists_of_spells_bodyStart (h : bodyStart.Spells s k) :
    ∃ g, s = g ++ ['\x7b'] ∧ ∀ x, isThrowsChar x = false → x ∉ g := by
  obtain ⟨g, _, _, _, rfl, -, hgap, hbrace⟩ := h
  rw [(spells_char.mp hbrace).1]
  exact ⟨g, rfl, fun x hx => omits_throws hx g _ hgap⟩

/-- A head ends with an opening brace, and its last parenthesis is a closing one. -/
theorem exists_of_spells_testHead (h : testHead.Spells s k) :
    ∃ v, s = v ++ ['\x7b'] ∧ ClosesLast v := by
  obtain ⟨_, _, _, _, rfl, -, hbefore, hbody⟩ := h
  obtain ⟨t, _, _, _, rfl, -, -, hparens⟩ := hbefore
  obtain ⟨u, _, _, _, rfl, -, -, hclose⟩ := hparens
  obtain ⟨g, rfl, hg⟩ := exists_of_spells_bodyStart hbody
  rw [(spells_char.mp hclose).1]
  exact ⟨t ++ (u ++ [')']) ++ g, (List.append_assoc _ _ _).symm, t ++ u, g, by simp,
    hg '(' (by decide)⟩

theorem consumes_testHead : testHead.Consumes := by
  refine consumes_of_spells fun s k h => ?_
  obtain ⟨v, rfl, -⟩ := exists_of_spells_testHead h
  exact List.append_ne_nil_of_right_ne_nil v (List.cons_ne_nil _ _)

/-- Which head begins at a place does not depend on the character before it. -/
theorem ends_testHead_congr (hrest : c.rest = c'.rest) (hread : c.read = c'.read)
    (hspans : c.spans = c'.spans) : testHead.ends c = testHead.ends c' := by
  have hseq : ∀ {p q : Pattern}, p.ends c = p.ends c' → (p ++ q).ends c = (p ++ q).ends c' :=
    fun {_ q} h => congrArg (fun cs : List Cursor => cs.flatMap q.ends) h
  have hword : (Pattern.word "@Test").ends c = (Pattern.word "@Test").ends c' := by
    by_cases htag : "@Test".toList <+: c.rest
    · obtain ⟨r, hr⟩ := htag
      rw [only_word hr.symm, only_word (hr.trans hrest).symm]
      simp [past, hread, hspans]
    · rw [fails_word htag, fails_word (hrest ▸ htag)]
  rw [ends_testHead, ends_testHead]
  exact hseq (hseq (hseq (hseq (hseq hword))))

theorem finds_testHead_congr (h : testHead.Finds before cs l) (before' : Option Char) :
    testHead.Finds before' cs l := by
  have hends : ∀ cs, testHead.ends ⟨before', cs, 0, []⟩ = testHead.ends ⟨before, cs, 0, []⟩ :=
    fun cs => ends_testHead_congr rfl rfl rfl
  cases h with
  | done h => exact .done ((hends _).trans h)
  | skip h hrest => exact .skip ((hends _).trans h) hrest
  | found h hto hs hrest => exact .found ((congrArg List.head? (hends _)).trans h) hto hs hrest

/-- The heads of a text, whatever stands before it. -/
theorem exists_testHead_finds (cs : List Char) : ∃ l, ∀ b, testHead.Finds b cs l := by
  obtain ⟨l, hl⟩ := exists_finds consumes_testHead none cs
  exact ⟨l, finds_testHead_congr hl⟩

/-- The body of a test method stands before its closing brace, and is nested. -/
theorem exists_of_unitOf {name : List (List Char)} {u : TestUnit} (h : unitOf (name, r) = some u) :
    name.head? = some u.name.toList ∧ testUnit u.name.toList u.body.toList = u ∧
      ∃ rest, r = u.body.toList ++ '\x7d' :: rest ∧
        Delimiters.braces.marks.Nested u.body.toList := by
  obtain ⟨title, htitle, hclosed⟩ := Option.bind_eq_some_iff.mp h
  obtain ⟨⟨body, rest⟩, hclose, rfl⟩ := Option.map_eq_some_iff.mp hclosed
  have hbody := (Delimiters.closeAfter_eq_some_iff (d := .braces)).mp hclose
  have htitle' : (testUnit title body).name.toList = title := String.toList_ofList
  have hbody' : (testUnit title body).body.toList = body := String.toList_ofList
  rw [htitle', hbody']
  exact ⟨htitle, rfl, rest, hbody⟩

end Testwright.Source
