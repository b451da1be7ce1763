import Testwright.Proofs.Random
import Testwright.Proofs.Search.Names
import Testwright.Proofs.Source.Bindings
import Testwright.Proofs.Text.Words

/-!
# Shifted literals

A mutant with a shifted literal differs from its parent in that literal only. A literal stands
alone, and so do the digits that are written for it, whether or not there is a sign before them, so
no other literal is split, joined or moved. Main statement: `perturbation_shifts_one_literal`, for
all tests and whatever is drawn.
-/

namespace Testwright

open Text Testwright.Random Breeding

-- what is drawn is never evaluated here
attribute [local irreducible] patience

variable {cs cs' u d v : List Char}

/-! ## The literals of a text -/

/-- The integer literals of a text, in their order. -/
def integerLiterals (cs : List Char) : List (List Char) :=
  (integerLiteral.findAll cs).map Found.text

/-- A nonempty text of digits. -/
def isNumber (w : List Char) : Bool := !w.isEmpty && w.all isDigit

theorem readsWords_number : (Pattern.whole isDigit).ReadsWords isNumber :=
  Pattern.readsWords_whole fun _ => isWord_of_isDigit

theorem integerLiterals_eq (cs : List Char) :
    integerLiterals cs = Pattern.selectedWords isNumber cs := readsWords_number.texts_findAll cs

example : integerLiterals "x1 = -7 + 08;".toList = ["7".toList, "08".toList] := by decide

/-! ## Written integers -/

theorem isNumber_toDigits (n : Nat) : isNumber (Nat.toDigits 10 n) = true := by
  rw [isNumber, List.isEmpty_eq_false_iff.mpr Nat.toDigits_ne_nil, List.all_eq_true.mpr]
  · rfl
  · exact fun c hc => isDigit_of_isAsciiDigit (isDigit_of_mem_toDigits hc)

/-- The one word of an integer is its digits: a sign is none. -/
theorem wordsOf_writeInt (z : Int) : wordsOf (writeInt z) = [Nat.toDigits 10 z.natAbs] := by
  have hdigits : ∀ n, wordsOf (Nat.toDigits 10 n) = [Nat.toDigits 10 n] := fun n =>
    have hword := readsWords_number.word _ (isNumber_toDigits n)
    wordsOf_word hword.1 hword.2
  cases z with
  | ofNat n => exact hdigits n
  | negSucc n => exact (wordsOf_cons (by decide) _).trans (hdigits (n + 1))

/-- An integer that stands alone does not touch the words around it. -/
theorem wordsOf_around_writeInt (hu : ∀ x ∈ u.getLast?, isWord x = false)
    (hv : ∀ x ∈ v.head?, isWord x = false) (z : Int) :
    wordsOf (u ++ (writeInt z ++ v)) = wordsOf u ++ Nat.toDigits 10 z.natAbs :: wordsOf v := by
  rw [wordsOf_append (.inl hu), wordsOf_append (.inr hv), wordsOf_writeInt]
  rfl

theorem feed_notMem_writeInt (z : Int) : '\n' ∉ writeInt z := fun h =>
  absurd (isIntegerChar_of_mem_writeInt h) (by decide)

/-! ## The shift -/

/-- The second text is the first one with one of its integer literals shifted: `d`, which has the
value `n`, between `u` and `v`. -/
structure ShiftsLiteral (cs cs' u d v : List Char) (n : Int64) (shift : Int) : Prop where
  found : integerLiteral.FindsAt cs u d v
  value : readInt64 d = some n
  bound : -(maxShift : Int) ≤ shift ∧ shift ≤ maxShift
  shifted : cs' = u ++ (writeInt (saturate (n.toInt + shift)) ++ v)

namespace ShiftsLiteral

variable {n : Int64} {shift : Int}

/-- No word reaches from the literal into what stands around it. -/
theorem stands_alone (h : ShiftsLiteral cs cs' u d v n shift) :
    isNumber d = true ∧ (∀ x ∈ u.getLast?, isWord x = false) ∧ ∀ x ∈ v.head?, isWord x = false :=
  h.found.stands_alone readsWords_number

theorem wordsOf_eq (h : ShiftsLiteral cs cs' u d v n shift) :
    wordsOf cs = wordsOf u ++ d :: wordsOf v ∧ wordsOf cs' =
      wordsOf u ++ Nat.toDigits 10 (saturate (n.toInt + shift)).natAbs :: wordsOf v := by
  obtain ⟨hd, hu, hv⟩ := h.stands_alone
  obtain ⟨hne, hword⟩ := readsWords_number.word d hd
  refine ⟨?_, by rw [h.shifted, wordsOf_around_writeInt hu hv]⟩
  rw [h.found.eq_append, wordsOf_append (.inl hu), wordsOf_append (.inr hv),
    wordsOf_word hne hword]
  rfl

/-- All literals but the shifted one are the same, in the same order. -/
theorem integerLiterals_eq (h : ShiftsLiteral cs cs' u d v n shift) :
    integerLiterals cs = integerLiterals u ++ d :: integerLiterals v ∧ integerLiterals cs' =
      integerLiterals u ++
        Nat.toDigits 10 (saturate (n.toInt + shift)).natAbs :: integerLiterals v := by
  obtain ⟨hcs, hcs'⟩ := h.wordsOf_eq
  simp only [Testwright.integerLiterals_eq, Pattern.selectedWords, hcs, hcs', List.filter_append,
    List.filter_cons, if_pos h.stands_alone.1, if_pos (isNumber_toDigits _), and_self]

theorem rowCount_eq (h : ShiftsLiteral cs cs' u d v n shift) : rowCount cs' = rowCount cs := by
  have hd : '\n' ∉ d := by
    intro hfeed
    have hword := (readsWords_number.word d h.stands_alone.1).2 _ hfeed
    exact absurd hword (by decide)
  simp only [rowCount, h.shifted, h.found.eq_append, List.count_append,
    List.count_eq_zero.mpr hd, List.count_eq_zero.mpr (feed_notMem_writeInt _)]

end ShiftsLiteral

variable {σ : Type} [WordSource σ]

/-- One literal is drawn and then the shift. -/
theorem run_perturbLiteral {cs : List Char} (hsome : integerLiteral.findAll cs ≠ [])
    (s : Supply σ) :
    let found := integerLiteral.findAll cs
    let k := below found.length s.words
    ((perturbLiteral cs).run s).1 =
      match (found[k.1]?).bind fun f => readInt64 f.text with
      | none => cs
      | some n =>
        replaceNth k.1 (writeInt (saturate (n.toInt + (offset maxShift k.2).1))) cs found := by
  intro found k
  unfold perturbLiteral
  rw [if_neg (by simpa using hsome), run_bind, run_bind]
  show ((match (found[k.1]?).bind fun f => readInt64 f.text with
    | none => (pure cs : Breeding σ (List Char))
    | some n => pure (replaceNth k.1
        (writeInt (saturate (n.toInt + (offset maxShift k.2).1))) cs found)).run _).1 = _
  split <;> rfl

/-- The drawn literal is shifted, unless there is none or it does not fit into 64 bits. -/
theorem perturbLiteral_cases (cs : List Char) (s : Supply σ) :
    let cs' := ((perturbLiteral cs).run s).1
    (cs' = cs ∧ (integerLiterals cs = [] ∨ ∃ d ∈ integerLiterals cs, readInt64 d = none)) ∨
      ∃ u d v n shift, ShiftsLiteral cs cs' u d v n shift := by
  intro cs'
  by_cases hnone : integerLiteral.findAll cs = []
  · have hsame : cs' = cs := by
      unfold cs' perturbLiteral
      rw [if_pos (by simpa using hnone)]
      rfl
    exact .inl ⟨hsame, .inl (List.map_eq_nil_iff.mpr hnone)⟩
  have hdrawn := run_perturbLiteral hnone s
  extract_lets found k at hdrawn
  change cs' = _ at hdrawn
  have hlt : k.1 < found.length := below_lt (List.length_pos_iff.mpr hnone) _
  have hf : found[k.1]? = some found[k.1] := List.getElem?_eq_getElem hlt
  rw [hf, Option.bind_some] at hdrawn
  cases hn : readInt64 found[k.1].text with
  | none =>
      rw [hn] at hdrawn
      exact .inl ⟨hdrawn, .inr ⟨_, List.mem_map_of_mem (List.getElem_mem hlt), hn⟩⟩
  | some n =>
      rw [hn] at hdrawn
      refine .inr ⟨_, _, _, n, _, ⟨k.1, found[k.1], hf, rfl, rfl, rfl⟩, hn,
        offset_mem maxShift k.2, ?_⟩
      rw [hdrawn]
      simp only [replaceNth, hf, List.append_assoc]
      rfl

/-- **A shift is local.** Whatever is drawn, either the code of the mutant is that of its parent,
and this only if there is nothing to shift or a literal does not fit into 64 bits, or one literal is
shifted by at most `maxShift`, kept within 64 bits and written in decimal, and the text around it
and all other literals are unchanged. In both cases the mutant has as many literals and as many rows
as its parent, and the rest of it but its name and its scores is that of its parent. -/
theorem perturbation_shifts_one_literal (t : TestCase) (s : Supply σ) :
    let mutant := ((mutateBy .perturbLiteral t).run s).1
    let literals := integerLiterals t.code.toList
    ((mutant.code = t.code ∧ (literals = [] ∨ ∃ d ∈ literals, readInt64 d = none)) ∨
      ∃ u d v n shift, ShiftsLiteral t.code.toList mutant.code.toList u d v n shift ∧
        literals = integerLiterals u ++ d :: integerLiterals v ∧
          integerLiterals mutant.code.toList = integerLiterals u ++
            Nat.toDigits 10 (saturate (n.toInt + shift)).natAbs :: integerLiterals v) ∧
      (integerLiterals mutant.code.toList).length = literals.length ∧
        mutant.rowCount = t.rowCount ∧ mutant.assertions = t.assertions ∧ mutant.kind = t.kind ∧
          mutant.targetMethod = t.targetMethod ∧ mutant.targetClass = t.targetClass ∧
            mutant.dependencies = t.dependencies := by
  intro mutant literals
  have hcode : mutant.code = String.ofList ((perturbLiteral t.code.toList).run s).1 := rfl
  have hfields : mutant.assertions = t.assertions ∧ mutant.kind = t.kind ∧
      mutant.targetMethod = t.targetMethod ∧ mutant.targetClass = t.targetClass ∧
        mutant.dependencies = t.dependencies := ⟨rfl, rfl, rfl, rfl, rfl⟩
  rcases perturbLiteral_cases t.code.toList s with ⟨hsame, hwhy⟩ | ⟨u, d, v, n, shift, hshifts⟩
  · rw [hsame, String.ofList_toList] at hcode
    refine ⟨.inl ⟨hcode, hwhy⟩, by rw [hcode], ?_, hfields⟩
    rw [TestCase.rowCount, hcode]
    rfl
  · rw [← String.toList_ofList (l := ((perturbLiteral t.code.toList).run s).1), ← hcode] at hshifts
    obtain ⟨hbefore, hafter⟩ := hshifts.integerLiterals_eq
    refine ⟨.inr ⟨u, d, v, n, shift, hshifts, hbefore, hafter⟩, ?_, hshifts.rowCount_eq, hfields⟩
    show _ = (integerLiterals t.code.toList).length
    rw [hbefore, hafter, List.length_append, List.length_append]
    rfl

end Testwright
