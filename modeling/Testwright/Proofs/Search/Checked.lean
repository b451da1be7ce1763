import Testwright.Proofs.Fault
import Testwright.Proofs.Random
import Testwright.Proofs.Search.Offspring
import Testwright.Proofs.Text.Search

/-!
# Checked operators

The operators with every operation checked before it is carried out: the range of what is drawn, the
probability of a chance, the places at which lists and texts are cut, and the size of a product.
What fails a check is a fault. Main statements: a checked mutation meets no fault
(`Checked.agrees_mutate`), and neither does the crossover of two tests that are not too large
(`Checked.agrees_crossover`), and otherwise they do what the operators do.
-/

namespace Testwright

open Text Testwright.Random

/-- A computation that draws from a supply and ends at the first fault. -/
abbrev Checked (σ : Type) := StateT (Supply σ) (Except Fault)

/-- What is known of a test that is small enough to be cut: the product by which its assertions are
cut fits into 64 bits. -/
def TestCase.IsCuttable (t : TestCase) : Prop := t.assertions.length * t.rowCount < 2 ^ 64

theorem length_le_utf8Len (cs : List Char) : cs.length ≤ String.utf8Len cs := by
  induction cs with
  | nil => exact Nat.zero_le _
  | cons c cs ih =>
      have hpos := c.utf8Size_pos
      rw [List.length_cons, String.utf8Len_cons]
      omega

/-- A test has no more rows than bytes, and one more. -/
theorem TestCase.rowCount_le_bytes (t : TestCase) : t.rowCount ≤ t.code.utf8ByteSize + 1 := by
  have hbytes : t.code.utf8ByteSize = String.utf8Len t.code.toList := by
    rw [← String.utf8ByteSize_ofList, String.ofList_toList]
  rw [hbytes]
  exact Nat.succ_le_succ (List.count_le_length.trans (length_le_utf8Len _))

theorem TestCase.isCuttable_of_bytes {t : TestCase}
    (h : t.assertions.length * (t.code.utf8ByteSize + 1) < 2 ^ 64) : t.IsCuttable :=
  (Nat.mul_le_mul_left _ t.rowCount_le_bytes).trans_lt h

namespace Checked

open Breeding (Yields)
open String (utf8Len)

/-! ## Lists, texts and numbers -/

section

variable {α : Type}

/-- The entry at a place of a list. -/
def entry (l : List α) (i : Nat) : Except Fault α :=
  match l[i]? with
  | some a => .ok a
  | none => .error .outOfBounds

/-- The entries before a place of a list. -/
def front (l : List α) (n : Nat) : Except Fault (List α) := do
  check (n ≤ l.length) .outOfBounds
  return l.take n

/-- The entries from a place of a list on. -/
def back (l : List α) (n : Nat) : Except Fault (List α) := do
  check (n ≤ l.length) .outOfBounds
  return l.drop n

/-- A list with another entry at a place. -/
def assign (l : List α) (i : Nat) (a : α) : Except Fault (List α) := do
  check (i < l.length) .outOfBounds
  return l.set i a

/-- What stands before and after a piece of a text, which begins after a number of bytes and has a
number of them. -/
def around (start length : Nat) (cs : List Char) : Except Fault (List Char × List Char) := do
  let (before, _) ← cut start cs
  let (_, after) ← cut (start + length) cs
  return (before, after)

/-- A product of 64 bits. -/
def product (m n : Nat) : Except Fault Nat := do
  check (m * n < 2 ^ 64) .overflow
  return m * n

/-- The next number of 32 bits. -/
def next (n : Nat) : Except Fault Nat := do
  check (n + 1 < 2 ^ 32) .overflow
  return n + 1

variable {l : List α} {i m n : Nat}

theorem entry_eq_ok (h : i < l.length) (default : α) : entry l i = .ok (l.getD i default) := by
  rw [entry, List.getD_eq_getElem?_getD, List.getElem?_eq_getElem h]
  rfl

theorem front_eq_ok (h : n ≤ l.length) : front l n = .ok (l.take n) :=
  check_bind h _ _

theorem back_eq_ok (h : n ≤ l.length) : back l n = .ok (l.drop n) :=
  check_bind h _ _

theorem assign_eq_ok (h : i < l.length) (a : α) : assign l i a = .ok (l.set i a) :=
  check_bind h _ _

theorem around_eq_ok {s t r cs : List Char} (h : cs = s ++ t ++ r) :
    around (utf8Len s) (utf8Len t) cs = .ok (s, r) := by
  have hstart : cut (utf8Len s) cs = .ok (s, t ++ r) := by rw [h, List.append_assoc, cut_append]
  have hstop : cut (utf8Len s + utf8Len t) cs = .ok (s ++ t, r) := by
    rw [h, ← String.utf8Len_append, cut_append]
  rw [around, hstart, hstop]
  rfl

theorem product_eq_ok (h : m * n < 2 ^ 64) : product m n = .ok (m * n) :=
  check_bind h _ _

theorem next_eq_ok (h : n + 1 < 2 ^ 32) : next n = .ok (n + 1) := check_bind h _ _

end

/-! ## Agreement -/

section

variable {σ α β : Type}

/-- A computation without anything to check. -/
def unchecked (y : Breeding σ α) : Checked σ α := fun s => .ok (y.run s)

/-- Whatever is drawn, the checked computation meets no fault and gives what the other one gives. -/
def Agrees (x : Checked σ α) (y : Breeding σ α) : Prop := ∀ s, x.run s = .ok (y.run s)

theorem Agrees.unchecked (y : Breeding σ α) : Agrees (unchecked y) y := fun _ => rfl

theorem Agrees.pure (a : α) : Agrees (Pure.pure a : Checked σ α) (Pure.pure a) := fun _ => rfl

theorem Agrees.bind {x : Checked σ α} {y : Breeding σ α} {f : α → Checked σ β}
    {g : α → Breeding σ β} {kind : α → Prop} (hx : Agrees x y) (hy : Yields y kind)
    (hf : ∀ a, kind a → Agrees (f a) (g a)) : Agrees (x >>= f) (y >>= g) := by
  intro s
  rw [StateT.run_bind, hx s]
  exact hf _ (hy s) _

/-- What follows a computation agrees for every result of it. -/
theorem Agrees.then {x : Checked σ α} {y : Breeding σ α} {f : α → Checked σ β}
    {g : α → Breeding σ β} (hx : Agrees x y) (hf : ∀ a, Agrees (f a) (g a)) :
    Agrees (x >>= f) (y >>= g) := by
  have hany : Yields y fun _ => True := fun _ => trivial
  exact hx.bind hany fun a _ => hf a

theorem Agrees.map {x : Checked σ α} {y : Breeding σ α} (h : Agrees x y) (f : α → β) :
    Agrees (f <$> x) (f <$> y) := by
  intro s
  rw [StateT.run_map, h s]
  rfl

/-- A check that is passed. -/
theorem Agrees.of_ok {c : Except Fault β} {b : β} {f : β → Checked σ α} {y : Breeding σ α}
    (hc : c = .ok b) (hf : Agrees (f b) y) : Agrees ((liftM c : Checked σ β) >>= f) y := by
  rw [hc]
  exact hf

theorem agrees_lift {c : Except Fault α} {a : α} (hc : c = .ok a) :
    Agrees (liftM c : Checked σ α) (Pure.pure a) := by
  rw [hc]
  exact .pure a

end

/-! ## Draws -/

section

variable {σ : Type} [WordSource σ]

/-- A number below a positive one. -/
def below (n : Nat) : Checked σ Nat := do
  check (0 < n) .emptyRange
  unchecked (drawing (Random.below n))

/-- A number in a range that is not empty. -/
def between (low high : Nat) : Checked σ Nat := do
  check (low < high) .emptyRange
  unchecked (drawing (Random.between low high))

/-- An integer in a range around zero. -/
def offset (bound : Nat) : Checked σ Int := do
  check (-(bound : Int) ≤ bound) .emptyRange
  unchecked (drawing (Random.offset bound))

/-- Whether something happens that has a probability. -/
def chance (p : Float) : Checked σ Bool := do
  check (Config.isProbability p = true) .noProbability
  unchecked (drawing (Random.chance p))

/-- Two of at least two numbers. -/
def pair (n : Nat) : Checked σ (Nat × Nat) := do
  check (2 ≤ n) .tooFew
  unchecked (drawing (Random.pair n))

variable {n low high bound : Nat} {p : Float}

theorem agrees_below (h : 0 < n) : Agrees (below n : Checked σ Nat) (drawing (Random.below n)) :=
  .of_ok (check_eq_ok h _) (.unchecked _)

theorem agrees_between (h : low < high) :
    Agrees (between low high : Checked σ Nat) (drawing (Random.between low high)) :=
  .of_ok (check_eq_ok h _) (.unchecked _)

theorem agrees_offset :
    Agrees (offset bound : Checked σ Int) (drawing (Random.offset bound)) :=
  .of_ok (check_eq_ok (by omega) _) (.unchecked _)

theorem agrees_chance (h : Config.isProbability p = true) :
    Agrees (chance p : Checked σ Bool) (drawing (Random.chance p)) :=
  .of_ok (check_eq_ok h _) (.unchecked _)

theorem agrees_pair (h : 2 ≤ n) :
    Agrees (pair n : Checked σ (Nat × Nat)) (drawing (Random.pair n)) :=
  .of_ok (check_eq_ok h _) (.unchecked _)

theorem yields_below (h : 0 < n) :
    Yields (drawing (Random.below n) : Breeding σ Nat) fun k => k < n :=
  fun s => below_lt h s.words

theorem yields_between (h : low < high) :
    Yields (drawing (Random.between low high) : Breeding σ Nat) fun k => low ≤ k ∧ k < high :=
  fun s => between_mem h s.words

theorem yields_pair (h : 2 ≤ n) :
    Yields (drawing (Random.pair n) : Breeding σ (Nat × Nat)) fun ks => ks.1 < n ∧ ks.2 < n :=
  fun s => pair_lt h s.words

/-! ## Mutation -/

/-- Shifts one of the integer literals of a text, which is cut before the literal and after it. -/
def perturbLiteral (cs : List Char) : Checked σ (List Char) := do
  let found := integerLiteral.findAll cs
  if found.isEmpty then return cs
  else
    let k ← below found.length
    let f ← entry found k
    let shift ← offset maxShift
    match readInt64 f.text with
    | none => return cs
    | some n =>
      let start := utf8Len ((found.take k).flatMap Found.passed ++ f.skipped)
      let (before, after) ← around start (utf8Len f.text) cs
      return before ++ writeInt (saturate (n.toInt + shift)) ++ after

/-- Turns the first assertion of a text into its opposite; the text is cut before its name and after
it. -/
def flipAssertion (cs : List Char) (assertions : List String) :
    Except Fault (List Char × List String) :=
  match firstAssertion cs with
  | none => return (cs, assertions)
  | some (f, opposite) => do
    let (before, after) ← around (utf8Len f.skipped) (utf8Len f.text) cs
    return (before ++ opposite ++ after,
      replaceFirstEntry (beginsWith f.text)
        (fun entry => String.ofList (assertionName.replaceOne opposite entry.toList)) assertions)

/-- The code and the assertions after a mutation. -/
def mutateText (m : Mutation) (t : TestCase) : Checked σ (List Char × List String) := do
  let cs := t.code.toList
  match m with
  | .perturbLiteral => return (← perturbLiteral cs, t.assertions)
  | .flipAssertion =>
    if ← chance flipProbability then flipAssertion cs t.assertions
    else return (cs, t.assertions)
  | .markBoundary => return (markBoundary cs, t.assertions)

/-- A mutant of a test. -/
def mutateBy (m : Mutation) (t : TestCase) : Checked σ TestCase := do
  let (code, assertions) ← mutateText m t
  let id ← unchecked (naming (·.derive t.id mutantTag))
  return t.childOf id (String.ofList code) assertions

/-- A mutant of a test, by one of the ways to mutate. -/
def mutate (t : TestCase) : Checked σ TestCase := do
  let k ← below Mutation.all.length
  let m ← entry Mutation.all k
  mutateBy m t

/-- A literal stands between the ends of its match. -/
theorem agrees_perturbLiteral (cs : List Char) :
    Agrees (perturbLiteral cs : Checked σ (List Char)) (Testwright.perturbLiteral cs) := by
  rw [perturbLiteral, Testwright.perturbLiteral]
  dsimp only
  split
  · exact .pure cs
  · rename_i hfound
    have hpositive : 0 < (integerLiteral.findAll cs).length :=
      List.length_pos_iff.mpr (by simpa using hfound)
    refine (agrees_below hpositive).bind (yields_below hpositive) fun k hk => ?_
    obtain ⟨f, hf⟩ : ∃ f, (integerLiteral.findAll cs)[k]? = some f :=
      ⟨_, List.getElem?_eq_getElem hk⟩
    refine .of_ok (by rw [entry, hf]) (agrees_offset.then fun shift => ?_)
    -- the text is made up of what stands before the literal, the literal, and what stands after it
    have hpieces := Pattern.findAll_getElem?_eq_some hf
    rw [Found.passed, ← List.append_assoc] at hpieces
    rw [hf, Option.bind_some]
    cases readInt64 f.text with
    | none => exact .pure cs
    | some n =>
        dsimp only
        refine .of_ok (around_eq_ok hpieces) ?_
        rw [replaceNth, hf]
        exact .pure _

theorem flipAssertion_eq_ok (cs : List Char) (assertions : List String) :
    flipAssertion cs assertions = .ok (Testwright.flipAssertion cs assertions) := by
  rw [flipAssertion, Testwright.flipAssertion]
  cases hfirst : firstAssertion cs with
  | none => rfl
  | some first =>
      obtain ⟨f, hfind, hopposite⟩ := Option.bind_eq_some_iff.mp hfirst
      obtain ⟨o, -, rfl⟩ := Option.map_eq_some_iff.mp hopposite
      dsimp only
      rw [around_eq_ok (Pattern.find_eq_some hfind)]
      rfl

theorem isProbability_flipProbability : Config.isProbability flipProbability = true := by
  decide +kernel

theorem agrees_mutateText (m : Mutation) (t : TestCase) :
    Agrees (mutateText m t : Checked σ (List Char × List String)) (Testwright.mutateText m t) := by
  cases m with
  | perturbLiteral => exact (agrees_perturbLiteral _).then fun code => .pure _
  | flipAssertion =>
      refine (agrees_chance isProbability_flipProbability).then fun flips => ?_
      cases flips with
      | false => exact .pure _
      | true => exact agrees_lift (flipAssertion_eq_ok _ _)
  | markBoundary => exact .pure _

theorem agrees_mutateBy (m : Mutation) (t : TestCase) :
    Agrees (mutateBy m t : Checked σ TestCase) (Testwright.mutateBy m t) :=
  (agrees_mutateText m t).then fun _ => (Agrees.unchecked _).then fun _ => .pure _

/-- A mutation meets no fault, whatever the test is. -/
theorem agrees_mutate (t : TestCase) :
    Agrees (mutate t : Checked σ TestCase) (Testwright.mutate t) := by
  have hpositive : 0 < Mutation.all.length := by decide
  refine (agrees_below hpositive).bind (yields_below hpositive) fun k hk => ?_
  exact .of_ok (entry_eq_ok hk _) (agrees_mutateBy _ t)

/-! ## Crossover -/

/-- The place in a list of `length` entries that corresponds to row `point` of `rows`; there is none
to be computed without rows. -/
def proportionalCut (length point rows : Nat) : Except Fault Nat :=
  if rows = 0 then return 0
  else do
    let product ← product length point
    return min (product / rows) length

/-- A test with the head of one parent and the tail of another. -/
def crossAt (point : Nat) (head tail : TestCase) (id : String) : Except Fault TestCase := do
  let headRows := rows head.code.toList
  let tailRows := rows tail.code.toList
  let headCut ← proportionalCut head.assertions.length point headRows.length
  let tailCut ← proportionalCut tail.assertions.length point tailRows.length
  let firstRows ← front headRows point
  let lastRows ← back tailRows point
  let firstAssertions ← front head.assertions headCut
  let lastAssertions ← back tail.assertions tailCut
  return head.childOf id (String.ofList (joinRows (firstRows ++ lastRows)))
    (firstAssertions ++ lastAssertions)

/-- The row at which two tests are cut. -/
def drawCut (shortest : Nat) : Checked σ Nat :=
  if 1 < shortest then between 1 shortest else return shortest

/-- The two tests that exchange their tails. -/
def crossover (first second : TestCase) : Checked σ (TestCase × TestCase) := do
  let point ← drawCut (min first.rowCount second.rowCount)
  let id1 ← unchecked (naming (·.derive first.id crossTag))
  let id2 ← unchecked (naming (·.derive second.id crossTag))
  let child1 ← crossAt point first second id1
  let child2 ← crossAt point second first id2
  return (child1, child2)

theorem proportionalCut_eq_ok {length point rows : Nat} (h : length * point < 2 ^ 64) :
    proportionalCut length point rows = .ok (Testwright.proportionalCut length point rows) := by
  rw [proportionalCut, Testwright.proportionalCut]
  split
  · rename_i hrows
    rw [hrows, Nat.div_zero, Nat.zero_min]
    rfl
  · rw [product_eq_ok h]
    rfl

theorem proportionalCut_le (length point rows : Nat) :
    Testwright.proportionalCut length point rows ≤ length := Nat.min_le_right _ _

/-- Tests that are small enough can be cut at any row that both have. -/
theorem crossAt_eq_ok {point : Nat} {head tail : TestCase} (hhead : point ≤ head.rowCount)
    (htail : point ≤ tail.rowCount) (hheadSize : head.IsCuttable) (htailSize : tail.IsCuttable)
    (id : String) : crossAt point head tail id = .ok (Testwright.crossAt point head tail id) := by
  -- the row is no greater than the number of rows, by which the size is measured
  have hheadProduct : head.assertions.length * point < 2 ^ 64 :=
    (Nat.mul_le_mul_left _ hhead).trans_lt hheadSize
  have htailProduct : tail.assertions.length * point < 2 ^ 64 :=
    (Nat.mul_le_mul_left _ htail).trans_lt htailSize
  rw [TestCase.rowCount, ← length_rows] at hhead htail
  rw [crossAt, proportionalCut_eq_ok hheadProduct, ok_bind, proportionalCut_eq_ok htailProduct,
    ok_bind, front_eq_ok hhead, ok_bind, back_eq_ok htail, ok_bind,
    front_eq_ok (proportionalCut_le _ _ _), ok_bind, back_eq_ok (proportionalCut_le _ _ _), ok_bind]
  rfl

/-- The row is one that both tests have; where one of them has a single row, it is cut after it. -/
theorem agrees_drawCut (shortest : Nat) :
    Agrees (drawCut shortest : Checked σ Nat) (Testwright.drawCut shortest) := by
  rw [drawCut, Testwright.drawCut]
  split
  · rename_i hseveral
    exact agrees_between hseveral
  · exact .pure shortest

theorem yields_drawCut (shortest : Nat) :
    Yields (Testwright.drawCut shortest : Breeding σ Nat) fun point => point ≤ shortest := by
  rw [Testwright.drawCut]
  split
  · rename_i hseveral
    exact fun s => (yields_between hseveral s).2.le
  · exact .pure (Nat.le_refl shortest)

/-- The crossover of two tests meets no fault if they are small enough. -/
theorem agrees_crossover {first second : TestCase} (hfirst : first.IsCuttable)
    (hsecond : second.IsCuttable) :
    Agrees (crossover first second : Checked σ (TestCase × TestCase))
      (Testwright.crossover first second) := by
  refine (agrees_drawCut _).bind (yields_drawCut _) fun point hpoint => ?_
  refine (Agrees.unchecked _).then fun id1 => (Agrees.unchecked _).then fun id2 => ?_
  rw [Nat.le_min] at hpoint
  obtain ⟨hle, hle'⟩ := hpoint
  refine .of_ok (crossAt_eq_ok hle hle' hfirst hsecond id1) ?_
  exact .of_ok (crossAt_eq_ok hle' hle hsecond hfirst id2) (.pure _)

end

end Checked

end Testwright
