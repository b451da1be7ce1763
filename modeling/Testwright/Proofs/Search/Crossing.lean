import Testwright.Proofs.Random
import Testwright.Proofs.Text.Spacing
import Testwright.Search.Breeding

/-!
# Crossing tests

What two tests pass on to the children of their crossover. The children are cut at the same row as
the parents, so each row of a parent is in one of the two children, at the place where it was; the
lists of assertions are cut each at a place of its own, and nothing of them is lost either. Main
statement: `crossover_exchanges`, for all tests and whatever is drawn.
-/

namespace Testwright

open Text Testwright.Random

-- what is drawn is never evaluated here
attribute [local irreducible] patience

/-! ## Lists that exchange their tails -/

section

variable {α : Type} {l m : List α} {n : Nat}

/-- The head of a list with the tail of another, both cut at the same place. -/
def splice (n : Nat) (l m : List α) : List α := l.take n ++ m.drop n

theorem length_splice (hl : n ≤ l.length) (hm : n ≤ m.length) :
    (splice n l m).length = m.length := by
  simp [splice]
  omega

theorem getElem?_splice (hl : n ≤ l.length) (i : Nat) :
    (splice n l m)[i]? = if i < n then l[i]? else m[i]? := by
  have htake : (l.take n).length = n := List.length_take_of_le hl
  unfold splice
  by_cases hi : i < n
  · rw [if_pos hi, List.getElem?_append_left (by omega), List.getElem?_take_of_lt hi]
  · rw [if_neg hi, List.getElem?_append_right (by omega), List.getElem?_drop, htake]
    congr 1
    omega

/-- Two lists that exchange their tails once more are as they were. -/
theorem splice_splice (hl : n ≤ l.length) (hm : n ≤ m.length) :
    splice n (splice n l m) (splice n m l) = l := by
  have hhead : (splice n l m).take n = l.take n := by
    simp [splice, hl]
  have htail : (splice n m l).drop n = l.drop n := by
    simp [splice, hm]
  show (splice n l m).take n ++ (splice n m l).drop n = l
  rw [hhead, htail, List.take_append_drop]

/-- Two lists that exchange their tails, each cut at a place of its own, lose nothing. -/
theorem perm_exchange (i j : Nat) (l m : List α) :
    (l.take i ++ m.drop j ++ (m.take j ++ l.drop i)).Perm (l ++ m) := by
  have htails : (m.drop j ++ m.take j ++ l.drop i).Perm (l.drop i ++ (m.take j ++ m.drop j)) :=
    List.perm_append_comm.trans (List.perm_append_comm.append_left _)
  have hall := htails.append_left (l.take i)
  rw [List.take_append_drop, ← List.append_assoc (l.take i) (l.drop i),
    List.take_append_drop] at hall
  simpa using hall

end

/-! ## Children -/

/-- The rows of a test. -/
def TestCase.rows (t : TestCase) : List (List Char) := Text.rows t.code.toList

theorem TestCase.length_rows (t : TestCase) : t.rows.length = t.rowCount := Text.length_rows _

/-- The rows of a child are those of its parents, before the cut and from it on. -/
theorem rows_crossAt {point : Nat} {head tail : TestCase} (hhead : point ≤ head.rowCount)
    (htail : point ≤ tail.rowCount) (id : String) :
    (crossAt point head tail id).rows = splice point head.rows tail.rows := by
  rw [← TestCase.length_rows] at hhead htail
  have hne : splice point head.rows tail.rows ≠ [] := by
    have hlength := length_splice hhead htail
    have hsome : tail.rows ≠ [] := rows_ne_nil _
    intro hnil
    rw [hnil] at hlength
    exact hsome (List.length_eq_zero_iff.mp hlength.symm)
  have hrow : ∀ r ∈ splice point head.rows tail.rows, '\n' ∉ r := by
    intro r hr
    rcases List.mem_append.mp hr with hr | hr
    · exact feed_notMem_of_mem_rows (List.mem_of_mem_take hr)
    · exact feed_notMem_of_mem_rows (List.mem_of_mem_drop hr)
  show Text.rows (String.ofList (joinRows (splice point head.rows tail.rows))).toList = _
  rw [String.toList_ofList, rows_joinRows hne hrow]

/-- A child whose rows are those of a test has the code of that test. -/
theorem code_crossAt {point : Nat} {head tail t : TestCase} {id : String}
    (h : splice point head.rows tail.rows = t.rows) :
    (crossAt point head tail id).code = t.code := by
  show String.ofList (joinRows (splice point head.rows tail.rows)) = t.code
  rw [h, TestCase.rows, joinRows_rows, String.ofList_toList]

/-- What the two children of a crossover have from their parents. -/
structure Exchanges (point : Nat) (first second child₁ child₂ : TestCase) : Prop where
  /-- Both parents have the row before the cut. -/
  cut : 1 ≤ point ∧ point ≤ min first.rowCount second.rowCount
  /-- The children have as many rows as the parents, exchanged. -/
  rowCount : child₁.rowCount = second.rowCount ∧ child₂.rowCount = first.rowCount
  /-- Before the cut each child has the rows of its own parent. -/
  before : ∀ i : Nat, i < point →
    child₁.rows[i]? = first.rows[i]? ∧ child₂.rows[i]? = second.rows[i]?
  /-- From the cut on it has those of the other one. -/
  after : ∀ i : Nat, point ≤ i →
    child₁.rows[i]? = second.rows[i]? ∧ child₂.rows[i]? = first.rows[i]?
  /-- The row of a parent at some place is the row of one of the children there. -/
  each : ∀ i : Nat, [child₁.rows[i]?, child₂.rows[i]?].Perm [first.rows[i]?, second.rows[i]?]
  /-- When the children are cut at the same row and exchange their tails, the parents' code is back. -/
  again : ∀ id, (crossAt point child₁ child₂ id).code = first.code ∧
    (crossAt point child₂ child₁ id).code = second.code
  /-- No assertion is lost and none is doubled. -/
  assertions : (child₁.assertions ++ child₂.assertions).Perm (first.assertions ++ second.assertions)

/-- Tests that are cut at a row which both have exchange their tails. -/
theorem exchanges_crossAt {point : Nat} {first second : TestCase}
    (hcut : 1 ≤ point ∧ point ≤ min first.rowCount second.rowCount) (id₁ id₂ : String) :
    Exchanges point first second (crossAt point first second id₁)
      (crossAt point second first id₂) := by
  obtain ⟨hfirst, hsecond⟩ := Nat.le_min.mp hcut.2
  have hrows₁ := rows_crossAt hfirst hsecond id₁
  have hrows₂ := rows_crossAt hsecond hfirst id₂
  rw [← TestCase.length_rows] at hfirst hsecond
  have hbefore : ∀ i : Nat, i < point → (crossAt point first second id₁).rows[i]? = first.rows[i]? ∧
      (crossAt point second first id₂).rows[i]? = second.rows[i]? := by
    intro i hi
    rw [hrows₁, hrows₂, getElem?_splice hfirst, getElem?_splice hsecond, if_pos hi, if_pos hi]
    exact ⟨rfl, rfl⟩
  have hafter : ∀ i : Nat, point ≤ i → (crossAt point first second id₁).rows[i]? = second.rows[i]? ∧
      (crossAt point second first id₂).rows[i]? = first.rows[i]? := by
    intro i hi
    have hnot : ¬ i < point := by omega
    rw [hrows₁, hrows₂, getElem?_splice hfirst, getElem?_splice hsecond, if_neg hnot, if_neg hnot]
    exact ⟨rfl, rfl⟩
  refine ⟨hcut, ?_, hbefore, hafter, fun i => ?_, fun id => ⟨?_, ?_⟩, ?_⟩
  · simp only [← TestCase.length_rows, hrows₁, hrows₂]
    exact ⟨length_splice hfirst hsecond, length_splice hsecond hfirst⟩
  · by_cases hi : i < point
    · rw [(hbefore i hi).1, (hbefore i hi).2]
    · rw [(hafter i (by omega)).1, (hafter i (by omega)).2]
      exact .swap _ _ _
  · apply code_crossAt
    rw [hrows₁, hrows₂, splice_splice hfirst hsecond]
  · apply code_crossAt
    rw [hrows₁, hrows₂, splice_splice hsecond hfirst]
  · exact perm_exchange _ _ _ _

/-! ## Crossover -/

section

variable {σ : Type} [WordSource σ]

/-- The row that is drawn is one that both tests have; a test of one row is cut after it. -/
theorem drawCut_mem {shortest : Nat} (h : 1 ≤ shortest) (s : Supply σ) :
    1 ≤ ((drawCut shortest).run s).1 ∧ ((drawCut shortest).run s).1 ≤ shortest := by
  unfold drawCut
  split
  · rename_i hseveral
    have hmem := between_mem hseveral s.words
    show 1 ≤ (between 1 shortest s.words).1 ∧ (between 1 shortest s.words).1 ≤ shortest
    omega
  · show 1 ≤ shortest ∧ shortest ≤ shortest
    omega

/-- **Crossover loses and doubles nothing.** Whatever is drawn, the two children exchange the rows
of their parents from the drawn row on: each row stays at its place, in one of the two children, and
cutting them there again gives the parents' codes back. The assertions of the children are those of
the parents, however many these have. -/
theorem crossover_exchanges (first second : TestCase) (s : Supply σ) :
    let point := ((drawCut (min first.rowCount second.rowCount)).run s).1
    let children := ((crossover first second).run s).1
    Exchanges point first second children.1 children.2 := by
  intro point children
  have hrow : 1 ≤ min first.rowCount second.rowCount :=
    Nat.le_min.mpr ⟨Nat.succ_le_succ (Nat.zero_le _), Nat.succ_le_succ (Nat.zero_le _)⟩
  exact exchanges_crossAt (drawCut_mem hrow s) _ _

end

end Testwright
