import Mathlib.Data.String.Basic

/-!
# Faults

What can go wrong in an operation that is only defined for some arguments, and the checks that go
before it. Texts are cut at byte positions: `Checked.cut` refuses a position inside a character, and
a text can be cut between any two of its characters (`Checked.cut_append`).
-/

namespace Testwright

/-- Why an operation cannot be carried out. -/
inductive Fault where
  /-- A number is drawn from an empty range. -/
  | emptyRange
  /-- The probability of a chance is not between 0 and 1. -/
  | noProbability
  /-- More members are picked than there are. -/
  | tooFew
  /-- A place lies outside of a list or of a text. -/
  | outOfBounds
  /-- A text is cut inside a character. -/
  | insideCharacter
  /-- A number is too large for its type. -/
  | overflow
  deriving DecidableEq

/-- Goes on if a condition holds. -/
def check (p : Prop) [Decidable p] (fault : Fault) : Except Fault Unit :=
  if p then .ok () else .error fault

theorem ok_bind {α β : Type} (a : α) (f : α → Except Fault β) : Except.ok a >>= f = f a := rfl

theorem check_eq_ok {p : Prop} [Decidable p] (h : p) (fault : Fault) :
    check p fault = .ok () := if_pos h

theorem check_bind {α : Type} {p : Prop} [Decidable p] (h : p) (fault : Fault)
    (f : Unit → Except Fault α) : check p fault >>= f = f () := by
  rw [check_eq_ok h, ok_bind]

namespace Checked

open String (utf8Len)

/-- The two parts of a text that is cut after a number of bytes. -/
def cut : (bytes : Nat) → List Char → Except Fault (List Char × List Char)
  | 0, cs => .ok ([], cs)
  | _ + 1, [] => .error .outOfBounds
  | bytes + 1, c :: rest =>
    if bytes + 1 < c.utf8Size then .error .insideCharacter
    else (cut (bytes + 1 - c.utf8Size) rest).map fun parts => (c :: parts.1, parts.2)

/-- A text can be cut between any two of its characters. -/
theorem cut_append (s t : List Char) : cut (utf8Len s) (s ++ t) = .ok (s, t) := by
  induction s with
  | nil => rw [String.utf8Len_nil, cut, List.nil_append]
  | cons c s ih =>
      have hpos := c.utf8Size_pos
      obtain ⟨bytes, hbytes⟩ : ∃ bytes, utf8Len (c :: s) = bytes + 1 :=
        Nat.exists_eq_add_one.mpr (by rw [String.utf8Len_cons]; omega)
      have hfits : ¬ bytes + 1 < c.utf8Size := by
        rw [← hbytes, String.utf8Len_cons]
        omega
      have hrest : bytes + 1 - c.utf8Size = utf8Len s := by
        rw [← hbytes, String.utf8Len_cons, Nat.add_sub_cancel]
      rw [hbytes, List.cons_append, cut, if_neg hfits, hrest, ih]
      rfl

/-- A character of two bytes is not cut in two. -/
example : cut 1 ['ä', 'b'] = .error .insideCharacter ∧ cut 2 ['ä', 'b'] = .ok (['ä'], ['b']) ∧
    cut 4 ['ä', 'b'] = .error .outOfBounds := ⟨rfl, rfl, rfl⟩

end Checked

end Testwright
