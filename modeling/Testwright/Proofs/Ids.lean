import Mathlib.Data.List.DropRight
import Mathlib.Data.List.Nodup
import Testwright.Ids

/-!
# Names do not repeat

A name ends in the number that it was made with, and the digits of that number can be told from what
stands before them. So the number can be read off the name (`serial`), and names made with different
numbers are different (`IdSource.Issued.nodup`), whatever their stems and parents are.
-/

namespace Testwright

/-- The number at the end of a name. -/
def serial (id : String) : Nat :=
  Nat.ofDigitChars 10 (id.toList.rtakeWhile Char.isDigit) 0

/-- The number at the end of a text is the one that was written there, unless a digit stands before
it. -/
theorem serial_of_toList {id : String} (stem : List Char) {n : Nat}
    (hid : id.toList = stem ++ Nat.toDigits 10 n)
    (hstem : ∀ c ∈ stem.getLast?, c.isDigit = false) : serial id = n := by
  have hdigits : ∀ c ∈ (Nat.toDigits 10 n).reverse, c.isDigit = true := fun c hc =>
    Nat.isDigit_of_mem_toDigits (by decide) (by decide) (List.mem_reverse.mp hc)
  have hnone : stem.reverse.takeWhile Char.isDigit = [] := by
    cases hrev : stem.reverse with
    | nil => rfl
    | cons c rest =>
        have hlast : stem.getLast? = some c := by
          rw [← List.head?_reverse, hrev]
          rfl
        rw [List.takeWhile_cons, hstem c hlast]
        rfl
  have htail : id.toList.rtakeWhile Char.isDigit = Nat.toDigits 10 n := by
    rw [hid, List.rtakeWhile, List.reverse_append, List.takeWhile_append_of_pos hdigits, hnone,
      List.append_nil, List.reverse_reverse]
  rw [serial, htail, Nat.ofDigitChars_toDigits (by decide) (by decide)]

namespace IdSource

theorem toList_fresh (s : IdSource) (stem : String) :
    (s.fresh stem).1.toList = stem.toList ++ '_' :: Nat.toDigits 10 s.next := by
  show (stem ++ "_" ++ s.next.repr).toList = _
  simp

theorem separator_notMem_fresh (s : IdSource) {stem : String}
    (h : lineageSeparator ∉ stem.toList) : lineageSeparator ∉ (s.fresh stem).1.toList := by
  have hunderscore : lineageSeparator ≠ '_' := by decide
  have hdigits : lineageSeparator ∉ Nat.toDigits 10 s.next := fun hmem =>
    absurd (Nat.isDigit_of_mem_toDigits (by decide) (by decide) hmem) (by decide)
  rw [toList_fresh]
  exact List.not_mem_append h (List.not_mem_cons_of_ne_of_not_mem hunderscore hdigits)

theorem toList_derive (s : IdSource) (parent tag : String) :
    (s.derive parent tag).1.toList =
      (lineageRoot parent).toList ++
        lineageSeparator :: (tag.toList ++ Nat.toDigits 10 s.next) := by
  show (lineageRoot parent ++ lineageSeparator.toString ++ tag ++ s.next.repr).toList = _
  simp

/-- A source that is at `s'` after it was at `s` made these names in between. -/
structure Issued (s s' : IdSource) (names : List String) : Prop where
  le : s.next ≤ s'.next
  nodup_serial : (names.map serial).Nodup
  bounds : ∀ id ∈ names, s.next ≤ serial id ∧ serial id < s'.next

namespace Issued

variable {s s' s'' : IdSource} {names more : List String}

/-- Names that were made one after another are different. -/
theorem nodup (h : Issued s s' names) : names.Nodup := h.nodup_serial.of_map

theorem none (h : s.next ≤ s'.next) : Issued s s' [] := ⟨h, by simp, by simp⟩

theorem append (h : Issued s s' names) (h' : Issued s' s'' more) :
    Issued s s'' (names ++ more) where
  le := h.le.trans h'.le
  nodup_serial := by
    rw [List.map_append]
    refine h.nodup_serial.append h'.nodup_serial fun n hn hm => ?_
    obtain ⟨a, ha, rfl⟩ := List.mem_map.mp hn
    obtain ⟨b, hb, heq⟩ := List.mem_map.mp hm
    have := (h.bounds a ha).2
    have := (h'.bounds b hb).1
    omega
  bounds := by
    intro id hid
    rcases List.mem_append.mp hid with hid | hid
    · exact ⟨(h.bounds id hid).1, (h.bounds id hid).2.trans_le h'.le⟩
    · exact ⟨h.le.trans (h'.bounds id hid).1, (h'.bounds id hid).2⟩

theorem perm (h : Issued s s' names) (hp : names.Perm more) : Issued s s' more where
  le := h.le
  nodup_serial := (hp.map serial).nodup_iff.mp h.nodup_serial
  bounds := fun id hid => h.bounds id (hp.mem_iff.mpr hid)

/-- Names that are given up were made nevertheless. -/
theorem sublist (h : Issued s s' names) (hsub : more.Sublist names) : Issued s s' more where
  le := h.le
  nodup_serial := h.nodup_serial.sublist (hsub.map serial)
  bounds := fun id hid => h.bounds id (hsub.subset hid)

end Issued

/-- One name of which the number is known. -/
theorem issued_singleton {s : IdSource} {id : String} (h : serial id = s.next) :
    Issued s ⟨s.next + 1⟩ [id] where
  le := Nat.le_succ _
  nodup_serial := by simp
  bounds := by simp [h]

theorem issued_fresh (s : IdSource) (stem : String) :
    Issued s (s.fresh stem).2 [(s.fresh stem).1] := by
  refine issued_singleton (serial_of_toList (stem.toList ++ ['_']) ?_ ?_)
  · rw [toList_fresh, List.append_assoc, List.singleton_append]
  · simp

/-- A tag that does not end in a digit keeps the number apart. -/
theorem issued_derive (s : IdSource) (parent tag : String)
    (htag : ∀ c ∈ tag.toList.getLast?, c.isDigit = false) :
    Issued s (s.derive parent tag).2 [(s.derive parent tag).1] := by
  refine issued_singleton (serial_of_toList
    ((lineageRoot parent).toList ++ lineageSeparator :: tag.toList) ?_ ?_)
  · rw [toList_derive, List.append_assoc, List.cons_append]
  · intro c hc
    rw [List.getLast?_append, List.getLast?_cons, Option.some_or] at hc
    cases hlast : tag.toList.getLast? with
    | none =>
        rw [hlast] at hc
        cases hc
        rfl
    | some d =>
        rw [hlast] at hc
        cases hc
        exact htag d hlast

end IdSource

end Testwright
