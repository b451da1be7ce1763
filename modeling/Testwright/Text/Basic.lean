import Testwright.Text.CharClass

/-!
# Text

Operations on text as a list of characters: trimming, splitting into lines, searching for a
substring and replacing its first occurrence.
-/

namespace Testwright.Text

/-- The text without the white space at its ends. -/
def trim (cs : List Char) : List Char :=
  ((cs.dropWhile isBlank).reverse.dropWhile isBlank).reverse

/-- Whether there is nothing but white space. -/
def isBlankText (cs : List Char) : Bool := cs.all isBlank

/-- The pieces between line feeds: always at least one. `piece` holds the piece under way, last
character first. -/
def splitRows (piece : List Char) : List Char → List (List Char)
  | [] => [piece.reverse]
  | c :: rest =>
    if c = '\n' then piece.reverse :: splitRows [] rest else splitRows (c :: piece) rest

/-- The rows of a text: the pieces between its line feeds. An empty text has one empty row. -/
def rows (cs : List Char) : List (List Char) := splitRows [] cs

/-- Rows written one after another with line feeds between them. -/
def joinRows : List (List Char) → List Char
  | [] => []
  | [r] => r
  | r :: rest => r ++ '\n' :: joinRows rest

/-- A row without one carriage return at its end. -/
def dropReturn (row : List Char) : List Char :=
  if row.getLast? = some '\r' then row.dropLast else row

/-- The lines of a text: its rows, each without the carriage return before its line feed, and
without an empty last row. -/
def lines (cs : List Char) : List (List Char) :=
  let all := rows cs
  let last := all.getLastD []
  all.dropLast.map dropReturn ++ if last = [] then [] else [last]

/-- The number of rows. -/
def rowCount (cs : List Char) : Nat := cs.count '\n' + 1

theorem length_splitRows (piece cs : List Char) : (splitRows piece cs).length = rowCount cs := by
  induction cs generalizing piece with
  | nil => rfl
  | cons c rest ih =>
    rw [splitRows, rowCount, List.count_cons, ← Nat.add_right_comm, ← rowCount]
    split
    · rename_i hfeed
      rw [List.length_cons, ih, hfeed]
      rfl
    · rename_i hfeed
      rw [ih, if_neg (by simpa using hfeed), Nat.add_zero]

theorem length_rows (cs : List Char) : (rows cs).length = rowCount cs := length_splitRows [] cs

/-- Whether `needle` occurs in the text. -/
def contains (needle : List Char) : List Char → Bool
  | [] => needle.isEmpty
  | c :: rest => needle.isPrefixOf (c :: rest) || contains needle rest

theorem contains_iff_isInfix {needle cs : List Char} :
    contains needle cs = true ↔ needle <:+: cs := by
  induction cs with
  | nil => rw [contains, List.isEmpty_iff, List.infix_nil]
  | cons c rest ih =>
    rw [contains, Bool.or_eq_true, List.isPrefixOf_iff_prefix, ih, List.infix_cons_iff]

/-- The text with the first occurrence of a nonempty `needle` replaced; unchanged when there is
none. `before` holds the text passed over, last character first. -/
def replaceFirstFrom (needle replacement before : List Char) : List Char → List Char
  | [] => before.reverse
  | c :: rest =>
    if needle.isPrefixOf (c :: rest) then
      before.reverse ++ replacement ++ (c :: rest).drop needle.length
    else replaceFirstFrom needle replacement (c :: before) rest

/-- The text with the first occurrence of a nonempty `needle` replaced. -/
def replaceFirst (needle replacement cs : List Char) : List Char :=
  replaceFirstFrom needle replacement [] cs

theorem replaceFirstFrom_cases (needle replacement before cs : List Char) :
    replaceFirstFrom needle replacement before cs = before.reverse ++ cs ∨
      ∃ u v, cs = u ++ (needle ++ v) ∧
        replaceFirstFrom needle replacement before cs =
          before.reverse ++ (u ++ (replacement ++ v)) := by
  induction cs generalizing before with
  | nil => exact .inl (List.append_nil _).symm
  | cons c rest ih =>
      rw [replaceFirstFrom]
      split
      · rename_i hprefix
        obtain ⟨v, hv⟩ := List.isPrefixOf_iff_prefix.mp hprefix
        refine .inr ⟨[], v, hv.symm, ?_⟩
        rw [← hv, List.drop_left, List.append_assoc]
        rfl
      · rcases ih (c :: before) with hsame | ⟨u, v, rfl, hreplaced⟩
        · exact .inl (by rw [hsame, List.reverse_cons, List.append_assoc]; rfl)
        · refine .inr ⟨c :: u, v, rfl, ?_⟩
          rw [hreplaced, List.reverse_cons, List.append_assoc]
          rfl

/-- A text stays as it is, or the needle in it is replaced once. -/
theorem replaceFirst_cases (needle replacement cs : List Char) :
    replaceFirst needle replacement cs = cs ∨
      ∃ u v, cs = u ++ (needle ++ v) ∧
        replaceFirst needle replacement cs = u ++ (replacement ++ v) :=
  replaceFirstFrom_cases needle replacement [] cs

/-- Whether the text starts and ends with a character, as two different ones of it. -/
def isEnclosedBy (c : Char) (cs : List Char) : Bool :=
  2 ≤ cs.length && cs.head? == some c && cs.getLast? == some c

/-- The text without its first and last character. -/
def inside (cs : List Char) : List Char := cs.tail.dropLast

/-! ## Two parts of a text -/

variable {α : Type} {s r u v : List α} {x : α}

/-- An element of a list put together from two stands in the second or in the first of them. -/
theorem append_eq_append_cons_iff :
    s ++ r = u ++ x :: v ↔
      (∃ w, u = s ++ w ∧ r = w ++ x :: v) ∨ ∃ w, s = u ++ x :: w ∧ v = w ++ r := by
  constructor
  · intro h
    rcases List.append_eq_append_iff.mp h with ⟨w, hu, hr⟩ | ⟨w, hs, hv⟩
    · exact .inl ⟨w, hu, hr⟩
    · cases w with
      | nil => exact .inl ⟨[], by rw [hs, List.append_nil, List.append_nil], hv.symm⟩
      | cons y w =>
          obtain ⟨rfl, hw⟩ := List.cons.inj hv
          exact .inr ⟨w, hs, hw⟩
  · rintro (⟨w, rfl, rfl⟩ | ⟨w, rfl, rfl⟩)
    · exact (List.append_assoc s w _).symm
    · exact List.append_assoc u (x :: w) r

/-- An element that is not in the second part stands in the first one. -/
theorem exists_append_of_notMem (hx : x ∉ r) (h : s ++ r = u ++ x :: v) :
    ∃ w, s = u ++ x :: w ∧ v = w ++ r := by
  refine (append_eq_append_cons_iff.mp h).resolve_left ?_
  rintro ⟨w, -, rfl⟩
  exact hx (List.mem_append_right w List.mem_cons_self)

/-- A beginning of a text without the character `x` ends before it. -/
theorem prefix_of_notMem (hx : x ∉ s) (h : s <+: u ++ x :: v) : s <+: u := by
  obtain ⟨r, hr⟩ := h
  rcases append_eq_append_cons_iff.mp hr with ⟨w, hu, -⟩ | ⟨w, rfl, -⟩
  · exact ⟨w, hu.symm⟩
  · exact absurd (List.mem_append_right u List.mem_cons_self) hx

/-- What lacks an element occurs on one side of it. -/
theorem infix_append_cons_iff (hx : x ∉ s) : s <:+: u ++ x :: v ↔ s <:+: u ∨ s <:+: v := by
  constructor
  · rintro ⟨p, q, h⟩
    rw [List.append_assoc] at h
    rcases append_eq_append_cons_iff.mp h with ⟨w, rfl, hw⟩ | ⟨w, -, rfl⟩
    · obtain ⟨t, rfl⟩ := prefix_of_notMem hx ⟨q, hw⟩
      exact .inl ⟨p, t, List.append_assoc _ _ _⟩
    · exact .inr ⟨w, q, List.append_assoc _ _ _⟩
  · rintro (h | h)
    · exact h.trans (List.prefix_append u (x :: v)).isInfix
    · exact h.trans ((List.suffix_cons x v).trans (List.suffix_append u (x :: v))).isInfix

/-- A text can be cut in one way only at the first occurrence of an element. -/
theorem append_cons_inj (hs : x ∉ s) (hu : x ∉ u) (h : s ++ x :: r = u ++ x :: v) :
    s = u ∧ r = v := by
  have hle : s <+: u := prefix_of_notMem hs ⟨x :: r, h⟩
  have hge : u <+: s := prefix_of_notMem hu ⟨x :: v, h.symm⟩
  obtain rfl := hle.eq_of_length (Nat.le_antisymm hle.length_le hge.length_le)
  exact ⟨rfl, (List.cons.inj (List.append_cancel_left h)).2⟩

end Testwright.Text
