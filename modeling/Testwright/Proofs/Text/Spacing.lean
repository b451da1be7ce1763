import Testwright.Text.Basic
import Testwright.Text.CharClass

/-!
# Texts that differ in their white space

Two texts are alike when they are the same up to the length and the kind of each white space
(`Alike`). Main statements: a text that begins with characters that are not white space is alike
only to texts that begin with them too (`Alike.exists_append`), white space at its beginning stands
for white space (`Alike.exists_gap`), and both texts can be cut at any other character
(`Alike.exists_split`). Texts are taken apart into rows and put together again (`joinRows_rows`,
`rows_joinRows`).
-/

namespace Testwright.Text

/-- The two texts differ at most in how long each white space is, and in which one it is. -/
inductive Alike : List Char → List Char → Prop where
  | nil : Alike [] []
  | same (x : Char) {a b : List Char} (h : Alike a b) : Alike (x :: a) (x :: b)
  | gap {g g' a b : List Char} (hne : g ≠ []) (hg : ∀ x ∈ g, isBlank x = true)
      (hne' : g' ≠ []) (hg' : ∀ x ∈ g', isBlank x = true) (h : Alike a b) :
      Alike (g ++ a) (g' ++ b)

/-- White space, of which there is some. -/
structure IsGap (g : List Char) : Prop where
  ne_nil : g ≠ []
  blank : ∀ x ∈ g, isBlank x = true

theorem isGap_feed : IsGap ['\n'] := ⟨List.cons_ne_nil _ _, List.all_eq_true.mp (by decide)⟩

theorem isGap_space : IsGap [' '] := ⟨List.cons_ne_nil _ _, List.all_eq_true.mp (by decide)⟩

/-- Whether a text begins with white space. -/
def beginsBlank (cs : List Char) : Bool := cs.head?.any isBlank

namespace Alike

variable {g s a b : List Char} {x : Char}

theorem refl (a : List Char) : Alike a a := by
  induction a with
  | nil => exact .nil
  | cons x a ih => exact .same x ih

theorem symm (h : Alike a b) : Alike b a := by
  induction h with
  | nil => exact .nil
  | same x _ ih => exact .same x ih
  | gap hne hg hne' hg' _ ih => exact .gap hne' hg' hne hg ih

theorem append_left (s : List Char) (h : Alike a b) : Alike (s ++ a) (s ++ b) := by
  induction s with
  | nil => exact h
  | cons x s ih => exact .same x ih

/-- White space before white space makes no difference. -/
theorem cons_blank (hx : isBlank x = true) (ha : beginsBlank a = true) (h : Alike a b) :
    Alike (x :: a) b := by
  cases h with
  | nil => cases ha
  | same y h =>
      have hy : isBlank y = true := ha
      exact @gap [x, y] [y] _ _ (by simp) (by simp [hx, hy]) (by simp) (by simp [hy]) h
  | gap hne hg hne' hg' h =>
      exact gap (g := x :: _) (by simp) (by simpa [hx] using hg) hne' hg' h

theorem append_blank (hg : ∀ x ∈ g, isBlank x = true) (ha : beginsBlank a = true)
    (h : Alike a b) : Alike (g ++ a) b := by
  induction g with
  | nil => exact h
  | cons x g ih =>
      have hrest := ih fun y hy => hg y (List.mem_cons_of_mem x hy)
      refine cons_blank (hg x List.mem_cons_self) ?_ hrest
      cases g with
      | nil => exact ha
      | cons y g => exact hg y (by simp)

/-! ## Reading two texts that are alike -/

theorem eq_nil (h : Alike [] b) : b = [] := by
  generalize hcs : [] = a at h
  cases h with
  | nil => rfl
  | same => cases hcs
  | gap hne => exact absurd (List.append_eq_nil_iff.mp hcs.symm).1 hne

theorem exists_cons (hx : isBlank x = false) (h : Alike (x :: a) b) :
    ∃ b', b = x :: b' ∧ Alike a b' := by
  generalize hcs : x :: a = cs at h
  cases h with
  | nil => cases hcs
  | same y h =>
      cases hcs
      exact ⟨_, rfl, h⟩
  | @gap g g' _ _ hne hg _ _ h =>
      -- the text would begin with white space
      cases g with
      | nil => exact absurd rfl hne
      | cons y g =>
          cases hcs
          rw [hg x List.mem_cons_self] at hx
          cases hx

/-- Characters that are not white space are the same in both texts. -/
theorem exists_append (hs : ∀ x ∈ s, isBlank x = false) (h : Alike (s ++ a) b) :
    ∃ b', b = s ++ b' ∧ Alike a b' := by
  induction s generalizing b with
  | nil => exact ⟨b, rfl, h⟩
  | cons x s ih =>
      obtain ⟨b₁, rfl, h₁⟩ := exists_cons (hs x List.mem_cons_self) h
      obtain ⟨b₂, rfl, h₂⟩ := ih (fun y hy => hs y (List.mem_cons_of_mem x hy)) h₁
      exact ⟨b₂, rfl, h₂⟩

/-- Both texts can be cut at a character that is not white space. -/
theorem exists_split (hx : isBlank x = false) (h : Alike (s ++ x :: a) b) :
    ∃ s' a', b = s' ++ x :: a' ∧ Alike s s' ∧ Alike a a' := by
  generalize hcs : s ++ x :: a = cs at h
  induction h generalizing s with
  | nil => exact absurd hcs (by simp)
  | same y h ih =>
      cases s with
      | nil =>
          cases hcs
          exact ⟨[], _, rfl, .nil, h⟩
      | cons z s =>
          obtain ⟨rfl, htail⟩ := List.cons.inj hcs
          obtain ⟨s', a', rfl, hs, ha⟩ := ih htail
          exact ⟨z :: s', a', rfl, .same z hs, ha⟩
  | @gap g g' u v hne hg hne' hg' _ ih =>
      -- the character stands after the white space
      have hsplit : ∃ t, s = g ++ t ∧ t ++ x :: a = u := by
        rcases append_eq_append_cons_iff.mp hcs.symm with ⟨t, rfl, hu⟩ | ⟨t, rfl, -⟩
        · exact ⟨t, rfl, hu.symm⟩
        · rw [hg x (by simp)] at hx
          cases hx
      obtain ⟨t, rfl, ht⟩ := hsplit
      obtain ⟨t', a', rfl, hts, ha⟩ := ih ht
      exact ⟨g' ++ t', a', by simp, .gap hne hg hne' hg' hts, ha⟩

/-- The two texts have the same characters that are not white space. -/
theorem mem_of_mem (hx : isBlank x = false) (h : Alike a b) (hmem : x ∈ a) : x ∈ b := by
  obtain ⟨s, r, rfl⟩ := List.append_of_mem hmem
  obtain ⟨s', r', rfl, -, -⟩ := exists_split hx h
  simp

theorem notMem_iff (hx : isBlank x = false) (h : Alike a b) : x ∉ a ↔ x ∉ b :=
  not_congr ⟨h.mem_of_mem hx, h.symm.mem_of_mem hx⟩

theorem beginsBlank_eq (h : Alike a b) : beginsBlank a = beginsBlank b := by
  cases h with
  | nil => rfl
  | same x h => rfl
  | @gap g g' _ _ hne hg hne' hg' h =>
      obtain ⟨x, g, rfl⟩ := List.exists_cons_of_ne_nil hne
      obtain ⟨y, g', rfl⟩ := List.exists_cons_of_ne_nil hne'
      exact (hg x List.mem_cons_self).trans (hg' y List.mem_cons_self).symm

/-- Where one text begins with another character than white space, or not at all, so does the other. -/
theorem head?_eq_false (h : Alike a b) (ha : ∀ x ∈ a.head?, isBlank x = false) :
    ∀ x ∈ b.head?, isBlank x = false := by
  intro x hx
  have hbegins := h.beginsBlank_eq
  rw [beginsBlank, beginsBlank, Option.mem_def.mp hx] at hbegins
  cases hhead : a.head? with
  | none =>
      rw [hhead] at hbegins
      exact hbegins.symm
  | some y =>
      rw [hhead] at hbegins
      exact hbegins.symm.trans (ha y hhead)

theorem dropBlank (h : Alike a b) : Alike (a.dropWhile isBlank) (b.dropWhile isBlank) := by
  induction h with
  | nil => exact .nil
  | @same x a b h ih =>
      cases hx : isBlank x with
      | true => rwa [List.dropWhile_cons_of_pos hx, List.dropWhile_cons_of_pos hx]
      | false =>
          have hnot : ¬ isBlank x = true := by rw [hx]; exact Bool.false_ne_true
          rw [List.dropWhile_cons_of_neg hnot, List.dropWhile_cons_of_neg hnot]
          exact .same x h
  | gap _ hg _ hg' _ ih =>
      rwa [List.dropWhile_append_of_pos hg, List.dropWhile_append_of_pos hg']

/-- White space at the beginning of a text stands for white space at the beginning of the other. -/
theorem exists_gap (hg : ∀ x ∈ g, isBlank x = true) (ha : ∀ x ∈ a.head?, isBlank x = false)
    (h : Alike (g ++ a) b) :
    ∃ g' b', b = g' ++ b' ∧ (g ≠ [] → g' ≠ []) ∧ (∀ x ∈ g', isBlank x = true) ∧ Alike a b' := by
  have hdrop := h.dropBlank
  have hstop : a.dropWhile isBlank = a := by
    cases a with
    | nil => rfl
    | cons x a => exact List.dropWhile_cons_of_neg (Bool.eq_false_iff.mp (ha x rfl))
  rw [List.dropWhile_append_of_pos hg, hstop] at hdrop
  refine ⟨b.takeWhile isBlank, b.dropWhile isBlank, List.takeWhile_append_dropWhile.symm, ?_,
    List.all_eq_true.mp List.all_takeWhile, hdrop⟩
  intro hne hnone
  obtain ⟨x, g, rfl⟩ := List.exists_cons_of_ne_nil hne
  have hbegins : beginsBlank b = true := h.beginsBlank_eq.symm.trans (hg x List.mem_cons_self)
  cases b with
  | nil => cases hbegins
  | cons y b =>
      have hy : isBlank y = true := hbegins
      rw [List.takeWhile_cons_of_pos hy] at hnone
      cases hnone

/-- Text and the white space after it stand for the same text and white space. -/
theorem exists_append_gap (hs : ∀ x ∈ s, isBlank x = false) (hg : IsGap g)
    (ha : ∀ x ∈ a.head?, isBlank x = false) (h : Alike (s ++ (g ++ a)) b) :
    ∃ g' b', b = s ++ (g' ++ b') ∧ IsGap g' ∧ Alike a b' := by
  obtain ⟨b₁, rfl, h₁⟩ := exists_append hs h
  obtain ⟨g', b', rfl, hne, hblank, hb'⟩ := exists_gap hg.blank ha h₁
  exact ⟨g', b', rfl, ⟨hne hg.ne_nil, hblank⟩, hb'⟩

end Alike

/-! ## Rows -/

/-- Rows, each after a line feed. -/
def feedRows (rs : List (List Char)) : List Char := rs.flatMap fun r => '\n' :: r

theorem joinRows_cons {rest : List (List Char)} (h : rest ≠ []) (r : List Char) :
    joinRows (r :: rest) = r ++ '\n' :: joinRows rest := by
  cases rest with
  | nil => exact absurd rfl h
  | cons _ _ => rfl

theorem feed_joinRows {rs : List (List Char)} (h : rs ≠ []) :
    '\n' :: joinRows rs = feedRows rs := by
  induction rs with
  | nil => exact absurd rfl h
  | cons r rest ih =>
      by_cases hrest : rest = []
      · simp [hrest, joinRows, feedRows]
      · rw [joinRows_cons hrest, ih hrest]
        rfl

theorem splitRows_ne_nil (piece cs : List Char) : splitRows piece cs ≠ [] := by
  rw [← List.length_pos_iff, length_splitRows]
  exact Nat.succ_pos _

theorem joinRows_splitRows (piece cs : List Char) :
    joinRows (splitRows piece cs) = piece.reverse ++ cs := by
  induction cs generalizing piece with
  | nil => simp [splitRows, joinRows]
  | cons c rest ih =>
      rw [splitRows]
      split
      · rename_i hfeed
        rw [joinRows_cons (splitRows_ne_nil [] rest), ih, hfeed]
        rfl
      · simp [ih]

/-- The rows of a text are a text again. -/
theorem joinRows_rows (cs : List Char) : joinRows (rows cs) = cs := joinRows_splitRows [] cs

theorem rows_ne_nil (cs : List Char) : rows cs ≠ [] := splitRows_ne_nil [] cs

theorem feed_notMem_splitRows {piece cs : List Char} (hpiece : '\n' ∉ piece) :
    ∀ r ∈ splitRows piece cs, '\n' ∉ r := by
  induction cs generalizing piece with
  | nil => simpa [splitRows] using hpiece
  | cons c rest ih =>
      intro r hr
      rw [splitRows] at hr
      split at hr
      · rcases List.mem_cons.mp hr with rfl | hr
        · simpa using hpiece
        · exact ih List.not_mem_nil r hr
      · rename_i hfeed
        exact ih (by simp [hpiece, Ne.symm hfeed]) r hr

/-- A row has no line feed. -/
theorem feed_notMem_of_mem_rows {r cs : List Char} (h : r ∈ rows cs) : '\n' ∉ r :=
  feed_notMem_splitRows List.not_mem_nil r h

theorem splitRows_append {r : List Char} (hr : '\n' ∉ r) (piece rest : List Char) :
    splitRows piece (r ++ rest) = splitRows (r.reverse ++ piece) rest := by
  induction r generalizing piece with
  | nil => rfl
  | cons c r ih =>
      obtain ⟨hc, hr⟩ := List.ne_and_not_mem_of_not_mem_cons hr
      rw [List.cons_append, splitRows, if_neg (Ne.symm hc), ih hr]
      simp

/-- Rows that are put together are the rows of the text. -/
theorem rows_joinRows {rs : List (List Char)} (hrs : rs ≠ []) (hrow : ∀ r ∈ rs, '\n' ∉ r) :
    rows (joinRows rs) = rs := by
  induction rs with
  | nil => exact absurd rfl hrs
  | cons r rest ih =>
      obtain ⟨hr, hrest⟩ := List.forall_mem_cons.mp hrow
      show splitRows [] (joinRows (r :: rest)) = r :: rest
      by_cases hlast : rest = []
      · have hend := splitRows_append hr [] []
        rw [hlast, joinRows]
        simpa [splitRows] using hend
      · have hlater : splitRows [] (joinRows rest) = rest := ih hlast hrest
        rw [joinRows_cons hlast, splitRows_append hr, splitRows, if_pos rfl, hlater]
        simp

theorem dropReturn_cases (row : List Char) :
    dropReturn row = row ∨ dropReturn row ++ ['\r'] = row := by
  rw [dropReturn]
  split
  · rename_i hlast
    obtain ⟨s, rfl⟩ := List.getLast?_eq_some_iff.mp hlast
    exact .inr (by rw [List.dropLast_concat])
  · exact .inl rfl

end Testwright.Text
