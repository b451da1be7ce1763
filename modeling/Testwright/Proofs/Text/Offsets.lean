import Testwright.Proofs.Fault
import Testwright.Proofs.Text.Nesting

/-!
# Texts as bytes

A place in a text is a number of bytes. What is nested in a text is nested in its bytes, and the
other way round (`Delimiters.nested_utf8_iff`), since the marks are no parts of other characters.
Main statement: the text between the delimiters at a place is found exactly when its bytes stand
between them and are nested, and a search that goes through the bytes one by one comes to the same
text, without closing more delimiters than it has met and without cutting a character
(`Delimiters.find_iff_enclosed`).
-/

namespace Testwright.Text

open Testwright (Fault)

/-! ## Bytes -/

/-- The bytes of a list of characters. -/
def utf8 (cs : List Char) : List UInt8 := cs.flatMap String.utf8EncodeChar

/-- The bytes of a text. -/
def bytesOf (text : String) : List UInt8 := text.toUTF8.data.toList

theorem bytesOf_eq (text : String) : bytesOf text = utf8 text.toList := by
  have htext : text.toUTF8 = (String.ofList text.toList).toUTF8 := by rw [String.ofList_toList]
  rw [bytesOf, htext, String.toUTF8, String.toByteArray_ofList, List.utf8Encode,
    List.data_toByteArray]
  rfl

variable {c : Char} {a b cs t : List Char} {x : UInt8} {u v : List UInt8}

@[simp] theorem utf8_nil : utf8 [] = [] := rfl

@[simp] theorem utf8_cons : utf8 (c :: cs) = String.utf8EncodeChar c ++ utf8 cs := rfl

@[simp] theorem utf8_append : utf8 (a ++ b) = utf8 a ++ utf8 b := List.flatMap_append

theorem length_utf8 (cs : List Char) : (utf8 cs).length = String.utf8Len cs := by
  induction cs with
  | nil => rfl
  | cons c cs ih =>
      rw [utf8_cons, List.length_append, String.length_utf8EncodeChar, ih, String.utf8Len_cons,
        Nat.add_comm]

/-- One of the first 128 characters is one byte. -/
theorem utf8EncodeChar_of_ascii (hc : c.toNat < 128) : String.utf8EncodeChar c = [c.toUInt8] := by
  have hle : c.val.toNat ≤ 127 := Nat.le_of_lt_succ hc
  rw [String.utf8EncodeChar]
  exact if_pos hle

/-- The bytes of any other character are none of the first 128. -/
theorem of_mem_utf8EncodeChar (hc : 128 ≤ c.toNat) (hx : x ∈ String.utf8EncodeChar c) :
    128 ≤ x.toNat := by
  have hle : ¬ c.val.toNat ≤ 127 := by
    show ¬ c.toNat ≤ 127
    omega
  rw [String.utf8EncodeChar] at hx
  simp only [hle, if_false] at hx
  split at hx
  · simp at hx
    rcases hx with rfl | rfl <;> simp <;> omega
  · split at hx
    · simp at hx
      rcases hx with rfl | rfl | rfl <;> simp <;> omega
    · simp at hx
      rcases hx with rfl | rfl | rfl | rfl <;> simp <;> omega

/-- One of the first 128 bytes is a character, so that the text can be cut there. -/
theorem exists_split_of_ascii (hx : x.toNat < 128) (h : utf8 cs = u ++ x :: v) :
    ∃ a c b, cs = a ++ c :: b ∧ utf8 a = u ∧ utf8 b = v ∧ c.toNat < 128 ∧ c.toUInt8 = x := by
  induction cs generalizing u with
  | nil => simp at h
  | cons c cs ih =>
      have hlater : ∀ {w}, u = String.utf8EncodeChar c ++ w → utf8 cs = w ++ x :: v →
          ∃ a c' b, c :: cs = a ++ c' :: b ∧ utf8 a = u ∧ utf8 b = v ∧ c'.toNat < 128 ∧
            c'.toUInt8 = x := by
        rintro w rfl hw
        obtain ⟨a, c', b, rfl, rfl, rfl, hc', hx'⟩ := ih hw
        exact ⟨c :: a, c', b, rfl, rfl, rfl, hc', hx'⟩
      rw [utf8_cons] at h
      rcases append_eq_append_cons_iff.mp h with ⟨w, hu, hw⟩ | ⟨w, henc, rfl⟩
      · exact hlater hu hw
      · -- the byte is one of those of the first character
        have hmem : x ∈ String.utf8EncodeChar c := by simp [henc]
        have hc : c.toNat < 128 := by
          by_contra hlarge
          have := of_mem_utf8EncodeChar (Nat.le_of_not_lt hlarge) hmem
          omega
        rw [utf8EncodeChar_of_ascii hc] at henc
        cases u with
        | nil =>
            cases henc
            exact ⟨[], c, cs, rfl, rfl, rfl, hc, rfl⟩
        | cons z u => simp at henc

theorem toUInt8_inj {c c' : Char} (hc : c.toNat < 128) (hc' : c'.toNat < 128) :
    c.toUInt8 = c'.toUInt8 ↔ c = c' := by
  refine ⟨fun h => ?_, fun h => h ▸ rfl⟩
  have hnat := congrArg UInt8.toNat h
  have hbyte : ∀ {c : Char}, c.toNat < 128 → c.toUInt8.toNat = c.toNat := fun hlt =>
    Nat.mod_eq_of_lt (Nat.lt_trans hlt (by decide))
  rw [hbyte hc, hbyte hc'] at hnat
  exact Char.toNat_inj.mp hnat

/-! ## Nesting in bytes -/

namespace Delimiters

open Marks (Mode)

/-- The marks of the bytes of a source text. -/
def byteMarks (d : Delimiters) : Marks UInt8 where
  opener := d.opener.toUInt8
  closer := d.closer.toUInt8
  double := '"'.toUInt8
  single := '\''.toUInt8
  escape := '\\'.toUInt8
  nodup := by cases d <;> decide

/-- The mode of a scan of bytes that goes with one of a scan of characters. -/
def byteMode : Mode Char → Mode UInt8
  | .text => .text
  | .literal q => .literal q.toUInt8
  | .escaped q => .escaped q.toUInt8

variable {d : Delimiters} {n : Nat} {p : Nat × Mode Char} {s : List Char}

theorem opener_lt (d : Delimiters) : d.opener.toNat < 128 := by cases d <;> decide

theorem closer_lt (d : Delimiters) : d.closer.toNat < 128 := by cases d <;> decide

theorem isQuote_lt {q : Char} (h : d.marks.IsQuote q) : q.toNat < 128 := by
  rcases h with rfl | rfl
  · exact (by decide : '"'.toNat < 128)
  · exact (by decide : '\''.toNat < 128)

theorem isQuote_toUInt8_iff (hc : c.toNat < 128) :
    d.byteMarks.IsQuote c.toUInt8 ↔ d.marks.IsQuote c :=
  or_congr (toUInt8_inj hc (by decide)) (toUInt8_inj hc (by decide))

theorem isNeutral_of_large (hx : 128 ≤ x.toNat) : d.byteMarks.IsNeutral x := by
  have hne : ∀ {c : Char}, c.toNat < 128 → x ≠ c.toUInt8 := by
    rintro c hc rfl
    have hbyte : c.toUInt8.toNat = c.toNat := Nat.mod_eq_of_lt (Nat.lt_trans hc (by decide))
    omega
  have hquote : ¬ d.byteMarks.IsQuote x :=
    not_or.mpr ⟨hne (c := '"') (by decide), hne (c := '\'') (by decide)⟩
  exact ⟨⟨hne d.opener_lt, hne d.closer_lt, hquote⟩, hne (c := '\\') (by decide)⟩

theorem isNeutral_of_not_ascii (hc : 128 ≤ c.toNat) : d.marks.IsNeutral c := by
  have hne : ∀ {a : Char}, a.toNat < 128 → c ≠ a := by
    rintro a ha rfl
    omega
  have hquote : ¬ d.marks.IsQuote c :=
    not_or.mpr ⟨hne (a := '"') (by decide), hne (a := '\'') (by decide)⟩
  exact ⟨⟨hne d.opener_lt, hne d.closer_lt, hquote⟩, hne (a := '\\') (by decide)⟩

theorem step_toUInt8 (hp : d.marks.HasQuote p.2) (hc : c.toNat < 128) :
    d.byteMarks.step (p.1, byteMode p.2) c.toUInt8 =
      (d.marks.step p c).map fun p' => (p'.1, byteMode p'.2) := by
  obtain ⟨n, mode⟩ := p
  have hopener : c.toUInt8 = d.byteMarks.opener ↔ c = d.marks.opener := toUInt8_inj hc d.opener_lt
  have hcloser : c.toUInt8 = d.byteMarks.closer ↔ c = d.marks.closer := toUInt8_inj hc d.closer_lt
  have hescape : c.toUInt8 = d.byteMarks.escape ↔ c = d.marks.escape :=
    toUInt8_inj hc (by decide)
  cases mode with
  | escaped q => rfl
  | literal q =>
      have hquote : c.toUInt8 = q.toUInt8 ↔ c = q := toUInt8_inj hc (isQuote_lt hp)
      simp only [Marks.step, byteMode, hescape, hquote]
      split
      · rfl
      · split <;> rfl
  | text =>
      simp only [Marks.step, byteMode, hopener, hcloser, isQuote_toUInt8_iff hc]
      split
      · rfl
      · split
        · rfl
        · split
          · cases n <;> rfl
          · rfl

/-- The bytes of a character have the effect of the character. -/
theorem scan_utf8EncodeChar (hp : d.marks.HasQuote p.2) :
    d.byteMarks.scan (p.1, byteMode p.2) (String.utf8EncodeChar c) =
      (d.marks.step p c).map fun p' => (p'.1, byteMode p'.2) := by
  by_cases hc : c.toNat < 128
  · rw [utf8EncodeChar_of_ascii hc, Marks.scan_cons, step_toUInt8 hp hc]
    cases d.marks.step p c <;> rfl
  · have hlarge : 128 ≤ c.toNat := Nat.le_of_not_lt hc
    have hbytes : ∀ x ∈ String.utf8EncodeChar c, d.byteMarks.IsNeutral x := fun x hx =>
      isNeutral_of_large (of_mem_utf8EncodeChar hlarge hx)
    have hquote : d.byteMarks.HasQuote (byteMode p.2) := by
      obtain ⟨n, mode⟩ := p
      cases mode with
      | text => trivial
      | literal q => exact (isQuote_toUInt8_iff (isQuote_lt hp)).mpr hp
      | escaped q => exact (isQuote_toUInt8_iff (isQuote_lt hp)).mpr hp
    rw [Marks.scan_isNeutral hbytes String.utf8EncodeChar_ne_nil hquote,
      Marks.step_isNeutral (isNeutral_of_not_ascii hlarge) hp]
    obtain ⟨n, mode⟩ := p
    cases mode <;> rfl

theorem scan_utf8 (hp : d.marks.HasQuote p.2) :
    d.byteMarks.scan (p.1, byteMode p.2) (utf8 s) =
      (d.marks.scan p s).map fun p' => (p'.1, byteMode p'.2) := by
  induction s generalizing p with
  | nil => rfl
  | cons c s ih =>
      rw [utf8_cons, Marks.scan_append, scan_utf8EncodeChar hp, Marks.scan_cons]
      cases hstep : d.marks.step p c with
      | none => rfl
      | some p' => exact ih (hp.step hstep)

/-- A text is nested when its bytes are. -/
theorem nested_utf8_iff : d.byteMarks.Nested (utf8 s) ↔ d.marks.Nested s := by
  have hscan : d.byteMarks.scan (0, .text) (utf8 s) = _ :=
    scan_utf8 (d := d) (p := (0, .text)) trivial
  rw [Marks.nested_iff_scan, Marks.nested_iff_scan, hscan, Option.map_eq_some_iff]
  constructor
  · rintro ⟨⟨n, mode⟩, h, heq⟩
    cases mode with
    | text =>
        cases heq
        exact h
    | _ => cases heq
  · intro h
    exact ⟨_, h, rfl⟩

end Delimiters

/-! ## Places -/

theorem fromByte_append (a b : List Char) : fromByte (utf8 a).length (a ++ b) = some b := by
  induction a with
  | nil => rw [utf8_nil, List.length_nil, List.nil_append, fromByte]
  | cons c a ih =>
      have hpos := c.utf8Size_pos
      have hlength : (utf8 (c :: a)).length = c.utf8Size + (utf8 a).length := by
        rw [utf8_cons, List.length_append, String.length_utf8EncodeChar]
      obtain ⟨k, hk⟩ : ∃ k, (utf8 (c :: a)).length = k + 1 :=
        Nat.exists_eq_add_one.mpr (by omega)
      have hrest : k + 1 - c.utf8Size = (utf8 a).length := by omega
      rw [hk, List.cons_append, fromByte, if_pos (by omega), hrest, ih]

theorem exists_of_fromByte {k : Nat} (h : fromByte k cs = some b) :
    ∃ a, cs = a ++ b ∧ (utf8 a).length = k := by
  fun_induction fromByte k cs with
  | case1 cs =>
      cases h
      exact ⟨[], rfl, rfl⟩
  | case2 => cases h
  | case3 k c cs hsize ih =>
      obtain ⟨a, rfl, ha⟩ := ih h
      refine ⟨c :: a, rfl, ?_⟩
      rw [utf8_cons, List.length_append, String.length_utf8EncodeChar]
      omega
  | case4 => cases h

/-! ## A search through the bytes -/

/-- Why a search for a closing delimiter cannot go on. -/
inductive SearchFault where
  /-- More delimiters are closed than were opened. -/
  | belowZero
  /-- What was found is no piece of the text. -/
  | noPiece (fault : Fault)

/-- What a search keeps: the number of open delimiters, the quote of the literal that it is in, and
whether the escape sign of the literal was the last sign. -/
structure Search (α : Type) where
  depth : Nat
  quote : Option α
  escaped : Bool

namespace Marks

section

variable {α : Type} [DecidableEq α]

/-- The place of the sign that closes the first delimiter, `i` being the place of the first sign. -/
def findCloser (m : Marks α) : (i : Nat) → Search α → List α → Except SearchFault (Option Nat)
  | _, _, [] => .ok none
  | i, ⟨depth, some q, escaped⟩, x :: rest =>
    if escaped then m.findCloser (i + 1) ⟨depth, some q, false⟩ rest
    else if x = m.escape then m.findCloser (i + 1) ⟨depth, some q, true⟩ rest
    else if x = q then m.findCloser (i + 1) ⟨depth, none, false⟩ rest
    else m.findCloser (i + 1) ⟨depth, some q, false⟩ rest
  | i, ⟨depth, none, escaped⟩, x :: rest =>
    if m.IsQuote x then m.findCloser (i + 1) ⟨depth, some x, escaped⟩ rest
    else if x = m.opener then m.findCloser (i + 1) ⟨depth + 1, none, escaped⟩ rest
    else if x = m.closer then
      match depth with
      | 0 => .error .belowZero
      | 1 => .ok (some i)
      | depth + 2 => m.findCloser (i + 1) ⟨depth + 1, none, escaped⟩ rest
    else m.findCloser (i + 1) ⟨depth, none, escaped⟩ rest

/-- A search inside of the first delimiter, as a scan. -/
def searchOf : Nat × Mode α → Search α
  | (n, .text) => ⟨n + 1, none, false⟩
  | (n, .literal q) => ⟨n + 1, some q, false⟩
  | (n, .escaped q) => ⟨n + 1, some q, true⟩

variable {m : Marks α} {x : α} {s : List α} {i : Nat} {p : Nat × Mode α}

/-- The search is at its end, or it goes on as the scan does. -/
theorem findCloser_step (i : Nat) (p : Nat × Mode α) (x : α) (s : List α) :
    (p = (0, .text) ∧ x = m.closer ∧ m.findCloser i (searchOf p) (x :: s) = .ok (some i)) ∨
      ((p = (0, .text) → x ≠ m.closer) ∧ ∃ p', m.step p x = some p' ∧
        m.findCloser i (searchOf p) (x :: s) = m.findCloser (i + 1) (searchOf p') s) := by
  obtain ⟨n, mode⟩ := p
  cases mode with
  | escaped q => exact .inr ⟨by simp, _, rfl, by simp [searchOf, findCloser]⟩
  | literal q =>
      refine .inr ⟨by simp, _, rfl, ?_⟩
      simp only [searchOf, findCloser]
      by_cases hescape : x = m.escape
      · simp [hescape]
      · by_cases hq : x = q
        · simp [hq, hq ▸ hescape]
        · simp [hq, hescape]
  | text =>
      rcases m.kinds x with hquote | rfl | rfl | hplain
      · refine .inr ⟨fun _ h => m.not_isQuote_closer (h ▸ hquote), _, step_isQuote hquote, ?_⟩
        simp [searchOf, findCloser, hquote]
      · refine .inr ⟨fun _ => m.opener_ne_closer, _, step_opener, ?_⟩
        simp [searchOf, findCloser, m.not_isQuote_opener]
      · cases n with
        | zero =>
            refine .inl ⟨rfl, rfl, ?_⟩
            simp [searchOf, findCloser, m.not_isQuote_closer, m.opener_ne_closer.symm]
        | succ n =>
            refine .inr ⟨by simp, _, step_closer, ?_⟩
            simp [searchOf, findCloser, m.not_isQuote_closer, m.opener_ne_closer.symm]
      · refine .inr ⟨fun _ => hplain.2.1, _, step_isPlain hplain, ?_⟩
        simp [searchOf, findCloser, hplain.1, hplain.2.1, hplain.2.2]

/-- A search meets no fault. It ends at a closing delimiter before which the scan has closed all
delimiters, or there is no such delimiter. -/
theorem findCloser_cases (i : Nat) (p : Nat × Mode α) (s : List α) :
    (∃ t rest, s = t ++ m.closer :: rest ∧ m.scan p t = some (0, .text) ∧
        m.findCloser i (searchOf p) s = .ok (some (i + t.length))) ∨
      ((∀ t rest, s = t ++ m.closer :: rest → m.scan p t ≠ some (0, .text)) ∧
        m.findCloser i (searchOf p) s = .ok none) := by
  induction s generalizing i p with
  | nil =>
      refine .inr ⟨by simp, ?_⟩
      obtain ⟨n, mode⟩ := p
      cases mode <;> simp [findCloser]
  | cons x s ih =>
      rcases m.findCloser_step i p x s with ⟨rfl, rfl, hend⟩ | ⟨hne, p', hstep, hgo⟩
      · exact .inl ⟨[], s, rfl, rfl, hend⟩
      rw [hgo]
      rcases ih (i + 1) p' with ⟨t, rest, rfl, ht, hfound⟩ | ⟨hnone, hfound⟩
      · refine .inl ⟨x :: t, rest, rfl, ?_, ?_⟩
        · rw [scan_cons, hstep, Option.bind_some, ht]
        · rw [hfound, List.length_cons, Nat.add_assoc, Nat.add_comm 1]
      · refine .inr ⟨fun t rest heq => ?_, hfound⟩
        cases t with
        | nil =>
            cases heq
            intro h
            cases h
            exact hne rfl rfl
        | cons y t =>
            cases heq
            rw [scan_cons, hstep, Option.bind_some]
            exact hnone t rest rfl

end

end Marks

/-! ## The text between the delimiters -/

/-- The piece of a text between two places, where this is one. -/
def slice (start stop : Nat) (text : String) : Except Fault String := do
  Testwright.check (start ≤ stop) .outOfBounds
  let (_, rest) ← Checked.cut start text.toList
  let (inner, _) ← Checked.cut (stop - start) rest
  pure (String.ofList inner)

theorem slice_append (a b rest : List Char) :
    slice (utf8 a).length ((utf8 a).length + (utf8 b).length) (String.ofList (a ++ (b ++ rest))) =
      .ok (String.ofList b) := by
  rw [slice, check_bind (Nat.le_add_right _ _), String.toList_ofList, length_utf8,
    Checked.cut_append, ok_bind]
  simp only
  rw [length_utf8, Nat.add_sub_cancel_left, Checked.cut_append, ok_bind]
  rfl

namespace Delimiters

variable {d : Delimiters} {text inner : String} {offset : Nat} {s : List UInt8}

/-- The text between the delimiters that open at a place. -/
def find : Delimiters → String → Nat → Option String
  | parens => balancedParens
  | braces => balancedBraces

/-- The bytes between the delimiters that open at a place. -/
def EnclosedAt (d : Delimiters) (text : String) (offset : Nat) (s : List UInt8) : Prop :=
  ∃ rest, (bytesOf text).drop offset = d.byteMarks.opener :: (s ++ d.byteMarks.closer :: rest) ∧
    d.byteMarks.Nested s

/-- The same text, by a search through the bytes from the opening delimiter on. -/
def checkedFind (d : Delimiters) (text : String) (offset : Nat) :
    Except SearchFault (Option String) := do
  if (bytesOf text)[offset]? ≠ some d.byteMarks.opener then return none
  match ← d.byteMarks.findCloser offset ⟨0, none, false⟩ ((bytesOf text).drop offset) with
  | none => return none
  | some stop => (slice (offset + 1) stop text).map some |>.mapError .noPiece

theorem find_eq (d : Delimiters) (text : String) (offset : Nat) :
    d.find text offset =
      ((fromByte offset text.toList).bind (balanced d.opener d.closer)).map String.ofList := by
  cases d <;> rfl

/-! ### From an opening delimiter on -/

/-- Where the byte of an opening delimiter is, the text can be cut. -/
theorem exists_split_of_opener (h : (bytesOf text)[offset]? = some d.byteMarks.opener) :
    ∃ a b, text.toList = a ++ d.opener :: b ∧ (utf8 a).length = offset := by
  obtain ⟨hlt, hget⟩ := List.getElem?_eq_some_iff.mp h
  have hbytes : utf8 text.toList =
      (bytesOf text).take offset ++ d.byteMarks.opener :: (bytesOf text).drop (offset + 1) := by
    rw [← hget, ← List.drop_eq_getElem_cons hlt, List.take_append_drop, bytesOf_eq]
  have hascii : d.byteMarks.opener.toNat < 128 := by cases d <;> decide
  obtain ⟨a, c, b, hcs, ha, -, hc, hopener⟩ := exists_split_of_ascii hascii hbytes
  refine ⟨a, b, ?_, ?_⟩
  · rw [hcs, (toUInt8_inj hc d.opener_lt).mp hopener]
  · rw [ha, List.length_take, Nat.min_eq_left (Nat.le_of_lt hlt)]

section

variable (hcs : text.toList = a ++ d.opener :: b)

include hcs

theorem drop_bytesOf :
    (bytesOf text).drop (utf8 a).length = d.byteMarks.opener :: utf8 b := by
  rw [bytesOf_eq, hcs, utf8_append, List.drop_left, utf8_cons, utf8EncodeChar_of_ascii d.opener_lt]
  rfl

theorem find_of_split :
    d.find text (utf8 a).length =
      (closeAfter d.opener d.closer b).map fun found => String.ofList found.1 := by
  rw [find_eq, hcs, fromByte_append, Option.bind_some, balanced, if_pos rfl, Option.map_map]
  rfl

theorem find_eq_some_iff :
    d.find text (utf8 a).length = some inner ↔
      ∃ t rest, b = t ++ d.closer :: rest ∧ d.marks.Nested t ∧ String.ofList t = inner := by
  rw [find_of_split hcs, Option.map_eq_some_iff]
  constructor
  · rintro ⟨⟨t, rest⟩, hfound, hinner⟩
    obtain ⟨hb, ht⟩ := closeAfter_eq_some_iff.mp hfound
    exact ⟨t, rest, hb, ht, hinner⟩
  · rintro ⟨t, rest, hb, ht, hinner⟩
    exact ⟨(t, rest), closeAfter_eq_some_iff.mpr ⟨hb, ht⟩, hinner⟩

/-- A closing byte that the scan comes to is a closing character. -/
theorem exists_of_utf8_eq {rest : List UInt8} (h : utf8 b = s ++ d.byteMarks.closer :: rest)
    (hs : d.byteMarks.Nested s) :
    ∃ t r, b = t ++ d.closer :: r ∧ d.marks.Nested t ∧ utf8 t = s := by
  have hascii : d.byteMarks.closer.toNat < 128 := by cases d <;> decide
  obtain ⟨t, c, r, hb, rfl, -, hc, hcloser⟩ := exists_split_of_ascii hascii h
  refine ⟨t, r, ?_, nested_utf8_iff.mp hs, rfl⟩
  rw [hb, (toUInt8_inj hc d.closer_lt).mp hcloser]

theorem enclosedAt_iff :
    d.EnclosedAt text (utf8 a).length s ↔
      ∃ inner, d.find text (utf8 a).length = some inner ∧ bytesOf inner = s := by
  rw [EnclosedAt, drop_bytesOf hcs]
  constructor
  · rintro ⟨rest, heq, hs⟩
    obtain ⟨t, r, hb, ht, rfl⟩ := exists_of_utf8_eq hcs (List.cons.inj heq).2 hs
    refine ⟨String.ofList t, (find_eq_some_iff hcs).mpr ⟨t, r, hb, ht, rfl⟩, ?_⟩
    rw [bytesOf_eq, String.toList_ofList]
  · rintro ⟨inner, hfound, rfl⟩
    obtain ⟨t, r, rfl, ht, rfl⟩ := (find_eq_some_iff hcs).mp hfound
    rw [bytesOf_eq, String.toList_ofList]
    refine ⟨utf8 r, ?_, nested_utf8_iff.mpr ht⟩
    rw [utf8_append, utf8_cons, utf8EncodeChar_of_ascii d.closer_lt]
    rfl

/-- The search meets no fault, and what it finds is a piece of the text. -/
theorem checkedFind_of_split :
    d.checkedFind text (utf8 a).length = .ok (d.find text (utf8 a).length) := by
  have hdrop := drop_bytesOf hcs
  have hopener : (bytesOf text)[(utf8 a).length]? = some d.byteMarks.opener := by
    rw [← List.head?_drop, hdrop, List.head?_cons]
  have hfirst : d.byteMarks.findCloser (utf8 a).length ⟨0, none, false⟩
      (d.byteMarks.opener :: utf8 b) =
        d.byteMarks.findCloser ((utf8 a).length + 1) (Marks.searchOf (0, .text)) (utf8 b) := by
    simp [Marks.findCloser, Marks.searchOf, d.byteMarks.not_isQuote_opener]
  rw [checkedFind, if_neg (not_not.mpr hopener), hdrop, hfirst]
  rcases d.byteMarks.findCloser_cases ((utf8 a).length + 1) (0, .text) (utf8 b) with
    ⟨s, rest, hb, hs, hstop⟩ | ⟨hnone, hstop⟩
  · obtain ⟨t, r, rfl, ht, rfl⟩ := exists_of_utf8_eq hcs hb (Marks.nested_iff_scan.mpr hs)
    have hfound := (find_eq_some_iff hcs).mpr ⟨t, r, rfl, ht, rfl⟩
    have hlength : (utf8 a).length + 1 = (utf8 (a ++ [d.opener])).length := by
      rw [utf8_append, utf8_cons, utf8EncodeChar_of_ascii d.opener_lt]
      simp
    have htext : text = String.ofList ((a ++ [d.opener]) ++ (t ++ d.closer :: r)) := by
      rw [List.append_assoc, List.singleton_append, ← hcs, String.ofList_toList]
    have hslice : slice ((utf8 a).length + 1) ((utf8 a).length + 1 + (utf8 t).length) text =
        .ok (String.ofList t) := by
      rw [hlength, htext, slice_append]
    rw [hstop, hfound]
    show ((slice ((utf8 a).length + 1) ((utf8 a).length + 1 + (utf8 t).length) text).map
      some).mapError SearchFault.noPiece = _
    rw [hslice]
    rfl
  · have hmissing : d.find text (utf8 a).length = none := by
      refine Option.eq_none_iff_forall_ne_some.mpr fun inner hfound => ?_
      obtain ⟨s, hs⟩ : ∃ s, bytesOf inner = s := ⟨_, rfl⟩
      obtain ⟨rest, heq, hnested⟩ := (enclosedAt_iff hcs).mpr ⟨inner, hfound, hs⟩
      rw [hdrop] at heq
      exact hnone s rest (List.cons.inj heq).2 (Marks.nested_iff_scan.mp hnested)
    rw [hstop, hmissing]
    rfl

end

/-- Nothing is found where there is no opening delimiter. -/
theorem find_eq_none (h : (bytesOf text)[offset]? ≠ some d.byteMarks.opener) :
    d.find text offset = none := by
  rw [find_eq]
  cases hfrom : fromByte offset text.toList with
  | none => rfl
  | some cs =>
      obtain ⟨a, hcs, rfl⟩ := exists_of_fromByte hfrom
      cases cs with
      | nil => rfl
      | cons c b =>
          have hne : c ≠ d.opener := by
            rintro rfl
            have hdrop := drop_bytesOf hcs
            rw [← List.head?_drop, hdrop] at h
            exact h rfl
          rw [Option.bind_some, balanced, if_neg hne]
          rfl

/-! ### At any place -/

/-- **The text between two delimiters.** A text is found at a place exactly when its bytes are
nested and stand, from that place on, between an opening and a closing delimiter. There is at most
one such text, and where there is none, nothing is found. The search through the bytes comes to the
same: it never closes a delimiter that was not opened, and what it cuts out is a piece of the text
at whole characters. -/
theorem find_iff_enclosed (d : Delimiters) (text : String) (offset : Nat) :
    (∀ s, (∃ inner, d.find text offset = some inner ∧ bytesOf inner = s) ↔
        d.EnclosedAt text offset s) ∧
      (∀ s s', d.EnclosedAt text offset s → d.EnclosedAt text offset s' → s = s') ∧
      (d.find text offset = none ↔ ∀ s, ¬ d.EnclosedAt text offset s) ∧
      d.checkedFind text offset = .ok (d.find text offset) := by
  have hboth : (∀ s, d.EnclosedAt text offset s ↔
        ∃ inner, d.find text offset = some inner ∧ bytesOf inner = s) ∧
      d.checkedFind text offset = .ok (d.find text offset) := by
    by_cases hopener : (bytesOf text)[offset]? = some d.byteMarks.opener
    · obtain ⟨a, b, hcs, rfl⟩ := exists_split_of_opener hopener
      exact ⟨fun s => enclosedAt_iff hcs, checkedFind_of_split hcs⟩
    · have hnone := find_eq_none hopener
      refine ⟨fun s => ⟨?_, ?_⟩, ?_⟩
      · rintro ⟨rest, heq, -⟩
        exact absurd (by rw [← List.head?_drop, heq]; rfl) hopener
      · rintro ⟨inner, hfound, -⟩
        rw [hnone] at hfound
        cases hfound
      · rw [checkedFind, if_pos hopener, hnone]
        rfl
  obtain ⟨hiff, hchecked⟩ := hboth
  refine ⟨fun s => (hiff s).symm, fun s s' hs hs' => ?_, ⟨fun hnone s hs => ?_, fun h => ?_⟩,
    hchecked⟩
  · obtain ⟨inner, hfound, rfl⟩ := (hiff s).mp hs
    obtain ⟨inner', hfound', rfl⟩ := (hiff s').mp hs'
    rw [hfound] at hfound'
    rw [Option.some.inj hfound']
  · obtain ⟨inner, hfound, -⟩ := (hiff s).mp hs
    rw [hnone] at hfound
    cases hfound
  · refine Option.eq_none_iff_forall_ne_some.mpr fun inner hfound => ?_
    exact h _ ((hiff _).mpr ⟨inner, hfound, rfl⟩)

end Delimiters

end Testwright.Text
