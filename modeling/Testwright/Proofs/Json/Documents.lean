import Testwright.Json.Parser
import Testwright.Proofs.Json.Tokens

/-!
# Documents read back

A document whose strings are texts and whose numbers are well formed is read from its own text
(`Writable.parse_render`). The tokens that it is written with stand between: the text consists of
them (`Writable.spelled`), and the document is built from them (`ofTokens_tokens`).
-/

namespace Testwright.Json

/-! ## The tokens of a document -/

mutual

/-- The tokens of a document, followed by others. -/
def tokens : Json → List Token → List Token
  | .null, tail => .null :: tail
  | .bool b, tail => .bool b :: tail
  | .number n, tail => .number n :: tail
  | .string s, tail => .string s :: tail
  | .array [], tail => .openArray :: .closeArray :: tail
  | .array (v :: items), tail => .openArray :: tokens v (itemTokens items tail)
  | .object [], tail => .openObject :: .closeObject :: tail
  | .object ((k, v) :: members), tail =>
    .openObject :: .string k :: .colon :: tokens v (memberTokens members tail)

/-- The tokens of the items of an array after the first, and of its end. -/
def itemTokens : List Json → List Token → List Token
  | [], tail => .closeArray :: tail
  | v :: items, tail => .comma :: tokens v (itemTokens items tail)

/-- The tokens of the members of an object after the first, and of its end. -/
def memberTokens : List (Option String × Json) → List Token → List Token
  | [], tail => .closeObject :: tail
  | (k, v) :: members, tail => .comma :: .string k :: .colon :: tokens v (memberTokens members tail)

end

/-! ## From tokens to documents -/

namespace Reading

/-- The first item of an array is read as any other document. -/
theorem run_firstItem (v : Json) (stack : List Frame) (tail : List Token) :
    (firstItem stack).run (v.tokens tail) = (value (.items [] :: stack)).run (v.tokens tail) := by
  unfold tokens
  split <;> rfl

mutual

/-- A document is built from its tokens, whatever is open around it. -/
theorem run_tokens (v : Json) (stack : List Frame) (tail : List Token) :
    (value stack).run (v.tokens tail) = (put v stack).run tail := by
  match v with
  | .null | .bool _ | .number _ | .string _ | .array [] | .object [] => rfl
  | .array (v :: items) =>
      show (firstItem stack).run (v.tokens (itemTokens items tail)) = _
      rw [run_firstItem, run_tokens v]
      exact run_itemTokens items [v] stack tail
  | .object ((k, v) :: members) =>
      show (value (.members [] k :: stack)).run (v.tokens (memberTokens members tail)) = _
      rw [run_tokens v]
      exact run_memberTokens members [(k, v)] k stack tail

theorem run_itemTokens (items done : List Json) (stack : List Frame) (tail : List Token) :
    (next (.items done :: stack)).run (itemTokens items tail) =
      (put (.array (done.reverse ++ items)) stack).run tail := by
  match items with
  | [] =>
      rw [List.append_nil]
      rfl
  | v :: items =>
      show (value (.items done :: stack)).run (v.tokens (itemTokens items tail)) = _
      rw [run_tokens v, List.append_cons, ← List.reverse_cons]
      exact run_itemTokens items (v :: done) stack tail

theorem run_memberTokens (members done : List (Option String × Json)) (k : Option String)
    (stack : List Frame) (tail : List Token) :
    (next (.members done k :: stack)).run (memberTokens members tail) =
      (put (.object (done.reverse ++ members)) stack).run tail := by
  match members with
  | [] =>
      rw [List.append_nil]
      rfl
  | (l, v) :: members =>
      show (value (.members done l :: stack)).run (v.tokens (memberTokens members tail)) = _
      rw [run_tokens v, List.append_cons, ← List.reverse_cons]
      exact run_memberTokens members ((l, v) :: done) l stack tail

end

end Reading

/-- The tokens of a document form the document. -/
theorem ofTokens_tokens (v : Json) : ofTokens (v.tokens []) = some v := by
  rw [ofTokens, Reading.run_tokens]
  rfl

/-! ## Integers -/

/-- Only zero begins with a zero. -/
theorem head?_toDigits {n : Nat} (h : 0 < n) : ∀ c ∈ (Nat.toDigits 10 n).head?, c ≠ '0' := by
  induction n using Nat.strongRecOn with
  | ind n ih =>
      intro c hc
      rw [Nat.toDigits_eq_if (by decide)] at hc
      split at hc
      · cases hc
        simpa using Nat.ne_of_gt h
      · refine ih (n / 10) (by omega) (by omega) c ?_
        obtain ⟨d, ds, hds⟩ :=
          List.exists_cons_of_ne_nil (Nat.toDigits_ne_nil (n := n / 10) (b := 10))
        rw [hds] at hc ⊢
        exact hc

theorem wholeAllowed_toDigits (n : Nat) : wholeAllowed (Nat.toDigits 10 n) = true := by
  rcases Nat.eq_zero_or_pos n with rfl | hn
  · rfl
  · have hhead := head?_toDigits hn
    obtain ⟨d, ds, hds⟩ := List.exists_cons_of_ne_nil (Nat.toDigits_ne_nil (n := n) (b := 10))
    rw [hds] at hhead ⊢
    have hd := hhead d rfl
    unfold wholeAllowed
    split
    · contradiction
    · rfl
    · rename_i heq
      cases heq
      exact bne_iff_ne.mpr hd

/-- Integers are written as well-formed numbers. -/
theorem wellFormed_int (n : Int) :
    Number.WellFormed ⟨n < 0, Nat.toDigits 10 n.natAbs, [], none⟩ where
  whole_allowed := wholeAllowed_toDigits n.natAbs
  whole_digits := fun _ hc => Nat.isDigit_of_mem_toDigits (by decide) (by decide) hc
  fraction_digits := fun _ hc => by cases hc
  exponent_ne_nil := fun _ he => by cases he
  exponent_digits := fun _ he => by cases he

/-! ## From text to tokens -/

/-- All strings of a document are texts, and all its numbers are well formed. -/
inductive Writable : Json → Prop
  | null : Writable .null
  | bool (b : Bool) : Writable (.bool b)
  | number {n : Number} : n.WellFormed → Writable (.number n)
  | text (s : String) : Writable (.text s)
  | array {items : List Json} : (∀ v ∈ items, Writable v) → Writable (.array items)
  | object {members : List (Option String × Json)} : (∀ m ∈ members, m.1.isSome = true) →
      (∀ m ∈ members, Writable m.2) → Writable (.object members)

/-- The text of a document consists of its tokens, whatever follows that ends a number. -/
def Spelled (v : Json) : Prop :=
  ∀ tail ts, EndsNumber tail → ConsistsOf tail ts → ConsistsOf (v.write tail) (v.tokens ts)

section

variable {tail : List Char} {ts : List Token}

/-- A bracket, a comma or a colon in front of a text. -/
theorem ConsistsOf.mark {c : Char} {t : Token} (h : ConsistsOf tail ts)
    (hspace : isSpace c = false) (hscan : scanToken c tail = some (t, tail)) :
    ConsistsOf (c :: tail) (t :: ts) :=
  .cons hspace hscan (List.suffix_refl tail) h

theorem endsNumber_writeItems (items : List Json) (tail : List Char) :
    EndsNumber (writeItems items tail) := by
  cases items with
  | nil => rintro c ⟨⟩; decide
  | cons v items => rintro c ⟨⟩; decide

theorem endsNumber_writeMembers (members : List (Option String × Json)) (tail : List Char) :
    EndsNumber (writeMembers members tail) := by
  cases members with
  | nil => rintro c ⟨⟩; decide
  | cons m members => rintro c ⟨⟩; decide

theorem consistsOf_writeItems {items : List Json} (hitems : ∀ v ∈ items, v.Spelled)
    (h : ConsistsOf tail ts) : ConsistsOf (writeItems items tail) (itemTokens items ts) := by
  induction items with
  | nil => exact h.mark rfl rfl
  | cons v items ih =>
      obtain ⟨hv, hitems⟩ := List.forall_mem_cons.mp hitems
      exact (hv _ _ (endsNumber_writeItems items tail) (ih hitems)).mark rfl rfl

/-- A member after the brace or the comma. -/
theorem consistsOf_member {k : Option String} {v : Json} (hk : k.isSome = true) (hv : v.Spelled)
    (hends : EndsNumber tail) (h : ConsistsOf tail ts) :
    ConsistsOf (writeString k (':' :: v.write tail)) (.string k :: .colon :: v.tokens ts) := by
  obtain ⟨s, rfl⟩ := Option.isSome_iff_exists.mp hk
  exact ((hv tail ts hends h).mark rfl rfl).string s

theorem consistsOf_writeMembers {members : List (Option String × Json)}
    (hkeys : ∀ m ∈ members, m.1.isSome = true) (hmembers : ∀ m ∈ members, m.2.Spelled)
    (h : ConsistsOf tail ts) :
    ConsistsOf (writeMembers members tail) (memberTokens members ts) := by
  induction members with
  | nil => exact h.mark rfl rfl
  | cons m members ih =>
      obtain ⟨hk, hkeys⟩ := List.forall_mem_cons.mp hkeys
      obtain ⟨hv, hmembers⟩ := List.forall_mem_cons.mp hmembers
      have hrest := ih hkeys hmembers
      exact (consistsOf_member hk hv (endsNumber_writeMembers members tail) hrest).mark rfl rfl

end

namespace Writable

variable {v : Json}

theorem spelled (h : v.Writable) : v.Spelled := by
  induction h with
  | null => exact fun tail ts _ h => .cons rfl rfl ⟨['u', 'l', 'l'], rfl⟩ h
  | bool b =>
      cases b with
      | true => exact fun tail ts _ h => .cons rfl rfl ⟨['r', 'u', 'e'], rfl⟩ h
      | false => exact fun tail ts _ h => .cons rfl rfl ⟨['a', 'l', 's', 'e'], rfl⟩ h
  | number hn => exact fun tail ts hends h => h.number hn hends
  | text s => exact fun tail ts _ h => h.string s
  | @array items _ ih =>
      intro tail ts _ h
      cases items with
      | nil => exact (h.mark rfl rfl).mark rfl rfl
      | cons v items =>
          obtain ⟨hv, hitems⟩ := List.forall_mem_cons.mp ih
          have hrest := consistsOf_writeItems hitems h
          exact (hv _ _ (endsNumber_writeItems items tail) hrest).mark rfl rfl
  | @object members hkeys _ ih =>
      intro tail ts _ h
      cases members with
      | nil => exact (h.mark rfl rfl).mark rfl rfl
      | cons m members =>
          obtain ⟨hk, hkeys⟩ := List.forall_mem_cons.mp hkeys
          obtain ⟨hv, hmembers⟩ := List.forall_mem_cons.mp ih
          have hrest := consistsOf_writeMembers hkeys hmembers h
          exact (consistsOf_member hk hv (endsNumber_writeMembers members tail) hrest).mark rfl rfl

/-- **Documents are read back** from their own text. -/
theorem parse_render (h : v.Writable) : parse v.render = some v := by
  have hscan : scan (v.write []) = some (v.tokens []) :=
    (h.spelled [] [] (fun c hc => by cases hc) .nil).scan_eq
  rw [parse, render, String.toList_ofList, hscan]
  exact ofTokens_tokens v

end Writable

end Testwright.Json
