import Testwright.Proofs.Source.CallPatterns
import Testwright.Proofs.Text.Nesting
import Testwright.Source.Types

/-!
# Arguments of calls in tests

What the argument of a call in a test may be written with (`IsArgument`): it closes the braces that
it opens, holds no annotation and calls no assertion. Main statements: the usual arguments and the
bounds of a type are such (`isArgument_defaultValue`, `isArgument_of_mem_boundaryValues`), and what
is asserted of a result is one call of an assertion (`isCheck_of_resultAssertion`).
-/

namespace Testwright.Source

open Text

variable {a b cs : List Char} {x : Char} {type v : String}

/-! ## Pieces -/

/-- A piece of the body of a test closes what it opens, and holds no annotation. -/
structure IsPiece (cs : List Char) : Prop where
  nested : Delimiters.braces.marks.Nested cs
  notMem : '@' ∉ cs

theorem isPiece_iff : IsPiece cs ↔ Delimiters.braces.marks.Nested cs ∧ '@' ∉ cs :=
  ⟨fun h => ⟨h.nested, h.notMem⟩, fun h => ⟨h.1, h.2⟩⟩

instance : DecidablePred IsPiece := fun _ => decidable_of_iff _ isPiece_iff.symm

theorem IsPiece.append (ha : IsPiece a) (hb : IsPiece b) : IsPiece (a ++ b) where
  nested := (Marks.nested_append_iff ha.nested).mpr hb.nested
  notMem := List.not_mem_append ha.notMem hb.notMem

/-- What the types of a class are written with: words, white space, dots, commas and brackets. -/
def isSignatureChar (x : Char) : Bool :=
  isWord x || isBlank x || ['.', ',', '<', '>', '[', ']'].contains x

theorem ne_of_isSignatureChar (hx : isSignatureChar x = true) :
    ∀ y ∈ ['(', '\x7b', '\x7d', '"', '\'', '@'], x ≠ y := by
  have hnone : ∀ y ∈ ['(', '\x7b', '\x7d', '"', '\'', '@'], isSignatureChar y = false := by decide
  rintro y hy rfl
  rw [hnone x hy] at hx
  cases hx

theorem isSignatureChar_of_isWord (hx : isWord x = true) : isSignatureChar x = true := by
  rw [isSignatureChar, hx]
  rfl

theorem isPiece_of_isSignatureChar (hcs : ∀ x ∈ cs, isSignatureChar x = true) : IsPiece cs where
  nested := by
    refine Marks.nested_of_plain fun x hx => ?_
    have hne := ne_of_isSignatureChar (hcs x hx)
    refine ⟨hne '\x7b' (by simp), hne '\x7d' (by simp), ?_⟩
    rintro (h | h)
    · exact hne '"' (by simp) h
    · exact hne '\'' (by simp) h
  notMem := fun hmem => ne_of_isSignatureChar (hcs _ hmem) '@' (by simp) rfl

theorem isPiece_of_isPlainName (hcs : isPlainName cs = true) : IsPiece cs :=
  isPiece_of_isSignatureChar fun x hx =>
    isSignatureChar_of_isWord (isWord_of_isPlainName hcs x hx)

theorem paren_notMem_of_isSignatureChar (hcs : ∀ x ∈ cs, isSignatureChar x = true) : '(' ∉ cs :=
  fun hmem => ne_of_isSignatureChar (hcs _ hmem) '(' (by simp) rfl

/-! ## Arguments -/

/-- An argument of a call in a test calls no assertion. -/
structure IsArgument (cs : List Char) : Prop extends IsPiece cs where
  calls : calledAssertions cs = []

theorem isArgument_iff : IsArgument cs ↔ IsPiece cs ∧ calledAssertions cs = [] :=
  ⟨fun h => ⟨h.toIsPiece, h.calls⟩, fun h => ⟨h.1, h.2⟩⟩

instance : DecidablePred IsArgument := fun _ => decidable_of_iff _ isArgument_iff.symm

theorem IsArgument.append_comma (ha : IsArgument a) (hb : IsArgument b) :
    IsArgument (a ++ (", ".toList ++ b)) where
  toIsPiece := ha.toIsPiece.append (.append (by decide) hb.toIsPiece)
  calls := by
    show calledAssertions (a ++ ',' :: ([' '] ++ b)) = []
    rw [calledAssertions_append_stop (by decide), ha.calls,
      calledAssertions_append_blank isGap_space.blank, hb.calls]
    rfl

/-- Several arguments, with commas between them. -/
theorem isArgument_intercalate {args : List String} (h : ∀ v ∈ args, IsArgument v.toList) :
    IsArgument (", ".intercalate args).toList := by
  rw [String.toList_intercalate]
  induction args with
  | nil => decide
  | cons v args ih =>
      have hv := h v List.mem_cons_self
      have hrest := ih fun w hw => h w (List.mem_cons_of_mem v hw)
      cases args with
      | nil => rwa [List.map_singleton, List.intercalate_singleton]
      | cons w args =>
          rw [List.map_cons, List.map_cons, List.intercalate_cons_cons, List.append_assoc]
          exact hv.append_comma hrest

theorem mem_of_lookup {α : Type} {k : String} {a : α} {l : List (String × α)}
    (h : l.lookup k = some a) : ∃ e ∈ l, e.2 = a := by
  induction l with
  | nil => cases h
  | cons e l ih =>
      obtain ⟨k', a'⟩ := e
      rw [lookup_cons_eq_ite] at h
      split at h
      · cases h
        exact ⟨_, List.mem_cons_self, rfl⟩
      · obtain ⟨e, he, rfl⟩ := ih h
        exact ⟨e, List.mem_cons_of_mem _ he, rfl⟩

theorem isSignatureChar_trimType (htype : ∀ x ∈ type.toList, isSignatureChar x = true) :
    ∀ x ∈ (trimType type).toList, isSignatureChar x = true := by
  intro x hx
  obtain ⟨a, b, hcs, -, -⟩ := exists_trim type.toList
  rw [trimType, String.toList_ofList] at hx
  refine htype x ?_
  rw [hcs]
  simp [hx]

theorem isArgument_array (htype : ∀ x ∈ type.toList, isSignatureChar x = true) :
    IsArgument ("new " ++ type ++ "\x7b\x7d").toList := by
  rw [String.toList_append, String.toList_append]
  have hparen : '(' ∉ "new ".toList ++ type.toList ++ "\x7b\x7d".toList := by
    simp [paren_notMem_of_isSignatureChar htype]
  exact ⟨.append (.append (by decide) (isPiece_of_isSignatureChar htype)) (by decide),
    calledAssertions_of_notMem hparen⟩

/-- **The usual arguments** call no assertions, whatever the type is. -/
theorem isArgument_defaultValue (htype : ∀ x ∈ type.toList, isSignatureChar x = true) :
    IsArgument (defaultValue type).toList := by
  have hknown : ∀ e ∈ knownDefaults, IsArgument e.2.toList := by decide +kernel
  have hcollections : ∀ e ∈ collectionDefaults, IsArgument e.2.toList := by decide +kernel
  have hnull : IsArgument "null".toList := by decide
  rw [defaultValue]
  split
  · rename_i hlookup
    obtain ⟨e, he, rfl⟩ := mem_of_lookup hlookup
    exact hknown e he
  · split
    · exact isArgument_array (isSignatureChar_trimType htype)
    · cases hbase :
          (genericBase? (trimType type)).bind fun base => collectionDefaults.lookup base with
      | none => exact hnull
      | some v =>
          obtain ⟨base, -, hlookup⟩ := Option.bind_eq_some_iff.mp hbase
          obtain ⟨e, he, rfl⟩ := mem_of_lookup hlookup
          exact hcollections e he

/-- **The bounds** of a type call no assertions. -/
theorem isArgument_of_mem_boundaryValues (hv : v ∈ boundaryValues type) :
    IsArgument v.toList := by
  have htable : ∀ e ∈ boundaryTable, ∀ v ∈ e.2, IsArgument v.toList := by decide +kernel
  rw [boundaryValues] at hv
  cases hlookup : boundaryTable.lookup (trimType type) with
  | none =>
      rw [hlookup] at hv
      cases List.mem_singleton.mp hv
      decide
  | some values =>
      rw [hlookup] at hv
      obtain ⟨e, he, rfl⟩ := mem_of_lookup hlookup
      exact htable e he v hv

/-! ## Checks -/

/-- A check calls an assertion, and no other one in its arguments. -/
structure IsCheck (cs : List Char) : Prop extends IsPiece cs where
  call : ∃ w r, cs = w ++ '(' :: r ∧ isPlainName w = true ∧ isAssertionName w = true ∧
    calledAssertions r = []

theorem isCheck_call {w r : List Char} (hname : isPlainName w = true)
    (hassertion : isAssertionName w = true) (hr : IsArgument r) : IsCheck (w ++ '(' :: r) where
  toIsPiece := by
    have hparen : IsPiece ['('] := by decide
    exact (isPiece_of_isPlainName hname).append (hparen.append hr.toIsPiece)
  call := ⟨w, r, rfl, hname, hassertion, hr.calls⟩

/-- **What is asserted of a result** is a check. -/
theorem isCheck_of_resultAssertion (htype : ∀ x ∈ type.toList, isSignatureChar x = true)
    (h : resultAssertion type = some v) : IsCheck v.toList := by
  have hresult : IsArgument "result)".toList := by decide
  rw [resultAssertion] at h
  split at h
  · cases h
  split at h
  · cases h
    exact isCheck_call (w := "assertTrue".toList) (by decide) (by decide) hresult
  split at h
  · cases h
    have hvalue := isArgument_defaultValue (isSignatureChar_trimType htype)
    have htext : ("assertEquals(" ++ defaultValue (trimType type) ++ ", result)").toList =
        "assertEquals".toList ++ '(' :: ((defaultValue (trimType type)).toList ++
          (", ".toList ++ "result)".toList)) := by
      simp
    rw [htext]
    exact isCheck_call (by decide) (by decide) (hvalue.append_comma hresult)
  · cases h
    exact isCheck_call (w := "assertNotNull".toList) (by decide) (by decide) hresult

end Testwright.Source
