import Testwright.Proofs.Distinct
import Testwright.Proofs.Suite.NormalCode

/-!
# String literals and signatures

The steps to the normal code of a test know no string literals. A literal that stands neither in a
comment nor in an annotation divides the code: contents in which neither a comment nor an annotation
goes on to the end of the literal are told apart exactly if the steps leave different texts of them.
Main statement: what contents are told apart, and which tests are kept (`contents_kept_iff`).
-/

namespace Testwright

open Text Source

variable {a b c d r s : List Char} {x : Char}

/-! ## Annotations before a literal -/

/-- An annotation with a display name is under way at the end of the text. -/
def InTitle (cs : List Char) : Prop := ∃ s, s <:+ cs ∧ IsTitleHead s

theorem not_inTitle_of_notMem (h : 'D' ∉ a) : ¬ InTitle a := by
  rintro ⟨_, hs, g, b, rfl, -⟩
  exact h (hs.subset (List.mem_append_left _ (by decide)))

/-- Where no annotation is under way, none goes on. -/
theorem seam_title (ha : ¬ InTitle a) (b : List Char) :
    Seam (fun d _ => IsTitle d) a ('"' :: b) where
  ends u d t hu hne hcs hd := by
    obtain ⟨s, rfl, hs⟩ := hd
    rw [List.append_assoc, List.singleton_append, eq_comm] at hcs
    rcases append_eq_append_cons_iff.mp hcs.symm with ⟨w, rfl, hw⟩ | ⟨w, rfl, -⟩
    · -- the parenthesis would stand after the quote
      cases w with
      | nil => cases hw
      | cons y w =>
          obtain ⟨rfl, -⟩ := List.cons.inj hw
          exact absurd ⟨u, hu, hs.of_append hne (by decide)⟩ ha
    · exact ⟨w, by simp, s, rfl, hs⟩
  lasts _ _ _ hd := hd

theorem untitled_append_quote (ha : ¬ InTitle a) (b : List Char) :
    untitled (a ++ '"' :: b) = untitled a ++ '"' :: untitled b := by
  have hquote : ∀ d t, '"' :: b = d ++ t → ¬ IsTitle d := by
    rintro _ t hcs ⟨s, rfl, hs⟩
    obtain ⟨s, rfl⟩ := List.head?_eq_some_iff.mp hs.head?
    cases hcs
  show displayName.replaceAll [] (a ++ '"' :: b) = _
  rw [recognizes_displayName.replaceAll_append (seam_title ha b),
    recognizes_displayName.replaceAll_cons hquote]
  rfl

theorem unnamed_append_quote (a b : List Char) :
    unnamed (a ++ '"' :: b) = unnamed a ++ '"' :: unnamed b := by
  refine recognizes_testDeclaration.replaceAll_stop ?_ (fun _ _ => Iff.rfl) a
  rintro d t ⟨n, hd⟩ hmem
  exact absurd (hd.of_mem '"' hmem) (by decide)

/-! ## What is left of contents -/

/-- The content of a literal after the last steps. -/
def bareContent (cs : List Char) : List Char := singleSpaced (unnamed (untitled cs))

/-- Neither a comment nor an annotation goes on from the content of a literal to what follows it. -/
structure IsClosed (cs : List Char) : Prop where
  comment : ¬ ['/', '/'] <:+: cs
  title : ¬ InTitle cs

/-- The content of a literal to which no step does anything. -/
structure IsPlain (cs : List Char) : Prop where
  comment : ¬ ['/', '/'] <:+: cs
  title : ∀ s, IsTitleHead s → ¬ s <:+: cs
  declaration : ∀ n d, IsDeclaration n d → ¬ d <:+: cs
  gap : ∀ g, IsGap g → g <:+: cs → g = [' ']

theorem IsPlain.isClosed (h : IsPlain a) : IsClosed a :=
  ⟨h.comment, fun ⟨s, hs, hhead⟩ => h.title s hhead hs.isInfix⟩

theorem IsPlain.bareContent_eq (h : IsPlain a) : bareContent a = a := by
  have htitle : untitled a = a := by
    refine (recognizes_displayName.replaced [] a).eq_self ?_
    rintro _ r hr ⟨s, rfl, hs⟩
    rw [List.append_assoc] at hr
    exact absurd ((List.prefix_append s _).isInfix.trans hr.isInfix) (h.title s hs)
  have hname : unnamed a = a := by
    refine (recognizes_testDeclaration.replaced _ a).eq_self ?_
    rintro d r hr ⟨n, hd⟩
    exact absurd ((List.prefix_append d r).isInfix.trans hr.isInfix) (h.declaration n d hd)
  have hgap : singleSpaced a = a :=
    (recognizes_gap.replaced [' '] a).eq_self fun d r hr hd =>
      h.gap d hd.1 ((List.prefix_append d r).isInfix.trans hr.isInfix)
  show singleSpaced (unnamed (untitled a)) = a
  rw [htitle, hname, hgap]

theorem isPlain_of_notMem (hcomment : ¬ ['/', '/'] <:+: a) (hparen : '(' ∉ a)
    (hblank : ∀ x ∈ a, isBlank x = false) : IsPlain a where
  comment := hcomment
  title := by
    rintro _ ⟨g, b, rfl, -⟩ hs
    exact hparen (hs.subset (by simp))
  declaration := by
    rintro n _ ⟨⟩ hd
    exact hparen (hd.subset (by simp))
  gap g hg hpart := by
    obtain ⟨x, g, rfl⟩ := List.exists_cons_of_ne_nil hg.ne_nil
    have hx := hblank x (hpart.subset List.mem_cons_self)
    rw [hg.blank x List.mem_cons_self] at hx
    cases hx

/-! ## Literals in a code -/

/-- A text with two characters in it that are not white space loses white space outside them only. -/
theorem trim_between (hx : isBlank x = false) (a c : List Char) :
    ∃ a' c', ∀ b, trim (a ++ x :: (b ++ x :: c)) = a' ++ x :: (b ++ x :: c') := by
  refine ⟨a.dropWhile isBlank, (c.reverse.dropWhile isBlank).reverse, fun b => ?_⟩
  have hfront : ∀ {u v : List Char}, (u ++ x :: v).dropWhile isBlank =
      u.dropWhile isBlank ++ x :: v := by
    intro u v
    rw [List.dropWhile_append, List.dropWhile_cons_of_neg (by rw [hx]; exact Bool.false_ne_true)]
    split
    · rename_i hnone
      rw [List.isEmpty_iff.mp hnone]
      rfl
    · rfl
  have hreverse : (a.dropWhile isBlank ++ x :: (b ++ x :: c)).reverse =
      c.reverse ++ x :: (b.reverse ++ x :: (a.dropWhile isBlank).reverse) := by
    simp
  rw [trim, hfront, hreverse, hfront]
  simp

/-- The contents of a literal that is no part of a comment or annotation are left in their place. -/
theorem exists_normalCode (hcomment : ¬ InComment a) (htitle : ¬ InTitle (uncommented a))
    (c : List Char) : ∃ a' c', ∀ b, IsClosed b →
      normalCode (a ++ '"' :: (b ++ '"' :: c)) = a' ++ '"' :: (bareContent b ++ '"' :: c') := by
  obtain ⟨a', c', htrim⟩ := trim_between (x := '"') (by decide)
    (bareContent (uncommented a)) (bareContent (uncommented c))
  refine ⟨a', c', fun b hb => ?_⟩
  have hinside : ¬ InComment b := by
    rintro ⟨u, w, rfl, -⟩
    exact hb.comment ⟨u, w, by simp⟩
  rw [← htrim, normalCode_eq, uncommented_append hcomment (by decide),
    uncommented_append hinside (by decide), uncommented_eq_self hb.comment,
    untitled_append_quote htitle, untitled_append_quote hb.title]
  show trim (singleSpaced (unnamed _)) = _
  rw [unnamed_append_quote, unnamed_append_quote, singleSpaced_append (by decide),
    singleSpaced_append (by decide)]
  rfl

/-- Closed contents are told apart exactly if different texts are left of them. -/
theorem normalCode_eq_iff_of_isClosed (hcomment : ¬ InComment a)
    (htitle : ¬ InTitle (uncommented a)) (hb : IsClosed b) (hd : IsClosed d) (c : List Char) :
    normalCode (a ++ '"' :: (b ++ '"' :: c)) = normalCode (a ++ '"' :: (d ++ '"' :: c)) ↔
      bareContent b = bareContent d := by
  obtain ⟨a', c', hnormal⟩ := exists_normalCode hcomment htitle c
  rw [hnormal b hb, hnormal d hd, List.append_cancel_left_eq, List.cons.injEq,
    List.append_cancel_right_eq]
  exact and_iff_right rfl

/-- The rest of a literal after two slashes makes no difference. -/
theorem normalCode_slashes (a c : List Char) (hb : '\n' ∉ b) (hd : '\n' ∉ d) :
    normalCode (a ++ '/' :: '/' :: (b ++ '"' :: c)) =
      normalCode (a ++ '/' :: '/' :: (d ++ '"' :: c)) := by
  rw [normalCode_eq, normalCode_eq, uncommented_comment_congr a _ hb hd]

/-! ## Tests with literals -/

/-- The code of a test in which a string literal occurs. -/
def literalCode (before content after : String) : String :=
  before ++ "\"" ++ content ++ "\"" ++ after

theorem toList_literalCode (before content after : String) :
    (literalCode before content after).toList =
      before.toList ++ '"' :: (content.toList ++ '"' :: after.toList) := by
  delta literalCode
  simp

theorem dropRedundant_pair (t u : TestCase) :
    dropRedundant [t, u] = if t.signature = u.signature then [t] else [t, u] := by
  have hempty : (∅ : Std.HashSet String).contains t.signature = false :=
    Std.HashSet.contains_empty
  rw [dropRedundant, distinct, distinctFrom, hempty, if_neg Bool.false_ne_true, distinctFrom]
  simp only [Std.HashSet.contains_insert, Std.HashSet.contains_empty, Bool.or_false, beq_iff_eq,
    distinctFrom]
  split <;> rfl

/-- Of two tests, both are kept exactly if they have different signatures. -/
theorem dropRedundant_pair_eq_iff {t u : TestCase} :
    dropRedundant [t, u] = [t, u] ↔ t.signature ≠ u.signature := by
  rw [dropRedundant_pair]
  split
  · rename_i hsame
    exact iff_of_false (by simp) fun hne => hne hsame
  · rename_i hne
    exact iff_of_true rfl hne

/-- Tests that differ in a literal only, which neither a comment nor an annotation holds. Both are
kept, for closed contents, exactly if different texts are left of the contents; so both are kept for
all plain contents that differ. Of tests that differ after two slashes in the literal, one is kept. -/
theorem contents_kept_iff {before after a b : String} {t u : TestCase}
    (hcomment : ¬ InComment before.toList) (htitle : ¬ InTitle (uncommented before.toList))
    (htarget : t.targetMethod = u.targetMethod) (ht : t.code = literalCode before a after)
    (hu : u.code = literalCode before b after) :
    (dropRedundant [t, u] = [t, u] ↔ t.signature ≠ u.signature) ∧
    (IsClosed a.toList → IsClosed b.toList →
      (t.signature ≠ u.signature ↔ bareContent a.toList ≠ bareContent b.toList)) ∧
    (IsPlain a.toList → IsPlain b.toList → a ≠ b → t.signature ≠ u.signature) ∧
    (∀ x y z : List Char, '\n' ∉ y → '\n' ∉ z → a.toList = x ++ ("//".toList ++ y) →
      b.toList = x ++ ("//".toList ++ z) → t.signature = u.signature) := by
  have hclosed : IsClosed a.toList → IsClosed b.toList →
      (t.signature ≠ u.signature ↔ bareContent a.toList ≠ bareContent b.toList) := by
    intro ha hb
    rw [ne_eq, TestCase.signature_eq_iff htarget, ht, hu, toList_literalCode, toList_literalCode,
      normalCode_eq_iff_of_isClosed hcomment htitle ha hb]
  refine ⟨dropRedundant_pair_eq_iff, hclosed, fun ha hb hne => ?_, fun x y z hy hz hx hx' => ?_⟩
  · rw [hclosed ha.isClosed hb.isClosed, ha.bareContent_eq, hb.bareContent_eq]
    exact fun hsame => hne (String.toList_injective hsame)
  · rw [TestCase.signature_eq_iff htarget, ht, hu, toList_literalCode, toList_literalCode, hx, hx']
    have hslashes := normalCode_slashes (before.toList ++ '"' :: x) after.toList hy hz
    simpa using hslashes

/-- A test that opens an address. -/
def openingTest (address : String) : TestCase where
  id := address
  kind := .methodCall
  code := literalCode "@Test\nvoid opens() \x7b\n    target.open(" address ");\n\x7d"
  targetMethod := "open"
  targetClass := "Browser"
  assertions := []

/-- Tests that open different addresses without slashes are both kept. -/
theorem plain_addresses_kept :
    (openingTest "first").targetMethod = (openingTest "second").targetMethod ∧
      dropRedundant [openingTest "first", openingTest "second"] =
        [openingTest "first", openingTest "second"] := by
  let before := "@Test\nvoid opens() \x7b\n    target.open("
  have hslash : ∀ {cs : List Char}, '/' ∉ cs → ¬ ['/', '/'] <:+: cs := fun h hpart =>
    h (hpart.subset List.mem_cons_self)
  have hcomment : ¬ InComment before.toList := by
    rintro ⟨u, w, hcs, -⟩
    exact absurd (hcs ▸ List.mem_append_right u List.mem_cons_self : '/' ∈ before.toList) (by decide)
  have htitle : ¬ InTitle (uncommented before.toList) := by
    rw [uncommented_eq_self (hslash (by decide))]
    exact not_inTitle_of_notMem (by decide)
  have hfirst : IsPlain "first".toList :=
    isPlain_of_notMem (hslash (by decide)) (by decide) (by decide)
  have hsecond : IsPlain "second".toList :=
    isPlain_of_notMem (hslash (by decide)) (by decide) (by decide)
  have hkept := contents_kept_iff (t := openingTest "first") (u := openingTest "second") hcomment
    htitle rfl rfl rfl
  exact ⟨rfl, hkept.1.mpr (hkept.2.2.1 hfirst hsecond (by decide))⟩

/-- **A test with another address is thrown away**: what stands after the slashes of an address is
taken for a comment, also when no quote, escape or line break stands in the address. -/
theorem slashed_address_dropped :
    (∀ x ∈ "http://a".toList, x ≠ '"' ∧ x ≠ '\\' ∧ x ≠ '\n') ∧
      (∀ x ∈ "http://b".toList, x ≠ '"' ∧ x ≠ '\\' ∧ x ≠ '\n') ∧ "http://a" ≠ "http://b" ∧
      (openingTest "http://a").signature = (openingTest "http://b").signature ∧
      dropRedundant [openingTest "http://a", openingTest "http://b"] =
        [openingTest "http://a"] := by
  have hsame : (openingTest "http://a").signature = (openingTest "http://b").signature := by
    refine (TestCase.signature_eq_iff (by rfl)).mpr ?_
    decide +kernel
  exact ⟨by decide, by decide, by decide, hsame, by rw [dropRedundant_pair, if_pos hsame]⟩

end Testwright
