import Testwright.Proofs.Source.Bindings
import Testwright.Proofs.Text.Spacing

/-!
# Called names

The names that a text calls: the last word before each opening parenthesis (`callees`). Main
statements: the calls of a text are those of its parts (`callees_append_stop`,
`callees_append_paren`), and they do not depend on how long its white space is
(`callees_eq_of_alike`).
-/

namespace Testwright.Source

open Text Pattern

/-- A called name, and whether it stands after a dot. -/
structure Callee where
  name : List Char
  dotted : Bool
  deriving DecidableEq

/-- The name that a text calls with the parenthesis after it, `seen` being the text from its last
character on. -/
def calleeOf (seen : List Char) : Option Callee :=
  let rest := seen.dropWhile isBlank
  if rest.takeWhile isWord = [] then none
  else some ⟨(rest.takeWhile isWord).reverse, (rest.dropWhile isWord).head? == some '.'⟩

/-- The names that a text calls, `seen` being the text since the last parenthesis, from its last
character on. -/
def calleesFrom (seen : List Char) : List Char → List Callee
  | [] => []
  | c :: r =>
    if c = '(' then (calleeOf seen).toList ++ calleesFrom [] r else calleesFrom (c :: seen) r

/-- The names that a text calls. -/
def callees (cs : List Char) : List Callee := calleesFrom [] cs

example : callees "a.size() > f (b.c(x), (y))".toList =
    [⟨"size".toList, true⟩, ⟨"f".toList, false⟩, ⟨"c".toList, true⟩] := by decide +kernel

variable {a b g r s cs seen seen' u v w : List Char} {c x : Char} {k : Callee}

/-! ## The calls of the parts of a text -/

theorem calleesFrom_paren (r : List Char) :
    calleesFrom seen ('(' :: r) = (calleeOf seen).toList ++ callees r := by
  rw [calleesFrom, if_pos rfl]
  rfl

theorem calleesFrom_cons (hc : c ≠ '(') (r : List Char) :
    calleesFrom seen (c :: r) = calleesFrom (c :: seen) r := by rw [calleesFrom, if_neg hc]

theorem calleesFrom_append (ha : '(' ∉ a) (r : List Char) :
    calleesFrom seen (a ++ r) = calleesFrom (a.reverse ++ seen) r := by
  induction a generalizing seen with
  | nil => rfl
  | cons c a ih =>
      obtain ⟨hc, ha⟩ := not_or.mp (mt List.mem_cons.mpr ha)
      rw [List.cons_append, calleesFrom_cons (Ne.symm hc), ih ha, List.reverse_cons,
        List.append_assoc]
      rfl

/-- Without a parenthesis nothing is called. -/
theorem callees_of_notMem (hcs : '(' ∉ cs) : callees cs = [] := by
  have hall : calleesFrom [] (cs ++ []) = [] := calleesFrom_append hcs []
  rwa [List.append_nil] at hall

/-- Whether a character ends what may be a called name. -/
def isStop (x : Char) : Bool := !isWord x && !isBlank x && x != '.' && x != '('

theorem of_isStop (hx : isStop x = true) :
    isWord x = false ∧ isBlank x = false ∧ x ≠ '.' ∧ x ≠ '(' := by
  simpa [isStop, and_assoc] using hx

theorem takeWhile_of_head {p : Char → Bool} (h : ∀ c ∈ cs.head?, p c = false) :
    cs.takeWhile p = [] := by
  cases cs with
  | nil => rfl
  | cons c cs => rw [List.takeWhile_cons, h c rfl, if_neg Bool.false_ne_true]

theorem dropWhile_append_cons {p : Char → Bool} (hx : p x = false) (s r : List Char) :
    (s ++ x :: r).dropWhile p = s.dropWhile p ++ x :: r := by
  induction s with
  | nil => rw [List.nil_append, List.dropWhile_cons, hx, if_neg Bool.false_ne_true]; rfl
  | cons y s ih =>
      rw [List.cons_append, List.dropWhile_cons, List.dropWhile_cons]
      split
      · exact ih
      · rfl

theorem takeWhile_append_cons {p : Char → Bool} (hx : p x = false) (s r : List Char) :
    (s ++ x :: r).takeWhile p = s.takeWhile p := by
  induction s with
  | nil => rw [List.nil_append, List.takeWhile_cons, hx, if_neg Bool.false_ne_true]; rfl
  | cons y s ih =>
      rw [List.cons_append, List.takeWhile_cons, List.takeWhile_cons]
      split
      · rw [ih]
      · rfl

/-- What stands before such a character does not matter. -/
theorem calleeOf_append_stop (hx : isStop x = true) : calleeOf (s ++ x :: seen) = calleeOf s := by
  obtain ⟨hword, hblank, hdot, -⟩ := of_isStop hx
  rw [calleeOf, calleeOf, dropWhile_append_cons hblank, takeWhile_append_cons hword,
    dropWhile_append_cons hword]
  cases (s.dropWhile isBlank).dropWhile isWord with
  | nil =>
      have hnone : (some x == some '.') = false := by simp [hdot]
      simp only [List.nil_append, List.head?_cons, hnone]
      rfl
  | cons y t => rfl

theorem calleesFrom_append_stop (hx : isStop x = true) :
    calleesFrom (s ++ x :: seen) cs = calleesFrom s cs := by
  induction cs generalizing s with
  | nil => rfl
  | cons c r ih =>
      by_cases hc : c = '('
      · rw [hc, calleesFrom_paren, calleesFrom_paren, calleeOf_append_stop hx]
      · rw [calleesFrom_cons hc, calleesFrom_cons hc, ← List.cons_append, ih]

/-- Such a character divides a text into two. -/
theorem callees_append_stop (hx : isStop x = true) (a b : List Char) :
    callees (a ++ x :: b) = callees a ++ callees b := by
  have hall : ∀ seen : List Char,
      calleesFrom seen (a ++ x :: b) = calleesFrom seen a ++ callees b := by
    induction a with
    | nil =>
        intro seen
        obtain ⟨-, -, -, hparen⟩ := of_isStop hx
        rw [List.nil_append, calleesFrom_cons hparen]
        exact calleesFrom_append_stop (s := []) hx
    | cons c a ih =>
        intro seen
        by_cases hc : c = '('
        · rw [hc, List.cons_append, calleesFrom_paren, calleesFrom_paren, List.append_assoc]
          exact congrArg _ (ih [])
        · rw [List.cons_append, calleesFrom_cons hc, calleesFrom_cons hc, ih]
  exact hall []

/-- Before a parenthesis stands a called name, or none. -/
theorem callees_append_paren (ha : '(' ∉ a) (b : List Char) :
    callees (a ++ '(' :: b) = (calleeOf a.reverse).toList ++ callees b := by
  rw [callees, calleesFrom_append ha, List.append_nil, calleesFrom_paren]

/-- At its beginning it makes no difference. -/
theorem callees_cons_stop (hx : isStop x = true) (b : List Char) : callees (x :: b) = callees b :=
  callees_append_stop hx [] b

/-! ## White space -/

/-- White space before a text is of no account. -/
theorem calleeOf_append_blank (hx : isBlank x = true) : calleeOf (s ++ [x]) = calleeOf s := by
  have hword := isWord_of_isBlank hx
  rw [calleeOf, calleeOf, List.dropWhile_append]
  cases hrest : s.dropWhile isBlank with
  | nil => simp [hx]
  | cons y t =>
      rw [List.isEmpty_cons, if_neg Bool.false_ne_true, takeWhile_append_cons hword,
        dropWhile_append_cons hword]
      cases (y :: t).dropWhile isWord with
      | nil =>
          have hdot : (some x == some '.') = false := by
            simp only [Option.some_beq_some, beq_eq_false_iff_ne]
            rintro rfl
            exact absurd hx (by decide)
          simp only [List.nil_append, List.head?_cons, hdot]
          rfl
      | cons z u => rfl

theorem calleesFrom_append_blank (hx : isBlank x = true) :
    calleesFrom (s ++ [x]) cs = calleesFrom s cs := by
  induction cs generalizing s with
  | nil => rfl
  | cons c r ih =>
      by_cases hc : c = '('
      · rw [hc, calleesFrom_paren, calleesFrom_paren, calleeOf_append_blank hx]
      · rw [calleesFrom_cons hc, calleesFrom_cons hc, ← List.cons_append, ih]

theorem callees_append_blank (hg : ∀ x ∈ g, isBlank x = true) (cs : List Char) :
    callees (g ++ cs) = callees cs := by
  induction g with
  | nil => rfl
  | cons x g ih =>
      obtain ⟨hx, hg⟩ := List.forall_mem_cons.mp hg
      have hparen : x ≠ '(' := by
        rintro rfl
        exact absurd hx (by decide)
      rw [List.cons_append, callees, calleesFrom_cons hparen, ← ih hg]
      exact calleesFrom_append_blank (s := []) hx

theorem takeWhile_isWord_of_alike (h : Alike a b) :
    a.takeWhile isWord = b.takeWhile isWord ∧
      ((a.dropWhile isWord).head? == some '.') = ((b.dropWhile isWord).head? == some '.') := by
  induction h with
  | nil => exact ⟨rfl, rfl⟩
  | same x _ ih =>
      simp only [List.takeWhile_cons, List.dropWhile_cons]
      split
      · exact ⟨by rw [ih.1], ih.2⟩
      · exact ⟨rfl, rfl⟩
  | @gap g g' a b hne hg hne' hg' _ _ =>
      -- there is no word at white space, nor a dot
      have hnone : ∀ {g a : List Char}, g ≠ [] → (∀ x ∈ g, isBlank x = true) →
          (g ++ a).takeWhile isWord = [] ∧
            (((g ++ a).dropWhile isWord).head? == some '.') = false := by
        intro g a hne hg
        obtain ⟨x, g, rfl⟩ := List.exists_cons_of_ne_nil hne
        have hx := hg x List.mem_cons_self
        have hdot : (some x == some '.') = false := by
          simp only [Option.some_beq_some, beq_eq_false_iff_ne]
          rintro rfl
          exact absurd hx (by decide)
        simp [isWord_of_isBlank hx, hdot]
      obtain ⟨htake, hdrop⟩ := hnone (a := a) hne hg
      obtain ⟨htake', hdrop'⟩ := hnone (a := b) hne' hg'
      exact ⟨htake.trans htake'.symm, hdrop.trans hdrop'.symm⟩

theorem calleeOf_eq_of_alike (h : Alike seen seen') : calleeOf seen = calleeOf seen' := by
  obtain ⟨htake, hdrop⟩ := takeWhile_isWord_of_alike h.dropBlank
  rw [calleeOf, calleeOf, htake, hdrop]

/-- Texts that differ in their white space only call the same names. -/
theorem callees_eq_of_alike (h : Alike a b) : callees a = callees b := by
  have hall : ∀ {seen seen'}, Alike seen seen' → calleesFrom seen a = calleesFrom seen' b := by
    induction h with
    | nil => exact fun _ => rfl
    | same x _ ih =>
        intro seen seen' hseen
        by_cases hx : x = '('
        · rw [hx, calleesFrom_paren, calleesFrom_paren, calleeOf_eq_of_alike hseen]
          exact congrArg _ (ih .nil)
        · rw [calleesFrom_cons hx, calleesFrom_cons hx]
          exact ih (hseen.same x)
    | @gap g g' a b hne hg hne' hg' _ ih =>
        intro seen seen' hseen
        have hnot : ∀ {g : List Char}, (∀ x ∈ g, isBlank x = true) → '(' ∉ g := by
          intro g hg hmem
          exact absurd (hg _ hmem) (by decide)
        rw [calleesFrom_append (hnot hg), calleesFrom_append (hnot hg')]
        refine ih (.gap ?_ ?_ ?_ ?_ hseen)
        · exact fun h => hne (List.reverse_eq_nil_iff.mp h)
        · exact fun x hx => hg x (List.mem_reverse.mp hx)
        · exact fun h => hne' (List.reverse_eq_nil_iff.mp h)
        · exact fun x hx => hg' x (List.mem_reverse.mp hx)
  exact hall .nil

/-! ## Texts that end in a word -/

/-- A text ends in a word, with white space after it or none. -/
structure EndsInWord (a u w g : List Char) : Prop where
  eq : a = u ++ (w ++ g)
  ne_nil : w ≠ []
  word : ∀ x ∈ w, isWord x = true
  blank : ∀ x ∈ g, isBlank x = true
  last : ∀ x ∈ u.getLast?, isWord x = false

/-- From its last character on, such a text is read back into its parts. -/
theorem EndsInWord.reverse (h : EndsInWord a u w g) :
    a.reverse.takeWhile isBlank = g.reverse ∧
      (a.reverse.dropWhile isBlank).takeWhile isWord = w.reverse ∧
      (a.reverse.dropWhile isBlank).dropWhile isWord = u.reverse := by
  have hreverse : a.reverse = g.reverse ++ (w.reverse ++ u.reverse) := by rw [h.eq]; simp
  have hg : ∀ x ∈ g.reverse, isBlank x = true := fun x hx => h.blank x (List.mem_reverse.mp hx)
  have hw : ∀ x ∈ w.reverse, isWord x = true := fun x hx => h.word x (List.mem_reverse.mp hx)
  have hstop : ∀ x ∈ u.reverse.head?, isWord x = false := by
    rw [List.head?_reverse]
    exact h.last
  have hnext : ∀ x ∈ (w.reverse ++ u.reverse).head?, isBlank x = false := by
    intro x hx
    have hne : w.reverse ≠ [] := fun hnil => h.ne_nil (List.reverse_eq_nil_iff.mp hnil)
    obtain ⟨y, t, heq⟩ := List.exists_cons_of_ne_nil hne
    rw [heq] at hx hw
    cases hx
    exact isBlank_of_isWord (hw x List.mem_cons_self)
  have hblanks : a.reverse.dropWhile isBlank = w.reverse ++ u.reverse := by
    rw [hreverse, List.dropWhile_append_of_pos hg, dropWhile_of_head hnext]
  refine ⟨?_, ?_, ?_⟩
  · rw [hreverse, List.takeWhile_append_of_pos hg, takeWhile_of_head hnext, List.append_nil]
  · rw [hblanks, List.takeWhile_append_of_pos hw, takeWhile_of_head hstop, List.append_nil]
  · rw [hblanks, List.dropWhile_append_of_pos hw, dropWhile_of_head hstop]

/-- The word is what is called with a parenthesis after it. -/
theorem EndsInWord.calleeOf (h : EndsInWord a u w g) :
    calleeOf a.reverse = some ⟨w, u.getLast? == some '.'⟩ := by
  obtain ⟨-, hword, hrest⟩ := h.reverse
  have hne : w.reverse ≠ [] := fun hnil => h.ne_nil (List.reverse_eq_nil_iff.mp hnil)
  rw [Source.calleeOf, hword, hrest, if_neg hne, List.reverse_reverse, List.head?_reverse]

/-- A name before a parenthesis is called, and the character before it says whether on an object. -/
theorem callees_append_name (hu : '(' ∉ u) (hlast : u.getLast? = some x) (hx : isWord x = false)
    (hw : isPlainName w = true) (r : List Char) :
    callees (u ++ (w ++ '(' :: r)) = ⟨w, x == '.'⟩ :: callees r := by
  have hword := isWord_of_isPlainName hw
  have hends : EndsInWord (u ++ w) u w [] :=
    { eq := by rw [List.append_nil]
      ne_nil := ne_nil_of_isPlainName hw
      word := hword
      blank := fun _ hy => absurd hy List.not_mem_nil
      last := by
        rw [hlast]
        rintro _ ⟨rfl⟩
        exact hx }
  have hparen : '(' ∉ u ++ w :=
    List.not_mem_append hu fun hmem => absurd (hword _ hmem) (by decide)
  rw [← List.append_assoc, callees_append_paren hparen, hends.calleeOf, hlast]
  rfl

/-- There is only one way in which a text ends in a word. -/
theorem EndsInWord.unique {u' w' g' : List Char} (h : EndsInWord a u w g)
    (h' : EndsInWord a u' w' g') : u = u' ∧ w = w' ∧ g = g' := by
  obtain ⟨hblank, hword, hrest⟩ := h.reverse
  obtain ⟨hblank', hword', hrest'⟩ := h'.reverse
  exact ⟨List.reverse_inj.mp (hrest.symm.trans hrest'),
    List.reverse_inj.mp (hword.symm.trans hword'), List.reverse_inj.mp (hblank.symm.trans hblank')⟩

theorem exists_of_calleeOf (h : calleeOf a.reverse = some k) :
    ∃ u g, EndsInWord a u k.name g ∧ k.dotted = (u.getLast? == some '.') := by
  obtain ⟨rest, hrest⟩ : ∃ rest, rest = a.reverse.dropWhile isBlank := ⟨_, rfl⟩
  rw [Source.calleeOf, ← hrest] at h
  split at h
  · cases h
  · rename_i hne
    cases h
    have hsplit : a.reverse = a.reverse.takeWhile isBlank ++
        (rest.takeWhile isWord ++ rest.dropWhile isWord) := by
      rw [List.takeWhile_append_dropWhile, hrest, List.takeWhile_append_dropWhile]
    refine ⟨(rest.dropWhile isWord).reverse, (a.reverse.takeWhile isBlank).reverse, ?_, ?_⟩
    · refine ⟨?_, fun hnil => hne (List.reverse_eq_nil_iff.mp hnil), ?_, ?_, ?_⟩
      · have heq := congrArg List.reverse hsplit
        rwa [List.reverse_reverse, List.reverse_append, List.reverse_append,
          List.append_assoc] at heq
      · exact fun x hx => List.all_eq_true.mp List.all_takeWhile x (List.mem_reverse.mp hx)
      · exact fun x hx => List.all_eq_true.mp List.all_takeWhile x (List.mem_reverse.mp hx)
      · intro x hx
        rw [List.getLast?_reverse] at hx
        have hdrop := List.head?_dropWhile_not isWord rest
        rw [Option.mem_def.mp hx] at hdrop
        exact hdrop
    · rw [List.getLast?_reverse]

end Testwright.Source
