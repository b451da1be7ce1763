import Testwright.Text.CharClass

/-!
# Patterns

A small language of text patterns with ordered choice. A pattern stands for the list of places
where a match may end, best first (`Pattern.ends`); `Pattern.run` looks for the first of them from
which the rest of a task succeeds, without building the list. Main statement: the two agree
(`run_eq_findSome?`), so a match is the first end in the order of preference.
-/

namespace Testwright.Text

/-- A pattern over characters. -/
inductive Pattern where
  /-- Nothing. -/
  | empty
  /-- One character of a class. -/
  | one (p : Char → Bool)
  /-- Characters of a class, as many as possible. -/
  | run (p : Char → Bool)
  /-- Characters of a class, all that follow; unlike in a run, none of them is given back. -/
  | all (p : Char → Bool)
  /-- Characters of a class, as few as possible. -/
  | few (p : Char → Bool)
  /-- A place with a word character on exactly one side. -/
  | edge
  /-- The end of the text. -/
  | atEnd
  /-- One pattern after another. -/
  | seq (p q : Pattern)
  /-- The first pattern, or else the second. -/
  | either (p q : Pattern)
  /-- Repetitions of a pattern that consumes at least one character, as many as possible. -/
  | many (p : Pattern)
  /-- A pattern whose matched text is kept. -/
  | capture (p : Pattern)

/-- The first `length` characters of `start`. -/
structure Span where
  start : List Char
  length : Nat

/-- The characters of a span. -/
def Span.text (s : Span) : List Char := s.start.take s.length

/-- A place in a text: the character before it, the text after it, how many characters were read on
the way, and the spans captured on the way, last first. -/
structure Cursor where
  before : Option Char
  rest : List Char
  read : Nat := 0
  spans : List Span := []

namespace Cursor

/-- Whether exactly one of the two characters around the place is a word character. -/
def atEdge (c : Cursor) : Bool := c.before.any isWord != c.rest.head?.any isWord

/-- The place after one more character. -/
def step (x : Char) (r : List Char) (c : Cursor) : Cursor := ⟨some x, r, c.read + 1, c.spans⟩

/-- The places after 0, 1, 2, … characters of a class, furthest first; `nearer` holds those
already passed. -/
def stopsFrom (p : Char → Bool) : List Char → Cursor → List Cursor → List Cursor
  | [], c, nearer => c :: nearer
  | x :: r, c, nearer =>
    if p x then stopsFrom p r (c.step x r) (c :: nearer) else c :: nearer

/-- The places after characters of a class, furthest first. -/
def stops (p : Char → Bool) (c : Cursor) : List Cursor := stopsFrom p c.rest c []

/-- The first place after 0, 1, 2, … characters of a class from which the task succeeds. -/
def nearest {α : Type} (p : Char → Bool) (task : Cursor → Option α) :
    List Char → Cursor → Option α
  | [], c => task c
  | x :: r, c =>
    match task c with
    | some a => some a
    | none => if p x then nearest p task r (c.step x r) else none

/-- The place after all characters of a class that follow. -/
def passFrom (p : Char → Bool) : List Char → Cursor → Cursor
  | [], c => c
  | x :: r, c => if p x then passFrom p r (c.step x r) else c

/-- The place after all characters of a class that follow. -/
def pass (p : Char → Bool) (c : Cursor) : Cursor := passFrom p c.rest c

/-- Captures what was read since a place. -/
def capture (start c : Cursor) : Cursor :=
  { c with spans := ⟨start.rest, c.read - start.read⟩ :: c.spans }

end Cursor

/-- Repetitions of a step, as many as possible; each consumes a character, so the text itself
bounds their number. -/
def repeatStep {α : Type} (step : Cursor → (Cursor → Option α) → Option α) :
    List Char → Cursor → (Cursor → Option α) → Option α
  | [], c, task => task c
  | _ :: more, c, task =>
    match step c (fun c' => repeatStep step more c' task) with
    | some a => some a
    | none => task c

/-- The ends of repetitions of a step, those after more repetitions first. -/
def repeatEnds (step : Cursor → List Cursor) : List Char → Cursor → List Cursor
  | [], c => [c]
  | _ :: more, c => (step c).flatMap (repeatEnds step more) ++ [c]

namespace Pattern

instance : Append Pattern := ⟨seq⟩

instance : OrElse Pattern := ⟨fun p q => either p (q ())⟩

/-- A pattern or nothing. -/
def optional (p : Pattern) : Pattern := either p empty

/-- The character `c`. -/
def char (c : Char) : Pattern := one (· == c)

/-- The characters of a list, in order. -/
def ofList : List Char → Pattern
  | [] => empty
  | [c] => char c
  | c :: cs => seq (char c) (ofList cs)

/-- The characters of a word, in order. -/
def word (s : String) : Pattern := ofList s.toList

/-- The first of several words that fits. -/
def anyOf : List String → Pattern
  | [] => one fun _ => false
  | [s] => word s
  | s :: rest => either (word s) (anyOf rest)

/-- One or more characters of a class, as many as possible. -/
def oneOrMore (p : Char → Bool) : Pattern := seq (one p) (run p)

/-- One or more characters of a class, all that follow. -/
def whole (p : Char → Bool) : Pattern := seq (one p) (all p)

/-- All white space that follows, or nothing. -/
def blank : Pattern := all isBlank

/-- All white space that follows, at least one character of it. -/
def gap : Pattern := whole isBlank

/-- Tries the ends of the pattern from a place, best first, and gives the first result of the
task. -/
def run? {α : Type} : Pattern → Cursor → (Cursor → Option α) → Option α
  | empty, c, task => task c
  | one p, c, task =>
    match c.rest with
    | [] => none
    | x :: r => if p x then task (c.step x r) else none
  | run p, c, task => (c.stops p).findSome? task
  | all p, c, task => task (c.pass p)
  | few p, c, task => Cursor.nearest p task c.rest c
  | edge, c, task => if c.atEdge then task c else none
  | atEnd, c, task => if c.rest.isEmpty then task c else none
  | seq p q, c, task => p.run? c fun c' => q.run? c' task
  | either p q, c, task =>
    match p.run? c task with
    | some a => some a
    | none => q.run? c task
  | many p, c, task => repeatStep p.run? c.rest c task
  | capture p, c, task => p.run? c fun c' => task (c.capture c')

/-- The places where a match of the pattern may end, best first. -/
def ends : Pattern → Cursor → List Cursor
  | empty, c => [c]
  | one p, c =>
    match c.rest with
    | [] => []
    | x :: r => if p x then [c.step x r] else []
  | run p, c => c.stops p
  | all p, c => [c.pass p]
  | few p, c => (c.stops p).reverse
  | edge, c => if c.atEdge then [c] else []
  | atEnd, c => if c.rest.isEmpty then [c] else []
  | seq p q, c => (p.ends c).flatMap q.ends
  | either p q, c => p.ends c ++ q.ends c
  | many p, c => repeatEnds p.ends c.rest c
  | capture p, c => (p.ends c).map c.capture

end Pattern

/-! ## The run is the first of the ends -/

/-- The first result over a flattened list is the first result over its parts. -/
theorem findSome?_flatMap {α β γ : Type} (l : List α) (f : α → List β) (g : β → Option γ) :
    (l.flatMap f).findSome? g = l.findSome? fun a => (f a).findSome? g := by
  induction l with
  | nil => rfl
  | cons a l ih =>
    rw [List.flatMap_cons, List.findSome?_append, ih, List.findSome?_cons]
    cases (f a).findSome? g <;> rfl

theorem Cursor.nearest_eq {α : Type} (p : Char → Bool) (task : Cursor → Option α)
    (cs : List Char) (c : Cursor) (nearer : List Cursor) :
    (stopsFrom p cs c nearer).reverse.findSome? task =
      (nearer.reverse.findSome? task).or (nearest p task cs c) := by
  induction cs generalizing c nearer with
  | nil => simp [stopsFrom, nearest, List.findSome?_append]
  | cons x r ih =>
    unfold stopsFrom nearest
    split
    · rw [ih]
      cases h : task c <;> simp [List.findSome?_append, h]
    · cases h : task c <;> simp [List.findSome?_append, h]

theorem repeatStep_eq {α : Type} (step : Cursor → (Cursor → Option α) → Option α)
    (places : Cursor → List Cursor) (h : ∀ c task, step c task = (places c).findSome? task)
    (bound : List Char) (c : Cursor) (task : Cursor → Option α) :
    repeatStep step bound c task = (repeatEnds places bound c).findSome? task := by
  induction bound generalizing c with
  | nil => simp [repeatStep, repeatEnds]
  | cons x more ih =>
    unfold repeatStep repeatEnds
    rw [h, List.findSome?_append, findSome?_flatMap]
    simp only [ih]
    cases (places c).findSome? fun c' => (repeatEnds places more c').findSome? task <;> simp

/-- A pattern's run gives the first result over its ends, in their order. -/
theorem Pattern.run_eq_findSome? {α : Type} (p : Pattern) (c : Cursor)
    (task : Cursor → Option α) : p.run? c task = (p.ends c).findSome? task := by
  induction p generalizing c task with
  | empty => simp [run?, ends]
  | one p =>
    unfold run? ends
    split
    · rfl
    · split <;> simp
  | run p => simp [run?, ends]
  | all p => simp [run?, ends]
  | few p =>
    have := Cursor.nearest_eq p task c.rest c []
    simpa [run?, ends, Cursor.stops] using this.symm
  | edge => unfold run? ends; split <;> simp
  | atEnd => unfold run? ends; split <;> simp
  | seq p q ihp ihq => simp [run?, ends, ihp, ihq, findSome?_flatMap]
  | either p q ihp ihq =>
    simp only [run?, ends, ihp, ihq, List.findSome?_append]
    cases (p.ends c).findSome? task <;> simp
  | many p ih => exact repeatStep_eq _ _ (fun c task => ih c task) _ _ _
  | capture p ih => simp [run?, ends, ih, List.findSome?_map, Function.comp_def]

end Testwright.Text
