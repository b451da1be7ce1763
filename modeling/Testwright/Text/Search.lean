import Testwright.Text.Pattern

/-!
# Searching with patterns

The matches of a pattern in a text, from left to right and without overlap. Each match is given
with the text that was passed over before it, so that the text is the concatenation of what is
passed over, what is matched, and what is left at the end.
-/

namespace Testwright.Text

/-- A match in a text. -/
structure Found where
  /-- The text between the place where the search began and the match. -/
  skipped : List Char
  /-- The matched text. -/
  text : List Char
  /-- The captured texts, in the order in which they end. -/
  captures : List (List Char)
  /-- The text after the match. -/
  rest : List Char

/-- The text that a search passed over up to the end of its match. -/
def Found.passed (f : Found) : List Char := f.skipped ++ f.text

namespace Pattern

/-- The best match that begins exactly at a place, `before` being the character before it. -/
def matchAt (p : Pattern) (before : Option Char) (cs : List Char) :
    Option (List Char × List (List Char) × List Char) :=
  (p.run? { before := before, rest := cs } some).map fun c =>
    (cs.take c.read, c.spans.reverse.map Span.text, c.rest)

/-- The captures of the best match that begins at the start of the text. -/
def captures? (p : Pattern) (cs : List Char) : Option (List (List Char)) :=
  (p.matchAt none cs).map (·.2.1)

/-- Whether some match begins at the start of the text. -/
def isMatch (p : Pattern) (cs : List Char) : Bool := (p.matchAt none cs).isSome

/-- The leftmost match; `skipped` holds the characters already passed over, last first. -/
def findFrom (p : Pattern) (skipped : List Char) (before : Option Char) :
    List Char → Option Found
  | [] => (p.matchAt before []).map fun m => ⟨skipped.reverse, m.1, m.2.1, m.2.2⟩
  | x :: r =>
    match p.matchAt before (x :: r) with
    | some m => some ⟨skipped.reverse, m.1, m.2.1, m.2.2⟩
    | none => findFrom p (x :: skipped) (some x) r

/-- The leftmost match of a pattern in a text. -/
def find (p : Pattern) (cs : List Char) : Option Found := p.findFrom [] none cs

/-- The character before the place where a match ended. -/
def lastOf (f : Found) (before : Option Char) : Option Char :=
  f.text.getLast?.or (f.skipped.getLast?.or before)

/-- The matches of a pattern that consumes at least one character, which bounds their number by
the length of the text. -/
def findAllFrom (p : Pattern) : List Char → Option Char → List Char → List Found
  | [], _, _ => []
  | _ :: more, before, cs =>
    match p.findFrom [] before cs with
    | none => []
    | some f => f :: findAllFrom p more (lastOf f before) f.rest

/-- The matches of a pattern, from left to right and without overlap. -/
def findAll (p : Pattern) (cs : List Char) : List Found := p.findAllFrom cs none cs

/-- The text with every match replaced. -/
def replaceAllFrom (p : Pattern) (replacement : List Char) :
    List Char → Option Char → List Char → List Char
  | [], _, cs => cs
  | _ :: more, before, cs =>
    match p.findFrom [] before cs with
    | none => cs
    | some f =>
      f.skipped ++ replacement ++ replaceAllFrom p replacement more (lastOf f before) f.rest

/-- The text with every match of the pattern replaced. -/
def replaceAll (p : Pattern) (replacement cs : List Char) : List Char :=
  p.replaceAllFrom replacement cs none cs

/-- The text with the leftmost match of the pattern replaced. -/
def replaceOne (p : Pattern) (replacement cs : List Char) : List Char :=
  match p.find cs with
  | none => cs
  | some f => f.skipped ++ replacement ++ f.rest

end Pattern

/-- The text with one of its matches replaced: the one at position `k` of the list. -/
def replaceNth (k : Nat) (replacement cs : List Char) (found : List Found) : List Char :=
  match found[k]? with
  | none => cs
  | some f => (found.take k).flatMap Found.passed ++ f.skipped ++ replacement ++ f.rest

end Testwright.Text
