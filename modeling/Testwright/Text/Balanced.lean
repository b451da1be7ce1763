import Testwright.Text.CharClass

/-!
# Balanced delimiters

The text between an opening delimiter and the closing one that belongs to it. Delimiters inside
string and character literals do not count; in a literal a backslash takes the next character with
it.
-/

namespace Testwright.Text

/-- Whether the character opens and closes a literal. -/
def isQuote (c : Char) : Bool := c = '"' || c = '\''

/-- Scans to the closing delimiter. `depth` counts the pairs open inside, `quote` is the quote of
the literal under way, and `seen` the text so far, last character first. -/
def closeFrom (opener closer : Char) :
    (depth : Nat) → (quote : Option Char) → (seen : List Char) → List Char →
      Option (List Char × List Char)
  | _, _, _, [] => none
  | depth, some q, seen, '\\' :: rest =>
    match rest with
    | [] => none
    | x :: rest' => closeFrom opener closer depth (some q) (x :: '\\' :: seen) rest'
  | depth, some q, seen, c :: rest =>
    closeFrom opener closer depth (if c = q then none else some q) (c :: seen) rest
  | depth, none, seen, c :: rest =>
    if isQuote c then closeFrom opener closer depth (some c) (c :: seen) rest
    else if c = opener then closeFrom opener closer (depth + 1) none (c :: seen) rest
    else if c = closer then
      match depth with
      | 0 => some (seen.reverse, rest)
      | d + 1 => closeFrom opener closer d none (c :: seen) rest
    else closeFrom opener closer depth none (c :: seen) rest

/-- From the text after an opening delimiter, the text before the closing one that belongs to it,
and what follows. -/
def closeAfter (opener closer : Char) (cs : List Char) : Option (List Char × List Char) :=
  closeFrom opener closer 0 none [] cs

/-- The text between the opening delimiter at the start and its closing one. -/
def balanced (opener closer : Char) : List Char → Option (List Char)
  | [] => none
  | c :: rest => if c = opener then (closeAfter opener closer rest).map (·.1) else none

/-- The text from a byte offset on; nothing when the offset lies inside a character or past the
end. -/
def fromByte : Nat → List Char → Option (List Char)
  | 0, cs => some cs
  | _ + 1, [] => none
  | n + 1, c :: cs => if c.utf8Size ≤ n + 1 then fromByte (n + 1 - c.utf8Size) cs else none

/-- The text between the parentheses that open at a byte offset. -/
def balancedParens (text : String) (offset : Nat) : Option String :=
  ((fromByte offset text.toList).bind (balanced '(' ')')).map String.ofList

/-- The text between the braces that open at a byte offset. -/
def balancedBraces (text : String) (offset : Nat) : Option String :=
  ((fromByte offset text.toList).bind (balanced '\x7b' '\x7d')).map String.ofList

end Testwright.Text
