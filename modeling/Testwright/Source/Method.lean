import Testwright.Text.Balanced
import Testwright.Text.Search

/-!
# Method bodies

The body of a method in a source text, found by the head of its declaration and the braces that
follow. Nothing else of the text is understood.
-/

namespace Testwright.Source

open Text

/-- The words that may stand before a declaration. -/
def modifiers : List String :=
  ["public", "private", "protected", "static", "final", "synchronized", "abstract"]

/-- A character of a type. -/
def isTypeChar (c : Char) : Bool :=
  isWord c || ['<', '>', '[', ']', ',', '.', '?'].contains c

/-- A character of the list of exceptions after `throws`. -/
def isThrowsChar (c : Char) : Bool := isWord c || c == '.' || c == ',' || isBlank c

/-- A list in parentheses without parentheses inside. -/
def plainParens : Pattern := .char '(' ++ .all (· != ')') ++ .char ')'

/-- The exceptions that a method declares, with the white space around them: at least two
characters, of which the first is white space. -/
def throwsClause : Pattern := .word "throws" ++ .one isBlank ++ .whole isThrowsChar

/-- What stands between the parameters of a declaration and its body, up to the opening brace. -/
def bodyStart : Pattern :=
  .blank ++ .optional throwsClause ++ .char '\x7b'

/-- The head of the declaration of a method, up to the opening brace of its body. -/
def methodHead (name : String) : Pattern :=
  .many (.anyOf modifiers ++ .gap) ++ .whole isTypeChar ++ .oneOrMore isBlank ++ .word name ++
    .blank ++ plainParens ++ bodyStart

/-- The first body that is closed, among declarations of the method. -/
def firstBody : List Found → Option (List Char)
  | [] => none
  | head :: rest =>
    match closeAfter '\x7b' '\x7d' head.rest with
    | some (inner, _) => some ('\x7b' :: inner ++ ['\x7d'])
    | none => firstBody rest

/-- The body of a method with its braces; empty when there is none. -/
def methodBody (source name : String) : String :=
  String.ofList ((firstBody ((methodHead name).findAll source.toList)).getD [])

end Testwright.Source
