import Testwright.Json.Basic

/-!
# Writing documents

Documents are written without white space. `Json.write` puts the characters of a document in front
of those that follow it.
-/

namespace Testwright.Json

/-- A hexadecimal digit. -/
def hexDigit (n : Nat) : Char := (Nat.toDigits 16 n).headD '0'

/-- A character inside a string: quotes, backslashes and control characters are escaped. -/
def escapeChar (c : Char) (tail : List Char) : List Char :=
  match c with
  | '"' => '\\' :: '"' :: tail
  | '\\' => '\\' :: '\\' :: tail
  | '\x08' => '\\' :: 'b' :: tail
  | '\x0c' => '\\' :: 'f' :: tail
  | '\n' => '\\' :: 'n' :: tail
  | '\r' => '\\' :: 'r' :: tail
  | '\t' => '\\' :: 't' :: tail
  | c =>
    if c.toNat < 0x20 then
      '\\' :: 'u' :: '0' :: '0' :: hexDigit (c.toNat / 16) :: hexDigit (c.toNat % 16) :: tail
    else c :: tail

/-- A string in quotes. A string that is no text is written as an empty one. -/
def writeString (s : Option String) (tail : List Char) : List Char :=
  '"' :: (s.getD "").toList.foldr escapeChar ('"' :: tail)

/-- A number. -/
def Number.write (n : Number) (tail : List Char) : List Char :=
  let exponent :=
    match n.exponent with
    | none => tail
    | some (true, ds) => 'e' :: '-' :: (ds ++ tail)
    | some (false, ds) => 'e' :: (ds ++ tail)
  let fraction := if n.fraction.isEmpty then exponent else '.' :: (n.fraction ++ exponent)
  if n.negative then '-' :: (n.whole ++ fraction) else n.whole ++ fraction

mutual

/-- The characters of a document, followed by `tail`. -/
def write : Json → List Char → List Char
  | .null, tail => 'n' :: 'u' :: 'l' :: 'l' :: tail
  | .bool true, tail => 't' :: 'r' :: 'u' :: 'e' :: tail
  | .bool false, tail => 'f' :: 'a' :: 'l' :: 's' :: 'e' :: tail
  | .number n, tail => n.write tail
  | .string s, tail => writeString s tail
  | .array [], tail => '[' :: ']' :: tail
  | .array (v :: items), tail => '[' :: write v (writeItems items tail)
  | .object [], tail => '\x7b' :: '\x7d' :: tail
  | .object ((k, v) :: members), tail =>
    '\x7b' :: writeString k (':' :: write v (writeMembers members tail))

/-- The items of an array after the first, and its end. -/
def writeItems : List Json → List Char → List Char
  | [], tail => ']' :: tail
  | v :: items, tail => ',' :: write v (writeItems items tail)

/-- The members of an object after the first, and its end. -/
def writeMembers : List (Option String × Json) → List Char → List Char
  | [], tail => '\x7d' :: tail
  | (k, v) :: members, tail =>
    ',' :: writeString k (':' :: write v (writeMembers members tail))

end

/-- The text of a document. -/
def render (v : Json) : String := String.ofList (v.write [])

end Testwright.Json
