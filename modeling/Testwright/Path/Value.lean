import Testwright.Text.Basic
import Testwright.Text.Integer

/-!
# Values

The values that conditions compare with and that tests assign: `null`, an object of which only
its existence matters, booleans, integers of 64 bits, strings, and symbols, which stand for text
that is no literal. A value is read from a literal of a source text and written as one.
-/

namespace Testwright

open Text

/-- A literal, or a symbol in place of one. -/
inductive Value where
  | null
  /-- Some object other than `null`, whose identity does not matter. -/
  | nonNull
  | bool (b : Bool)
  | int (n : Int64)
  | str (s : String)
  /-- A name or an expression that is no literal. -/
  | symbol (s : String)
  deriving DecidableEq, Inhabited

namespace Value

/-- The integer of an integer literal. -/
def asInt : Value → Option Int64
  | int n => some n
  | _ => none

/-- Whether the value is `null`. -/
def isNull : Value → Bool
  | null => true
  | _ => false

/-- Whether the value is a symbol, that is, no literal. -/
def isSymbol : Value → Bool
  | symbol _ => true
  | _ => false

/-! ## Order -/

/-- The place of the kind of a value in the order of values. -/
def rank : Value → Nat
  | null => 0
  | nonNull => 1
  | bool _ => 2
  | int _ => 3
  | str _ => 4
  | symbol _ => 5

/-- Whether a value stands strictly before another: by kind, then by content. -/
def before : Value → Value → Bool
  | bool a, bool b => !a && b
  | int m, int n => m < n
  | str s, str t => s < t
  | symbol s, symbol t => s < t
  | a, b => a.rank < b.rank

/-- Puts a value into an ascending list without repetition. -/
def insertInto (v : Value) : List Value → List Value
  | [] => [v]
  | w :: rest =>
    if v.before w then v :: w :: rest
    else if v = w then w :: rest
    else w :: insertInto v rest

/-! ## Literals -/

/-- The text inside a pair of quotes. -/
def unquoted? (cs : List Char) : Option (List Char) :=
  if isEnclosedBy '"' cs || isEnclosedBy '\'' cs then some (inside cs) else none

/-- An integer literal without its suffix for long integers. -/
def dropLongSuffix (cs : List Char) : List Char :=
  if cs.getLast? = some 'L' || cs.getLast? = some 'l' then cs.dropLast else cs

/-- The value of a trimmed literal: text that is no literal is a symbol. -/
def ofTrimmed (cs : List Char) : Value :=
  if cs = "null".toList then null
  else if cs = "true".toList then bool true
  else if cs = "false".toList then bool false
  else
    match unquoted? cs with
    | some inner => str (String.ofList inner)
    | none =>
      match readInt64 ((dropLongSuffix cs).filter (· != '_')) with
      | some n => int n
      | none => symbol (String.ofList cs)

/-- The value of a literal in a source text, without the white space around it. -/
def ofLiteral (cs : List Char) : Value := ofTrimmed (trim cs)

/-- A character inside a string literal. -/
def escapeChar (c : Char) : List Char :=
  if c = '\\' then ['\\', '\\'] else if c = '"' then ['\\', '"'] else [c]

/-- The source text of a value. -/
def render : Value → String
  | null => "null"
  | nonNull => "new Object()"
  | bool true => "true"
  | bool false => "false"
  | int n => String.ofList (writeInt n.toInt)
  | str s => String.ofList ('"' :: s.toList.flatMap escapeChar ++ ['"'])
  | symbol s => s

/-! ## Values made from values -/

/-- What is appended to a string or a symbol to get another one. -/
def differentMark : String := "_different"

/-- A value other than the given one. The largest integer has its lower neighbour, any other
integer its upper one. -/
def different : Value → Value
  | null => nonNull
  | nonNull => null
  | bool b => bool (!b)
  | int n => int (if n = Int64.maxValue then n - 1 else n + 1)
  | str s => str (s ++ differentMark)
  | symbol s => symbol (s ++ differentMark)

/-- The object that is made for a type: the symbol of a call of its constructor. -/
def instanceOf : Value → Value
  | symbol s => symbol ("new " ++ s ++ "()")
  | str s => symbol ("new " ++ s ++ "()")
  | v => symbol ("new " ++ v.render ++ "()")

end Value

end Testwright
