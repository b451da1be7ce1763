import Testwright.Json.Basic

/-!
# Tokens

A text is first cut into tokens: brackets, commas and colons, the three words, numbers and
strings. Between tokens there may be blanks, tabs and line ends.
-/

namespace Testwright.Json

/-- A token of a document. -/
inductive Token where
  | openArray
  | closeArray
  | openObject
  | closeObject
  | comma
  | colon
  | null
  | bool (b : Bool)
  | number (n : Number)
  | string (s : Option String)
  deriving DecidableEq

/-- White space between tokens. -/
def isSpace (c : Char) : Bool := c == ' ' || c == '\n' || c == '\t' || c == '\r'

/-! ## Strings -/

/-- Where the scan of a string stands. -/
inductive StringMode where
  | plain
  /-- After a backslash. -/
  | escape
  /-- After `digits` digits of a code unit with the value `value`. -/
  | unit (digits value : Nat)

/-- A string under way. -/
structure StringScan where
  /-- The characters so far, last first. -/
  chars : List Char := []
  /-- The first half of a surrogate pair, when it was the last thing read. -/
  high : Option Nat := none
  /-- Whether no surrogate has lost its partner. -/
  sound : Bool := true
  mode : StringMode := .plain

namespace StringScan

/-- Adds a character; a first half before it has lost its partner. -/
def push (s : StringScan) (c : Char) : StringScan :=
  ⟨c :: s.chars, none, s.sound && s.high.isNone, .plain⟩

/-- Adds a code unit. -/
def pushUnit (s : StringScan) (u : Nat) : StringScan :=
  if 0xD800 ≤ u ∧ u < 0xDC00 then
    ⟨s.chars, some u, s.sound && s.high.isNone, .plain⟩
  else if 0xDC00 ≤ u ∧ u < 0xE000 then
    match s.high with
    | some h =>
      ⟨Char.ofNat (0x10000 + (h - 0xD800) * 0x400 + (u - 0xDC00)) :: s.chars, none, s.sound, .plain⟩
    | none => ⟨s.chars, none, false, .plain⟩
  else s.push (Char.ofNat u)

/-- The value of a hexadecimal digit. -/
def hexValue (c : Char) : Option Nat :=
  if c.isDigit then some (c.toNat - '0'.toNat)
  else if 'a' ≤ c ∧ c ≤ 'f' then some (c.toNat - 'a'.toNat + 10)
  else if 'A' ≤ c ∧ c ≤ 'F' then some (c.toNat - 'A'.toNat + 10)
  else none

/-- The character that a letter after a backslash stands for. -/
def escaped (c : Char) : Option Char :=
  match c with
  | '"' => some '"'
  | '\\' => some '\\'
  | '/' => some '/'
  | 'b' => some '\x08'
  | 'f' => some '\x0c'
  | 'n' => some '\n'
  | 'r' => some '\r'
  | 't' => some '\t'
  | _ => none

/-- The text that was read; none when a surrogate has lost its partner. -/
def finish (s : StringScan) : Option String :=
  if s.sound && s.high.isNone then some (String.ofList s.chars.reverse) else none

/-- Reads on up to the closing quote; control characters are refused. -/
def scan : StringScan → List Char → Option (Option String × List Char)
  | _, [] => none
  | s, c :: rest =>
    match s.mode with
    | .plain =>
      if c = '"' then some (s.finish, rest)
      else if c = '\\' then scan { s with mode := .escape } rest
      else if c.toNat < 0x20 then none
      else scan (s.push c) rest
    | .escape =>
      if c = 'u' then scan { s with mode := .unit 0 0 } rest
      else
        match escaped c with
        | some x => scan (s.push x) rest
        | none => none
    | .unit digits value =>
      match hexValue c with
      | none => none
      | some d =>
        if digits = 3 then scan (s.pushUnit (value * 16 + d)) rest
        else scan { s with mode := .unit (digits + 1) (value * 16 + d) } rest

end StringScan

/-! ## Numbers -/

/-- Whether digits may stand before the point: at least one, and no zero before another. -/
def wholeAllowed (ds : List Char) : Bool :=
  match ds with
  | [] => false
  | ['0'] => true
  | d :: _ => d != '0'

/-- Reads the digits after a point, when there is one. -/
def scanFraction : List Char → Option (List Char × List Char)
  | '.' :: cs =>
    let (ds, rest) := cs.span Char.isDigit
    if ds.isEmpty then none else some (ds, rest)
  | cs => some ([], cs)

/-- Reads the sign and the digits of an exponent. -/
def scanExponentDigits (negative : Bool) (cs : List Char) :
    Option (Option (Bool × List Char) × List Char) :=
  let (ds, rest) := cs.span Char.isDigit
  if ds.isEmpty then none else some (some (negative, ds), rest)

/-- Reads an exponent, when there is one. -/
def scanExponent : List Char → Option (Option (Bool × List Char) × List Char)
  | [] => some (none, [])
  | c :: cs =>
    if c = 'e' || c = 'E' then
      match cs with
      | '-' :: cs => scanExponentDigits true cs
      | '+' :: cs => scanExponentDigits false cs
      | cs => scanExponentDigits false cs
    else some (none, c :: cs)

/-- Reads a number after its sign. -/
def scanNumber (negative : Bool) (cs : List Char) : Option (Number × List Char) := do
  let (whole, cs) := cs.span Char.isDigit
  if wholeAllowed whole then
    let (fraction, cs) ← scanFraction cs
    let (exponent, cs) ← scanExponent cs
    some (⟨negative, whole, fraction, exponent⟩, cs)
  else none

/-! ## Tokens -/

/-- Reads the token that begins with the character `c`. -/
def scanToken (c : Char) (rest : List Char) : Option (Token × List Char) :=
  match c with
  | '[' => some (.openArray, rest)
  | ']' => some (.closeArray, rest)
  | '\x7b' => some (.openObject, rest)
  | '\x7d' => some (.closeObject, rest)
  | ',' => some (.comma, rest)
  | ':' => some (.colon, rest)
  | '"' => (StringScan.scan {} rest).map fun (s, rest) => (.string s, rest)
  | '-' => (scanNumber true rest).map fun (n, rest) => (.number n, rest)
  | 'n' => if ['u', 'l', 'l'].isPrefixOf rest then some (.null, rest.drop 3) else none
  | 't' => if ['r', 'u', 'e'].isPrefixOf rest then some (.bool true, rest.drop 3) else none
  | 'f' => if ['a', 'l', 's', 'e'].isPrefixOf rest then some (.bool false, rest.drop 4) else none
  | c =>
    if c.isDigit then (scanNumber false (c :: rest)).map fun (n, rest) => (.number n, rest)
    else none

/-- The tokens of a text. Each takes a character, so the text bounds their number; `done` holds
those read, last first. -/
def scanFrom : List Char → List Token → List Char → Option (List Token)
  | _, done, [] => some done.reverse
  | [], _, _ :: _ => none
  | _ :: more, done, c :: rest =>
    if isSpace c then scanFrom more done rest
    else
      match scanToken c rest with
      | none => none
      | some (t, rest) => scanFrom more (t :: done) rest

/-- The tokens of a text. -/
def scan (cs : List Char) : Option (List Token) := scanFrom cs [] cs

end Testwright.Json
