import Testwright.Path.Basic
import Testwright.Text.Balanced
import Testwright.Text.Search

/-!
# Predicates of a method body

The conditions of the `if` statements of a method body, in the order of the text. A condition is
recognised when it is one comparison; any other one is dropped, so that it takes no part in the
analysis.
-/

namespace Testwright

open Text

/-- A comparison of an `if` statement. -/
structure Predicate where
  line : LineNumber
  var : String
  relation : Relation
  value : Value
  deriving DecidableEq, Inhabited

/-- One side of a predicate as a condition. -/
def Predicate.condition (p : Predicate) (negated : Bool) : Condition :=
  ⟨p.var, p.relation, p.value, negated⟩

namespace Source

/-! ## Patterns -/

/-- The start of an `if` statement, up to its opening parenthesis. -/
def ifSite : Pattern := .edge ++ .word "if" ++ .blank ++ .char '('

/-- One or more characters of a row, as few as possible. -/
def shortText : Pattern := .one isInline ++ .few isInline

/-- The rest of a row, at least one character of it. -/
def restOfRow : Pattern := .whole isInline

/-- The tokens of the comparisons. -/
def relationTokens : List (String × Relation) :=
  [("==", .eq), ("!=", .ne), ("<=", .le), (">=", .ge), ("<", .lt), (">", .gt)]

/-- Two sides with a comparison between them. -/
def comparisonPattern : Pattern :=
  .capture shortText ++ .blank ++ .capture (.anyOf (relationTokens.map (·.1))) ++ .run isBlank ++
    .capture restOfRow ++ .atEnd

/-- A word character or a dot. -/
def isDotted (c : Char) : Bool := isWord c || c == '.'

/-- A test for a type. -/
def instanceOfPattern : Pattern :=
  .capture shortText ++ .gap ++ .word "instanceof" ++ .gap ++
    .capture (.whole isDotted ++
      .optional (.char '<' ++ .all (· != '>') ++ .char '>')) ++
    .atEnd

/-- A negation or nothing. -/
def negation : Pattern := .capture (.optional (.char '!'))

/-- A call of `equals`. -/
def equalsPattern : Pattern :=
  negation ++ .blank ++ .capture (.oneOrMore isDotted) ++ .word ".equals(" ++
    .capture (.oneOrMore isInline) ++ .char ')' ++ .atEnd

/-- A name, or a call without arguments. -/
def flagPattern : Pattern :=
  negation ++ .blank ++
    .capture (.one (fun c => c.isAlpha || c == '_') ++ .all isDotted ++
      .optional (.word "()")) ++
    .atEnd

/-! ## One condition -/

/-- A comparison of a variable with a value. -/
structure Comparison where
  var : String
  relation : Relation
  value : Value
  deriving DecidableEq

/-- The text inside parentheses that enclose all of it, as often as there are such. Every pair
takes two characters, so the text bounds their number. -/
def stripParens : List Char → List Char → List Char
  | _ :: more, '(' :: rest =>
    match closeAfter '(' ')' rest with
    | some (inner, []) => stripParens more (trim inner)
    | _ => '(' :: rest
  | _, cs => cs

/-- Whether a text is a literal. -/
def isLiteral (cs : List Char) : Bool := !(Value.ofLiteral cs).isSymbol

/-- The comparison of two sides. The variable is the side that is no literal; when the left side is
the literal, its converse holds between them. Comparing with `null` is a relation of its own. -/
def compareSides (left : List Char) (r : Relation) (right : List Char) : Option Comparison :=
  if left.isEmpty || right.isEmpty then none
  else
    let (var, r, literal) :=
      if isLiteral left && !isLiteral right then (right, r.converse, left) else (left, r, right)
    let value := Value.ofLiteral literal
    let r :=
      match r, value with
      | .eq, .null => .isNull
      | .ne, .null => .isNotNull
      | r, _ => r
    some ⟨String.ofList var, r, value⟩

/-- The relation of a token. -/
def relationOf (token : List Char) : Relation :=
  (relationTokens.lookup (String.ofList token)).getD .gt

/-- Reads a test for a type. -/
def readInstanceOf (cs : List Char) : Option Comparison :=
  match instanceOfPattern.captures? cs with
  | some [var, type] =>
    some ⟨String.ofList (trim var), .instanceOf, .symbol (String.ofList type)⟩
  | _ => none

/-- Reads a call of `equals`. -/
def readEquals (cs : List Char) : Option Comparison :=
  match equalsPattern.captures? cs with
  | some [bang, var, argument] =>
    some ⟨String.ofList var, if bang.isEmpty then .eq else .ne, Value.ofLiteral argument⟩
  | _ => none

/-- Reads a flag, which is compared with the truth value it must have. -/
def readFlag (cs : List Char) : Option Comparison :=
  match flagPattern.captures? cs with
  | some [bang, var] => some ⟨String.ofList var, .eq, .bool bang.isEmpty⟩
  | _ => none

/-- Reads a condition from its text: a test for a type, a call of `equals`, a comparison, or a
flag. Conjunctions, disjunctions and chains of comparisons are not read. -/
def readCondition (cs : List Char) : Option Comparison :=
  let cs := stripParens cs (trim cs)
  if cs.isEmpty || contains ['&', '&'] cs || contains ['|', '|'] cs then none
  else
    match readInstanceOf cs with
    | some c => some c
    | none =>
      match readEquals cs with
      | some c => some c
      | none =>
        match comparisonPattern.captures? cs with
        | some [left, token, right] =>
          let right := trim right
          if comparisonPattern.isMatch right then none
          else compareSides (trim left) (relationOf token) right
        | _ => readFlag cs

/-- Reads a condition. -/
def parseCondition (text : String) : Option Comparison := readCondition text.toList

/-! ## All conditions -/

/-- The `if` statements of a body. -/
def ifSites (body : String) : List Found := ifSite.findAll body.toList

/-- The number of line feeds in a text, as a distance between lines. -/
def lineFeeds (cs : List Char) : LineNumber := UInt32.ofNat (cs.count '\n')

/-- The predicates at some `if` statements; `line` is the line where the text before the first of
them begins. -/
def predicatesAt (line : LineNumber) : List Found → List Predicate
  | [] => []
  | site :: rest =>
    let here := line + lineFeeds site.skipped
    let others := predicatesAt (here + lineFeeds site.text) rest
    match (closeAfter '(' ')' site.rest).bind fun c => readCondition c.1 with
    | some c => ⟨here, c.var, c.relation, c.value⟩ :: others
    | none => others

/-- The predicates of a method body. -/
def predicates (body : String) : List Predicate := predicatesAt 1 (ifSites body)

/-- The number of `if` statements, recognised or not. -/
def countSites (body : String) : Nat := (ifSites body).length

end Source

end Testwright
