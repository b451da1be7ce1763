import Testwright.Distinct
import Testwright.NameMap
import Testwright.Path.Value
import Testwright.Source.Method

/-!
# Test methods of a source text

The test methods of a source text, found by their annotation, and what their bodies show: the
assertions, the methods that are called, and the literals that variables are assigned.
-/

namespace Testwright

open Text

/-- A test method of a source text. -/
structure TestUnit where
  name : String
  /-- The text between the braces of the method. -/
  body : String
  assertionCount : Nat
  /-- The names of the called methods, each once. -/
  calls : List String
  /-- The literals that each variable is assigned, in their order. -/
  inputs : NameMap (List Value)
  deriving DecidableEq, Inhabited

namespace Source

/-! ## Patterns -/

/-- A name. -/
def name : Pattern := .whole isWord

/-- Arguments of an annotation, if there are any. -/
def annotationArguments : Pattern := .optional (.blank ++ plainParens)

/-- An annotation after the first, and the white space after it. The end of its name may turn out to
be the name of the method. -/
def furtherAnnotation : Pattern :=
  .char '@' ++ .oneOrMore isWord ++ annotationArguments ++ .blank

/-- The head of a test method, up to the opening brace of its body. -/
def testHead : Pattern :=
  .word "@Test" ++ .edge ++ annotationArguments ++ .blank ++ .many furtherAnnotation ++
    .optional (.anyOf ["public", "protected", "private"] ++ .gap) ++
    .optional (.word "void" ++ .gap) ++
    .capture name ++ .blank ++ plainParens ++ bodyStart

/-- Letters in either case. -/
def anyCase : List Char → Pattern
  | [] => .empty
  | c :: cs => .one (sameLetter c) ++ anyCase cs

/-- A call of an assertion, whose name begins with `assert` in any case. -/
def assertionCall : Pattern :=
  .edge ++ .capture (anyCase "assert".toList ++ name) ++ .blank ++ .char '('

/-- A call of a method on an object. -/
def methodCall : Pattern := .char '.' ++ .capture name ++ .blank ++ .char '('

/-- A string literal in one row. -/
def stringLiteral : Pattern :=
  let plain := Pattern.all fun c => c != '"' && c != '\\' && c != '\n'
  .char '"' ++ plain ++ .many (.char '\\' ++ .one isInline ++ plain) ++ .char '"'

/-- A literal of an assignment. -/
def literal : Pattern :=
  (.optional (.char '-') ++ .whole isDigit ++
      .optional (.one fun c => c == 'l' || c == 'L')) <|>
    stringLiteral <|> .anyOf ["null", "true", "false"]

/-- The assignment of a literal to a name. -/
def literalBinding : Pattern :=
  .edge ++ .capture (.one (fun c => c.isAlpha || c == '_') ++ .all isWord) ++ .blank ++
    .char '=' ++ .blank ++ .capture literal

/-! ## Contents of a body -/

/-- The first captures of the matches of a pattern. -/
def firstCaptures (p : Pattern) (cs : List Char) : List String :=
  (p.findAll cs).filterMap fun f => f.captures.head?.map String.ofList

/-- The names of the assertions that are called. -/
def assertionCalls (cs : List Char) : List String := firstCaptures assertionCall cs

/-- The names of the methods that are called, each once. -/
def methodCalls (cs : List Char) : List String := distinct id (firstCaptures methodCall cs)

/-- Whether a text goes on with what may belong to a name or a number. -/
def isGlued (rest : List Char) : Bool :=
  rest.head?.any fun c => isAlphanumeric c || c == '_' || c == '.'

/-- A name with the literal that it is assigned. -/
def bindingOf (f : Found) : Option (String × Value) :=
  match f.captures with
  | [name, literal] =>
    if isGlued f.rest then none else some (String.ofList name, Value.ofLiteral literal)
  | _ => none

/-- The literals that each name is assigned. -/
def literalBindings (cs : List Char) : NameMap (List Value) :=
  (NameMap.group (·.1) ((literalBinding.findAll cs).filterMap bindingOf)).map fun _ vs =>
    vs.map (·.2)

/-! ## Test methods -/

/-- The test method with a name and a body. -/
def testUnit (name body : List Char) : TestUnit where
  name := String.ofList name
  body := String.ofList body
  assertionCount := (assertionCall.findAll body).length
  calls := methodCalls body
  inputs := literalBindings body

/-- The test method at a head; none when its body is not closed. -/
def unitAt (f : Found) : Option TestUnit :=
  f.captures.head?.bind fun name =>
    (closeAfter '\x7b' '\x7d' f.rest).map fun c => testUnit name c.1

/-- The test methods of a source text. -/
def testUnits (source : String) : List TestUnit :=
  (testHead.findAll source.toList).filterMap unitAt

/-- What the names of calls begin with that belong to the test and not to the class under test. -/
def frameworkNames : List String := ["assert", "verify", "when", "mock"]

/-- Whether the name of a call belongs to the test. -/
def isFrameworkCall (name : String) : Bool :=
  frameworkNames.any fun h => h.toList.isPrefixOf name.toList

/-- What is called when no call of the class under test is found. -/
def unknownTarget : String := "unknown"

/-- The first called method that does not belong to the test. -/
def targetMethod (cs : List Char) : String :=
  ((methodCalls cs).find? fun name => !isFrameworkCall name).getD unknownTarget

end Source

end Testwright
