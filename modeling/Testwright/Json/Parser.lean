import Testwright.Json.Token

/-!
# Reading documents

A document is built from its tokens, one after another, with the containers that are open kept on
a stack. The text is read strictly: one document, and nothing but white space around it.
-/

namespace Testwright.Json

/-- A container that is open, with what it holds so far, last first. -/
inductive Frame where
  | items (done : List Json)
  | members (done : List (Option String × Json)) (key : Option String)

/-- What may come next. -/
inductive Reading where
  /-- A document. -/
  | value (stack : List Frame)
  /-- The first item of an array, or its end. -/
  | firstItem (stack : List Frame)
  /-- The first key of an object, or its end. -/
  | firstKey (stack : List Frame)
  /-- A key of the object with these members. -/
  | key (done : List (Option String × Json)) (stack : List Frame)
  /-- The colon after a key. -/
  | colon (done : List (Option String × Json)) (key : Option String) (stack : List Frame)
  /-- A comma or the end of the innermost container. -/
  | next (stack : List Frame)
  /-- Nothing: the document is complete. -/
  | complete (document : Json)

namespace Reading

/-- Puts a finished document into the innermost container. -/
def put (v : Json) : List Frame → Reading
  | [] => complete v
  | .items done :: stack => next (.items (v :: done) :: stack)
  | .members done k :: stack => next (.members ((k, v) :: done) k :: stack)

/-- Begins or completes a document with a token. -/
def begin (stack : List Frame) : Token → Option Reading
  | .null => some (put .null stack)
  | .bool b => some (put (.bool b) stack)
  | .number n => some (put (.number n) stack)
  | .string s => some (put (.string s) stack)
  | .openArray => some (firstItem stack)
  | .openObject => some (firstKey stack)
  | _ => none

/-- Takes one token. -/
def step : Reading → Token → Option Reading
  | value stack, t => begin stack t
  | firstItem stack, .closeArray => some (put (.array []) stack)
  | firstItem stack, t => begin (.items [] :: stack) t
  | firstKey stack, .closeObject => some (put (.object []) stack)
  | firstKey stack, .string k => some (colon [] k stack)
  | key done stack, .string k => some (colon done k stack)
  | colon done k stack, .colon => some (value (.members done k :: stack))
  | next (.items done :: stack), .comma => some (value (.items done :: stack))
  | next (.items done :: stack), .closeArray => some (put (.array done.reverse) stack)
  | next (.members done _ :: stack), .comma => some (key done stack)
  | next (.members done _ :: stack), .closeObject => some (put (.object done.reverse) stack)
  | _, _ => none

/-- Takes tokens one after another. -/
def run : Reading → List Token → Option Reading
  | r, [] => some r
  | r, t :: ts => (r.step t).bind (run · ts)

/-- The document, when it is complete. -/
def document? : Reading → Option Json
  | complete v => some v
  | _ => none

end Reading

/-- The document that some tokens form. -/
def ofTokens (ts : List Token) : Option Json := ((Reading.value []).run ts).bind Reading.document?

/-- Reads a document. -/
def parse (s : String) : Option Json := (scan s.toList).bind ofTokens

end Testwright.Json
