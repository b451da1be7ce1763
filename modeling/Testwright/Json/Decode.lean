import Testwright.Json.Number
import Testwright.Json.Parser
import Testwright.NameMap

/-!
# Reading values from documents

Readers of the kinds of values that records are made of. A record is an object with its fields, in
any order and among others that are ignored, or an array of its fields in the order of their
declaration. Nothing is converted: a number is no text, and `null` stands only for a value that may
be absent.
-/

namespace Testwright.Json

/-! ## Plain values -/

/-- A truth value. -/
def bool? : Json → Option Bool
  | bool b => some b
  | _ => none

/-- A text. -/
def text? : Json → Option String
  | string s => s
  | _ => none

/-- An integer of 64 bits, with or without a sign. -/
def integer? : Json → Option Int
  | number n => n.int?
  | _ => none

/-- A natural number below a bound. -/
def natBelow? (bound : Nat) (j : Json) : Option Nat :=
  j.integer?.bind fun n => if 0 ≤ n ∧ n < bound then some n.toNat else none

/-- A natural number of 64 bits. -/
def nat? (j : Json) : Option Nat := natBelow? (Nat.pow 2 64) j

/-- A word of 32 bits. -/
def uint32? (j : Json) : Option UInt32 := (natBelow? (Nat.pow 2 32) j).map UInt32.ofNat

/-- A word of 64 bits. -/
def uint64? (j : Json) : Option UInt64 := (natBelow? (Nat.pow 2 64) j).map UInt64.ofNat

/-- An integer of 64 bits with a sign. -/
def int64? (j : Json) : Option Int64 := j.integer?.bind Text.toInt64?

/-- An integer as the nearest double. -/
def nearestFloat (n : Int) : Float :=
  let size := n.natAbs.toUInt64.toFloat
  if n < 0 then -size else size

/-- A double; an integer stands for the nearest one. -/
def float? : Json → Option Float
  | number n => n.value.map fun v =>
    match v with
    | .int k => nearestFloat k
    | .float x => x
  | _ => none

/-- A double that is no number or not finite, by its name. -/
def namedFloat? (s : String) : Option Float :=
  let (negative, name) :=
    match s.toList with
    | '-' :: cs => (true, cs)
    | '+' :: cs => (false, cs)
    | cs => (false, cs)
  let name := String.ofList (name.map Char.toLower)
  let size : Option Float :=
    if name = "nan" then some (0 / 0)
    else if name = "inf" ∨ name = "infinity" then some (1 / 0)
    else none
  size.map fun x => if negative then -x else x

/-- A double, or the name of one that is no number or not finite. -/
def oddFloat? (j : Json) : Option Float :=
  match j with
  | string (some s) => namedFloat? s
  | j => j.float?

/-- A value that may be absent. -/
def optional? {α : Type} (f : Json → Option α) : Json → Option (Option α)
  | null => some none
  | j => (f j).map some

/-- A list. -/
def list? {α : Type} (f : Json → Option α) : Json → Option (List α)
  | array items => items.mapM f
  | _ => none

/-- A list of texts. -/
def texts? (j : Json) : Option (List String) := j.list? text?

/-- A map from names; a name that is repeated has its last value. -/
def nameMap? {α : Type} (f : Json → Option α) : Json → Option (NameMap α)
  | object members =>
    (members.mapM fun (m : Option String × Json) =>
      m.1.bind fun k => (f m.2).map fun v => (k, v)).map NameMap.ofList
  | _ => none

/-- A map from names, as a document. -/
def ofNameMap {α : Type} (f : α → Json) (m : NameMap α) : Json :=
  record (m.entries.map fun e => (e.1, f e.2))

/-! ## Names -/

/-- How a document comes to its reader: straight from the text, or after it was kept aside until it
was known what it stands for. Names are read more freely from what was kept aside. -/
inductive Route where
  | direct
  | keptAside
  deriving DecidableEq

/-- Whether a document says nothing: `null`, or an empty object when it was kept aside. -/
def isVoid (route : Route) : Json → Bool
  | null => true
  | object [] => route = .keptAside
  | _ => false

/-- One of several names; also as an object with the name as its only key and nothing under it. -/
def named? {α : Type} (table : List (String × α)) (route : Route) : Json → Option α
  | string (some s) => table.lookup s
  | object [(some s, content)] => if content.isVoid route then table.lookup s else none
  | _ => none

/-- One of several names at the head of an array; when it was kept aside, also as its place in the
table. -/
def headNamed? {α : Type} (table : List (String × α)) (route : Route) : Json → Option α
  | string (some s) => table.lookup s
  | number n =>
    if route = .keptAside then (nat? (number n)).bind fun k => (table[k]?).map (·.2) else none
  | _ => none

/-! ## Records -/

/-- How often a name is a key of the members. -/
def timesKeyed (name : String) (members : List (Option String × Json)) : Nat :=
  members.countP fun m => m.1 == some name

/-- The fields of a record that are present. Every key must be a text, and no field may be
repeated. -/
def record? (names : List String) : Json → Option (List (String × Json))
  | object members =>
    if members.all (·.1.isSome) && names.all fun n => timesKeyed n members ≤ 1 then
      some (members.filterMap fun m =>
        m.1.bind fun k => if names.contains k then some (k, m.2) else none)
    else none
  | array items => if items.length ≤ names.length then some (names.zip items) else none
  | _ => none

/-- A field that must be present. -/
def required {α : Type} (fields : List (String × Json)) (name : String) (f : Json → Option α) :
    Option α :=
  (fields.lookup name).bind f

/-- A field that has a value when it is absent. -/
def defaulted {α : Type} (fields : List (String × Json)) (name : String) (value : α)
    (f : Json → Option α) : Option α :=
  match fields.lookup name with
  | none => some value
  | some j => f j

/-! ## Parts that are kept aside -/

/-- Whether all texts and numbers of a document have values and no more than `depth` containers
are nested in it, as is asked of what is read before it is known what it stands for. -/
def isSound : (depth : Nat) → Json → Bool
  | _, null => true
  | _, bool _ => true
  | _, number n => n.value.isSome
  | _, string s => s.isSome
  | 0, array _ => false
  | 0, object _ => false
  | depth + 1, array items => items.all (isSound depth)
  | depth + 1, object members => members.all fun m => m.1.isSome && isSound depth m.2

end Testwright.Json
