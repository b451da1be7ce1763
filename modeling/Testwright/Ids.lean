/-!
# Identifiers

Names for tests, made from a counter. A fresh name begins a lineage; a name that is derived from
another keeps the root of its lineage, which is all that stands before the first separator.
-/

namespace Testwright

/-- The character between the root of a lineage and what was derived from it. -/
def lineageSeparator : Char := '~'

/-- The root of the lineage of a name. -/
def lineageRoot (id : String) : String :=
  String.ofList (id.toList.takeWhile (· != lineageSeparator))

/-- A source of numbers, each used once. -/
structure IdSource where
  /-- The next number. -/
  next : Nat := 1
  deriving DecidableEq, Inhabited

namespace IdSource

/-- The next number. -/
def take (s : IdSource) : Nat × IdSource := (s.next, ⟨s.next + 1⟩)

/-- A name that begins a lineage. -/
def fresh (s : IdSource) (stem : String) : String × IdSource :=
  (s!"{stem}_{s.next}", ⟨s.next + 1⟩)

/-- A name in the lineage of another. -/
def derive (s : IdSource) (parent tag : String) : String × IdSource :=
  (s!"{lineageRoot parent}{lineageSeparator}{tag}{s.next}", ⟨s.next + 1⟩)

end IdSource

end Testwright
