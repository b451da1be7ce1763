/-!
# Ends of a search

Why a search stops, and the limit on its generations.
-/

namespace Testwright

/-- Why a search stopped. -/
inductive StopReason where
  /-- The archive is large and fit enough. -/
  | converged
  | maxGenerations
  | timeout
  /-- There is nothing to search. -/
  | empty
  deriving DecidableEq, Inhabited

/-- The reason not to begin another generation after some are complete. -/
def generationLimit (maxGenerations completed : Nat) : Option StopReason :=
  if maxGenerations ≤ completed then some .maxGenerations else none

end Testwright
