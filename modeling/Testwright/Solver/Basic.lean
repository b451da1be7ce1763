import Testwright.Path.Basic

/-!
# Solvers

A solver decides whether some input takes a path, and gives one. Solvers differ in what they
promise.
-/

namespace Testwright

/-- A path solver. -/
structure Solver where
  name : String
  /-- Whether conditions that contradict each other are noticed. -/
  detectsConflicts : Bool
  /-- Whether no condition rejects the bindings that are given with a feasible path. -/
  soundBindings : Bool
  solve : Path → Verdict

end Testwright
