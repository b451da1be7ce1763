import Testwright.Sat.Search
import Testwright.Solver.Encoding

/-!
# The exact solver

The greedy solver is asked first. Only when its bindings do not satisfy the path, the path is
decided as a formula, so that contradictions are noticed. The procedure that decides formulas may
fail; then the verdict of the greedy solver is kept.
-/

namespace Testwright

/-! ## Decision procedures -/

/-- What a decision procedure answers about a formula. -/
inductive SatAnswer where
  /-- It has a model, which the procedure should have at hand. -/
  | satisfiable (model : Option Sat.Model)
  | unsatisfiable
  /-- The procedure stopped without an answer. -/
  | failed (reason : String)

/-- A decision procedure for formulas, which may fail. -/
abbrev SatBackend := Sat.Formula → SatAnswer

/-- A search for a model as a decision procedure, which never fails. -/
def SatBackend.ofSearch (search : Sat.Formula → Option Sat.Model) : SatBackend := fun f =>
  match search f with
  | some m => .satisfiable (some m)
  | none => .unsatisfiable

/-- Why a path was not decided as a formula. -/
inductive SolverError where
  | backend (reason : String)
  | missingModel

def SolverError.message : SolverError → String
  | .backend reason => "SAT backend error: " ++ reason
  | .missingModel => "SAT but no model returned"

/-! ## Verdicts -/

/-- Decides a path as a formula. There is no verdict when the procedure fails, or has no model at hand
for a formula of which it says that it has one. -/
def SatBackend.check (backend : SatBackend) (p : Path) : Except SolverError Verdict :=
  match backend p.encode.formula with
  | .satisfiable (some m) => .ok (.satisfiedBy (p.encode.decode m))
  | .satisfiable none => .error .missingModel
  | .unsatisfiable => .ok .infeasible
  | .failed reason => .error (.backend reason)

/-- The verdict of the greedy solver when its bindings satisfy the path, and otherwise the one on
the formula. Where there is no verdict on the formula, that of the greedy solver is kept. -/
def exactVerdict (backend : SatBackend) (p : Path) : Verdict :=
  let greedy := greedyVerdict p
  if greedy.feasible && p.admits greedy.bindings then greedy
  else
    match backend.check p with
    | .ok v => v
    | .error _ => greedy

/-- The exact solver over a decision procedure. -/
def Solver.exactWith (backend : SatBackend) : Solver := ⟨"sat", true, true, exactVerdict backend⟩

/-- The exact solver. -/
def Solver.exact : Solver := .exactWith (SatBackend.ofSearch Sat.solve)

/-- The verdict on the formula over a search, where nothing fails: it is the result of
`SatBackend.check` then (`SatBackend.check_ofSearch`). -/
def checkPath (search : Sat.Formula → Option Sat.Model) (p : Path) : Verdict :=
  match search p.encode.formula with
  | some m => .satisfiedBy (p.encode.decode m)
  | none => .infeasible

theorem SatBackend.check_ofSearch (search : Sat.Formula → Option Sat.Model) (p : Path) :
    (SatBackend.ofSearch search).check p = .ok (checkPath search p) := by
  rw [check, ofSearch, checkPath]
  cases search p.encode.formula <;> rfl

end Testwright
