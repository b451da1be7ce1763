import Testwright.Sat.Formula
import Testwright.Solver.Candidates

/-!
# Paths as formulas

Each variable of a path becomes a group of propositional variables, one for each candidate, of
which exactly one is true. Each condition becomes the clause of the candidates that it admits.
-/

namespace Testwright

open Testwright.Sat

/-- The candidates of a variable, each with the number of its propositional variable. -/
abbrev CandidateGroup := List (Value × Nat)

/-- A path as a formula. -/
structure EncodedPath where
  groups : NameMap CandidateGroup
  /-- Exactly one candidate of each group. -/
  structural : Formula
  /-- A clause for each condition. -/
  conditions : Formula

/-- Numbers the candidates of the groups one after another, from `n` on. -/
def numberGroups : Nat → List (String × List Value) → List (String × CandidateGroup)
  | _, [] => []
  | n, (name, vs) :: rest => (name, vs.zipIdx n) :: numberGroups (n + vs.length) rest

theorem names_numberGroups (n : Nat) (l : List (String × List Value)) :
    (numberGroups n l).map (·.1) = l.map (·.1) := by
  induction l generalizing n with
  | nil => rfl
  | cons g rest ih => simp [numberGroups, ih]

/-- The groups of a path, with their candidates numbered from 0 in the order of the names. -/
def Path.groups (p : Path) : NameMap CandidateGroup :=
  let lists := p.byVariable.map fun _ cs => candidates cs
  ⟨numberGroups 0 lists.entries, by
    have h : ((numberGroups 0 lists.entries).map (·.1)).Pairwise (· < ·) := by
      rw [names_numberGroups]
      exact List.pairwise_map.2 lists.ascending
    exact List.pairwise_map.1 h⟩

/-- The clause of the candidates of a group that a condition admits. -/
def Condition.clause (c : Condition) (g : CandidateGroup) : Clause :=
  (g.filter fun e => c.admits e.1).map fun e => pos e.2

/-- A path as a formula. -/
def Path.encode (p : Path) : EncodedPath where
  groups := p.groups
  structural := p.groups.entries.flatMap fun g => exactlyOne (g.2.map (·.2))
  conditions := p.conditions.filterMap fun c => (p.groups.find? c.var).map c.clause

/-- All clauses of an encoded path. -/
def EncodedPath.formula (e : EncodedPath) : Formula := e.structural ++ e.conditions

/-- The candidate of each variable that is true in a model. -/
def EncodedPath.decode (e : EncodedPath) (m : Model) : Bindings :=
  e.groups.filterMap fun _ g => (g.find? fun c => m.contains c.2).map (·.1)

end Testwright
