import Testwright.Sat.Formula

/-!
# Searching for a model

A complete search. The formula is first split into blocks that share no variable, so that a
contradiction in one block is not met again for every choice in the others. A block is searched by
choosing a literal, first one that a clause of one literal forces, and simplifying.
-/

namespace Testwright.Sat

/-! ## Search in one block -/

/-- A formula after a literal became true: clauses with the literal are met, and its opposite is
dropped from the others. -/
def Formula.assume (l : Literal) (f : Formula) : Formula :=
  (f.filter fun c => !c.contains l).map fun c => c.filter (· != l.opposite)

/-- The literal of the first clause with only one. -/
def Formula.forced? (f : Formula) : Option Literal :=
  f.findSome? fun c =>
    match c with
    | [l] => some l
    | _ => none

/-- The number of literals of a formula. -/
def Formula.size (f : Formula) : Nat := f.flatten.length

/-- The variables that a true literal adds to a model. -/
def Literal.truth (l : Literal) : Model := if l.positive then [l.index] else []

/-- Searches a model. Every choice takes a literal out of the formula, so their number bounds the
depth of the search. -/
def searchWithin : Nat → Formula → Option Model
  | bound, f =>
    if f.contains [] then none
    else
      match bound, f.forced?, f.head? with
      | _, _, none => some []
      | more + 1, some l, _ => (searchWithin more (f.assume l)).map (l.truth ++ ·)
      | more + 1, none, some (l :: _) =>
        match searchWithin more (f.assume l) with
        | some m => some (l.truth ++ m)
        | none => (searchWithin more (f.assume l.opposite)).map (l.opposite.truth ++ ·)
      | _, _, _ => none

/-- Searches a model of one block. -/
def searchBlock (f : Formula) : Option Model := searchWithin f.size f

/-! ## Blocks -/

/-- Clauses with the variables that occur in them. -/
structure Block where
  vars : List Nat
  clauses : Formula

/-- Whether a clause has a variable in common with a block. -/
def Block.meets (b : Block) (c : Clause) : Bool := c.any fun l => b.vars.contains l.index

/-- Two lists of variables, without repeating those of the first. -/
def mergeVariables (vs ws : List Nat) : List Nat := vs.filter (!ws.contains ·) ++ ws

/-- Adds a clause to some blocks: those that it meets become one with it. -/
def addClause (blocks : List Block) (c : Clause) : List Block :=
  let (met, apart) := blocks.partition (·.meets c)
  let joined := met.foldl
    (fun j b => ⟨mergeVariables j.vars b.vars, j.clauses ++ b.clauses⟩)
    (⟨c.map Literal.index, [c]⟩ : Block)
  joined :: apart

/-- The blocks of a formula: no two of them share a variable. -/
def Formula.blocks (f : Formula) : List Block := f.foldl addClause []

/-- Searches a model of a formula. -/
def solve (f : Formula) : Option Model :=
  (f.blocks.mapM fun b => searchBlock b.clauses).map List.flatten

end Testwright.Sat
