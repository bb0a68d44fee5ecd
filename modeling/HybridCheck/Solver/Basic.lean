import HybridCheck.Solver.Skeleton
import HybridCheck.Term.Flow

/-!
# Solvers

A solver decides whether constraints can hold together. It answers with the size of the constraints
it looked at and, for a positive answer, with values for the symbols.

The built-in solver expands the flow primitives and refutes what the propositional skeleton refutes.
What is left needs a backend for arithmetic, of which there is none.
-/

namespace HybridCheck

inductive Answer where
  | unknown
  | sat
  | unsat
  deriving DecidableEq, Repr

namespace Answer

def text : Answer → String
  | unknown => "unknown"
  | sat => "sat"
  | unsat => "unsat"

/-- The answer with a given code, unknown unless it has one. -/
def ofCode (n : Int) : Answer := if n = 1 then sat else if n = 2 then unsat else unknown

/-- The answer that a word stands for, negative unless it is another one. -/
def ofWord (w : String) : Answer :=
  if w = "sat" then sat else if w = "unknown" then unknown else unsat

end Answer

/-- The values of symbols in a satisfying assignment, as text. -/
abbrev Assignment := Table String

def Assignment.text (a : Assignment) : String :=
  String.join (a.map fun e => e.1 ++ " = " ++ e.2 ++ "\n")

structure Outcome where
  answer : Answer
  /-- The size of the constraints after expansion. -/
  size : Nat
  /-- Why the answer is unknown. -/
  reason : String := ""
  model : Option Assignment := none
  deriving Repr

/-- A solver takes constraints and a hint about their theory. -/
abbrev Solver := List Term → String → Attempt Outcome

namespace Solver

/-- Expands constraints one after the other, a failure telling the number of the constraint counted
from `i`. -/
def expandAll (i : Nat) : List Term → Attempt (List Term)
  | [] => .ok []
  | t :: ts => do
    let e ← Attempt.within (.constraint i) t.expand
    return e :: (← expandAll (i + 1) ts)

/-- The built-in solver. Without `precheck` the skeleton is not consulted. -/
def builtin (precheck : Bool) : Solver := fun constraints _ => do
  let expanded ← expandAll 0 constraints
  if precheck && refutes expanded then
    return { answer := .unsat, size := Term.sizeAll expanded }
  else throw .unavailable

end Solver

end HybridCheck
