import HybridCheck.Solver.Basic
import HybridCheck.Text.Integer

/-!
# Scripted solvers

A scripted solver rehearses a search. It tells the horizon of a query from the step-indexed time
symbols in it and answers from a script keyed by the horizon. A refuting one answers from the
propositional skeleton instead of the script. Both expand the constraints they are given, so that
sizes and failures are those of a real query.
-/

namespace HybridCheck

/-- What a scripted solver does, keyed by the decimal text of a horizon. -/
structure Script where
  answers : Table Answer := []
  failures : Table String := []
  models : Table Assignment := []
  /-- Whether the run was given up before it began. -/
  canceled : Bool := false
  /-- Whether to answer from the propositional skeleton. -/
  refuting : Bool := false

namespace Script

def timeStep? (name : String) : Option Int :=
  if "tau#".isPrefixOf name then Text.readInt? (name.toList.drop 4)
  else if "time#".isPrefixOf name then Text.readInt? (name.toList.drop 5)
  else none

/-- The last step whose time symbols occur free in constraints, `-1` if there is none. -/
def horizon (constraints : List Term) : Int :=
  ((Term.freeVarsOf constraints).filterMap fun v => timeStep? v.name).foldl max (-1)

def solver (s : Script) : Solver := fun constraints _ => do
  let h := toString (horizon constraints)
  match s.failures.get? h with
  | some text => throw (.reported text)
  | none =>
    if s.canceled then throw .canceled
    let expanded ← constraints.mapM Term.expand
    let size := Term.sizeAll expanded
    if s.refuting then
      return { answer := if refutes expanded then .unsat else .unknown, size }
    else
      match (s.answers.get? h).getD .unsat with
      | .sat => return { answer := .sat, size, model := some ((s.models.get? h).getD []) }
      | a => return { answer := a, size }

end Script

end HybridCheck
