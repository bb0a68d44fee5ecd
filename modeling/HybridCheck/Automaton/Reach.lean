import HybridCheck.Automaton.Encoding
import HybridCheck.Solver.Basic

/-!
# Reachability

A goal is reachable after a number of jumps if some trace with that many jumps ends in a state that
satisfies it. The goal is read at the exit of the last step.
-/

namespace HybridCheck.Automaton

def reachConstraints (m : Automaton) (bound : Int) (goal : Term) : Attempt (List Term) := do
  m.declared.checkConstraint "goal" { state := true, mode := true } goal
  let trace ← m.unroll bound
  return trace ++ [← goal.substitute (m.allSubst bound .exit)]

/-- Asks a solver whether the goal is reachable after `bound` jumps. -/
def reach (m : Automaton) (solver : Solver) (bound : Int) (goal : Term) : Attempt Answer := do
  let query ← m.reachConstraints bound goal
  return (← Attempt.within (.reach bound) (solver query m.logic)).answer

end HybridCheck.Automaton
