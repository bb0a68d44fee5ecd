import HybridCheck.Automaton.Basic
import HybridCheck.Formula.Valuation

/-!
# Encoding an automaton step by step

The identifiers of an automaton become symbols of one step. From them come the relation of a
continuous segment, the jumps between two steps, the sign invariance of propositions, the unrolling
of a trace with a given number of jumps, and the constraint set that is handed to a solver.

A trace with `N` jumps satisfies the initial condition at the entry of step `0`; every step but the
last flows in some mode and then takes some jump, and the last step only flows.
-/

namespace HybridCheck

namespace Automaton

/-- The symbols of the mode variables and propositions in step `k`. -/
def discreteSubst (m : Automaton) (k : Int) : Subst :=
  Table.ofEntries ((m.modeVars.map fun e => (e.1, .var (Symbol.discrete e.1 e.2 k))) ++
    (m.props.map fun e => (e.1, .var (Symbol.discrete e.1 .bool k))))

def stateSubst (m : Automaton) (k : Int) (p : Phase) : Subst :=
  m.stateVars.map fun e => (e.1, .var (Symbol.state e.1 e.2 k p))

def allSubst (m : Automaton) (k : Int) (p : Phase) : Subst :=
  (m.discreteSubst k).merge (m.stateSubst k p)

def segment (m : Automaton) (md : Mode) (time : Term) (k : Int) : Segment where
  flow := md.flow
  time := time
  entry := m.stateSubst k .entry
  exit := m.stateSubst k .exit
  mode := m.discreteSubst k

/-- Step `k` is spent in a mode: its guard holds, the exit state is reached by its flow, and its
invariant holds throughout. -/
def flows (m : Automaton) (md : Mode) (time : Term) (k : Int) : Attempt Term := do
  let seg := m.segment md time k
  return .mkAnd [← md.guard.substitute (m.discreteSubst k), .integral seg,
    .throughout seg md.invariant]

/-- A jump at the end of step `k`, its effect written on the entry of step `k + 1`. -/
def takes (m : Automaton) (k : Int) (j : Jump) : Attempt Term := do
  let taken ← (Term.mkAnd [j.guard, j.reset]).substitute (m.allSubst k .exit)
  taken.substituteNext (m.allSubst (k + 1) .entry)

/-- Some jump is taken at the end of step `k`. -/
def someJump (m : Automaton) (k : Int) : Attempt Term := do
  return .mkOr (← m.jumps.mapM (m.takes k))

/-- Step `k` with the jump after it: some mode flows, then some jump is taken. -/
def beforeFlow (m : Automaton) (time : Term) (k : Int) : Attempt Term := do
  let jump ← m.someJump k
  return .mkOr (← m.modes.mapM fun md => do return .mkAnd [← m.flows md time k, jump])

/-- The last step of a trace: some mode flows. -/
def afterFlow (m : Automaton) (time : Term) (k : Int) : Attempt Term := do
  return .mkOr (← m.modes.mapM fun md => m.flows md time k)

/-- A proposition and its definition agree throughout step `k`, as far as one mode is concerned: two
implications, one for each value of the proposition. -/
def agreesIn (m : Automaton) (time : Term) (k : Int) (name : String) (definition : Term)
    (md : Mode) : Attempt (List Term) := do
  let p := Term.var (Symbol.discrete name .bool k)
  let active ← md.guard.substitute (m.discreteSubst k)
  let seg := m.segment md time k
  return [.mkImplies (.mkAnd [p, active]) (.throughout seg definition),
    .mkImplies (.mkAnd [p.mkNot, active]) (.throughout seg definition.mkNot)]

/-- The propositions keep one value along step `k`, which is that of their definitions. -/
def propConstraint (m : Automaton) (time : Term) (k : Int) (props : List String) :
    Attempt (List Term) := do
  let sorted := props.mergeSort fun a b => a ≤ b
  let parts ← sorted.mapM fun name =>
    match m.props.get? name with
    | none => throw (.unknownProposition name)
    | some definition => m.modes.mapM (m.agreesIn time k name definition)
  return parts.flatten.flatten

def initial (m : Automaton) : Attempt Term := m.init.substitute (m.allSubst 0 .entry)

/-- The initial condition and the steps of a trace with `bound` jumps. -/
def unroll (m : Automaton) (bound : Int) : Attempt (List Term) :=
  if bound < -2 then .error (.fault .negativeLength)
  else do
    let first ← m.initial
    let inner ← (steps bound).mapM fun k => m.beforeFlow (.var (Symbol.time k)) k
    let last ← m.afterFlow (.var (Symbol.time bound)) bound
    return first :: (inner ++ [last])

/-- The durations of the steps and the instants at which they end: time starts at zero and moves
forward after the first step. -/
def timestamps (bound : Int) : Attempt (List Term) := do
  let later ← (steps bound).mapM fun k => do
    let length ← Term.mkSub (.var (Symbol.tau (k + 1))) (.var (Symbol.tau k))
    return [Term.mkEq (.var (Symbol.time (k + 1))) length,
      Term.mkLt (.var (Symbol.tau k)) (.var (Symbol.tau (k + 1)))]
  return [.mkGe (.var (Symbol.tau 0)) .zero, .mkEq (.var (Symbol.time 0)) (.var (Symbol.tau 0))]
    ++ later.flatten

/-- Every point in time that occurs free in the terms lies between zero and the time bound. -/
def timeBoundConstraints (terms : List Term) (bound : Rat) : List Term :=
  ((Term.freeVarsOf terms).filter fun v => v.role = .timestamp).map fun v =>
    .mkAnd [.mkGe (.var v) .zero, .mkLe (.var v) (.real bound)]

/-- The constraints of a trace with `bound` jumps: the unrolled steps, the timestamps, the sign
invariance of the propositions in every step, and the time bound over every point in time in
sight. -/
def constraints (m : Automaton) (bound : Int) (timeBound : Option Rat) (props : List String)
    (placement formula : List Term) : Attempt (List Term) := do
  let unrolled ← m.unroll bound
  let times ← timestamps bound
  let signs ← (steps (bound + 1)).mapM fun k => m.propConstraint (.var (Symbol.time k)) k props
  let trace := unrolled ++ times ++ signs.flatten
  match timeBound with
  | none => return trace
  | some tb => return trace ++ timeBoundConstraints (trace ++ placement ++ formula) tb

/-! ## The automaton as a signal -/

def propositionAt (m : Automaton) (name : String) (k : Int) : Attempt Term :=
  if m.props.has name then .ok (.var (Symbol.discrete name .bool k))
  else .error (.unknownProposition name)

/-- The value of a constraint some time into step `k`, following the flow of whichever mode is
active. -/
def constraintAt (m : Automaton) (c : Term) (k : Int) (offset : Term) : Attempt Term := do
  m.declared.checkConstraint "atom" { state := true, mode := true } c
  let discrete := m.discreteSubst k
  let alternatives ← m.modes.mapM fun md => do
    let state ← Attempt.within (.inMode md.name)
      (md.flow.after (m.stateSubst k .entry) discrete offset)
    return Term.mkAnd [← md.guard.substitute discrete, ← c.substitute (discrete.merge state)]
  return .mkOr alternatives

def signal (m : Automaton) : Signal where
  proposition := m.propositionAt
  constraint := m.constraintAt

end Automaton

end HybridCheck
