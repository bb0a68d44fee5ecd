import HybridCheck.Term.Gap

/-!
# Flows

A flow says how the state moves while time passes. A rate is constant along the flow, so it may
depend on neither the clock nor any variable the flow changes; a solution may use both.
`FlowOf.after` gives the state reached after a duration, and `Term.expand` turns the flow primitives
of a term into plain quantified arithmetic.

The flow universal has an exact shortcut. When the body is a conjunction of comparisons whose sides
are affine in the clock, the instants at which it holds form an interval, so it holds throughout the
segment if it holds at both ends.
-/

namespace HybridCheck

namespace FlowOf

def flowing (f : Flow) : List String := (Table.merge f.rates f.solution).names

def moves (f : Flow) (id : String) : Bool := Table.has f.rates id || Table.has f.solution id

def movingVar? (f : Flow) (rate : Term) : Option Var :=
  rate.freeVars.find? fun v => v.role = .logical && f.moves v.name

/-- What is wrong with a changed identifier, given the sorts of the state variables. -/
def checkFlowing (f : Flow) (state : Table TermSort) (id : String) : Option FlowProblem :=
  match state.get? id with
  | none => some (.notState id)
  | some s =>
    if s ≠ .real then some (.notReal id s)
    else if Table.has f.solution id && Table.has f.rates id then some (.rateAndSolution id)
    else none

def checkRate (f : Flow) (id : String) (rate : Term) : Option FlowProblem :=
  rate.freeVars.findSome? fun v =>
    if v = f.clock then some (.rateOnClock id)
    else if v.role = .logical && f.moves v.name then some (.rateOnFlowing id v.name)
    else none

/-- What is wrong with a flow, given the sorts of the state variables. -/
def problem? (f : Flow) (state : Table TermSort) : Option FlowProblem :=
  if f.clock.name = "" then some .noClock
  else if f.clock.role ≠ .bound ∨ f.clock.sort ≠ .real then some (.badClock f.clock.name)
  else
    (f.flowing.findSome? (f.checkFlowing state)).or
      (f.rates.findSome? fun (id, rate) => f.checkRate id rate)

/-- The value of one identifier after flowing for `d` from `v`, with identifiers resolved by
`context`. -/
def valueAt (f : Flow) (context : Subst) (d : Term) (id : String) (v : Term) : Attempt Term :=
  match Table.get? f.solution id with
  | some sol => do (← sol.substitute context).replace f.clock d
  | none =>
    match Table.get? f.rates id with
    | none => .ok v
    | some rate =>
      match f.movingVar? rate with
      | some x => .error (.flow (.rateOnFlowing id x.name))
      | none => do
        let speed ← rate.substitute context
        Term.mkAdd [v, ← Term.mkMul [speed, d]]

/-- The state reached from `entry` after flowing for `d`, mode variables resolved by `mode`. -/
def after (f : Flow) (entry mode : Subst) (d : Term) : Attempt Subst :=
  entry.mapM fun (id, v) => do return (id, ← f.valueAt (mode.merge entry) d id v)

end FlowOf

namespace Term

mutual

/-- Whether a term is affine in a variable, as far as its shape shows. -/
def affineIn (c : Var) : Term → Bool
  | var _ => true
  | t@(add _ as) => !t.mentions c || affineInAll c as
  | t@(mul _ as) =>
    !t.mentions c || ((as.filter fun a => a.mentions c).length ≤ 1 && affineInAll c as)
  | t@(sub a b) => !t.mentions c || (affineIn c a && affineIn c b)
  | t@(neg a) => !t.mentions c || affineIn c a
  | t@(div a b) => !t.mentions c || (affineIn c a && !b.mentions c)
  | t => !t.mentions c

def affineInAll (c : Var) : List Term → Bool
  | [] => true
  | a :: as => affineIn c a && affineInAll c as

end

mutual

/-- Whether a term is a conjunction of comparisons affine in a variable, as far as its shape
shows. -/
def convexIn (c : Var) : Term → Bool
  | and as => convexInAll c as
  | cmp _ a b => affineIn c a && affineIn c b
  | t => !t.mentions c

def convexInAll (c : Var) : List Term → Bool
  | [] => true
  | a :: as => convexIn c a && convexInAll c as

end

/-- The equations between the exit values of a segment and the state its flow reaches. -/
def exitEquations (reached : Subst) : Subst → Attempt (List Term)
  | [] => .ok []
  | (id, x) :: rest =>
    match reached.get? id with
    | none => .error (.exitWithoutEntry id)
    | some v => do return mkEq x v :: (← exitEquations reached rest)

/-- An integral as plain arithmetic: time does not run backwards, and every exit value is the value
reached from entry. -/
def expandIntegral (seg : Segment) : Attempt Term := do
  let reached ← seg.flow.after seg.entry seg.mode seg.time
  return mkAnd (mkGe seg.time zero :: (← exitEquations reached seg.exit))

/-- A flow universal as plain arithmetic over the instants of its segment. -/
def expandThroughout (seg : Segment) (body : Term) : Attempt Term := do
  let c := seg.flow.clock
  let state ← seg.flow.after seg.entry seg.mode (var c)
  let body ← (← body.substitute (Table.merge seg.mode state)).substituteNext seg.exit
  if !body.mentions c then
    return mkOr [mkLt seg.time zero, body]
  else if body.convexIn c then
    return mkOr [mkLt seg.time zero, mkAnd [← body.replace c zero, ← body.replace c seg.time]]
  else
    return mkAll c (mkImplies (mkAnd [mkGe (var c) zero, mkLe (var c) seg.time]) body)

/-- The replacement of the flow primitives by plain arithmetic. -/
def expander : Replacement where
  onSegment := some fun seg body? =>
    match body? with
    | none => expandIntegral seg
    | some body => expandThroughout seg body

/-- Turns the flow primitives of a term into plain quantified arithmetic. If one cannot be
expanded, that is told unless a node above it cannot do without. -/
def expand (t : Term) : Attempt Term :=
  match t.transform expander with
  | .ok u => .ok u
  | .error e =>
    if e.isFault then .error e
    else do
      let _ ← t.patch expander
      .error e

end Term

end HybridCheck
