import HybridCheck.Automaton.Encoding
import HybridCheck.Rational.Binary64
import HybridCheck.Search.Report

/-!
# Bounded search for counterexamples

A property is negated and, for every explored number of jumps, encoded together with the
automaton into one set of constraints; an assignment that satisfies it is a counterexample. An
iterative search explores the bounds from zero on and stops at the first counterexample or failure.

Several workers may explore bounds at the same time. Once a bound has a counterexample or fails, all
larger bounds are given up, and the verdict is read off the results in order of their bounds; it is
the verdict of the search with one worker.
-/

namespace HybridCheck

/-- The stages that turn property text into constraints. -/
structure Encoder where
  parse : String → Attempt Formula
  guess : Formula → Timeline → Attempt Formula.Guessed
  separate : Formula → Guesses → Attempt Formula.Separated
  tabulate : Partition → Timeline → Attempt BaseValuation
  value : Formula.Separated → Window → BaseValuation → Attempt Term

def Automaton.encoder (m : Automaton) : Encoder where
  parse := Formula.ofText m.scope
  guess := Formula.guess
  separate := fun f guesses => .ok (f.separate guesses)
  tabulate := fun p b => BaseValuation.tabulate p b m.signal
  value := fun s w bv => s.valuation w bv

namespace Search

structure Settings where
  maxBound : Int
  timeBound : Option Rat := none
  /-- Whether every bound up to the largest is explored, or only the largest. -/
  iterative : Bool := true
  /-- How many bounds may be explored at the same time. -/
  workers : Int := 1
  /-- Whether a property without temporal operator is meant at every instant. -/
  globally : Bool := true
  /-- Whether the search was given up before it began. -/
  canceled : Bool := false

/-- The formula whose models are the counterexamples of a property. A property without temporal
operator is first taken to hold always, if `globally`. -/
def negate (parse : String → Attempt Formula) (property : String) (globally : Bool) :
    Attempt Formula := do
  let f ← parse property
  let property :=
    if globally && !f.isTemporal then "[]_[0,inf) (" ++ property ++ ")" else property
  parse ("~(" ++ property ++ ")")

/-- The constraints for one bound, with the size of the separated formula. -/
structure Query where
  constraints : List Term
  separatedSize : Nat

/-- Encodes a negated property for the traces with exactly `bound` jumps. -/
def encode (m : Automaton) (tr : Encoder) (timeBound : Option Rat) (negated : Formula)
    (bound : Int) : Attempt Query := do
  let stage {α : Type} (what : String) : Attempt α → Attempt α :=
    Attempt.within (.preparation bound what)
  let timeline : Timeline := ⟨bound⟩
  let guessed ← stage "partition" (tr.guess negated timeline)
  let separated ← stage "separation" (tr.separate negated guessed.guesses)
  let bv ← stage "base encoding" (tr.tabulate guessed.partition timeline)
  let formula ← stage "valuation" (tr.value separated (.point 0) bv)
  let trace ← stage "trace"
    (m.constraints bound timeBound guessed.partition.propositions guessed.constraints [formula])
  return ⟨trace ++ guessed.constraints ++ [formula], separated.size⟩

def explore (m : Automaton) (tr : Encoder) (solver : Solver) (timeBound : Option Rat)
    (negated : Formula) (bound : Int) : Explored :=
  match encode m tr timeBound negated bound with
  | .error e => { bound, outcome := .error e }
  | .ok q =>
    { bound
      query := some q.constraints
      separatedSize := q.separatedSize
      outcome := Attempt.within (.solver bound) (solver q.constraints m.logic) }

/-- Explores bounds one after the other until one has a counterexample or fails. -/
def sequential (exploreAt : Int → Explored) (totals : Totals) (trail : List Explored) :
    List Int → Run
  | [] => { report := totals.final, trail }
  | b :: bs =>
    let r := exploreAt b
    let trail := trail ++ [r]
    match r.outcome with
    | .error e => .failed totals e trail
    | .ok o =>
      let totals := totals.add r.separatedSize o
      if o.answer = .sat then { report := totals.violation b o.model, trail }
      else sequential exploreAt totals trail bs

/-! ## Several workers -/

/-- What a worker delivers for a bound: a result, or nothing if the bound was given up first. -/
structure Delivery where
  bound : Int
  result : Option Explored

def Explored.decisive (r : Explored) : Bool :=
  match r.outcome with
  | .error _ => true
  | .ok o => o.answer = .sat

/-- The least bound with a decisive result, `last` if there is none below it. -/
def cutoff (last : Int) (deliveries : List Delivery) : Int :=
  deliveries.foldl (fun c d =>
    match d.result with
    | some r => if Explored.decisive r && d.bound < c then d.bound else c
    | none => c) last

/-- Reads the verdict off deliveries in order of their bounds, up to the cutoff. -/
def readOff (last : Int) (totals : Totals) (trail : List Explored) : List Delivery → Run
  | [] => { report := totals.final, trail }
  | d :: ds =>
    if last < d.bound then { report := totals.final, trail }
    else
      match d.result with
      | none => .failed totals (.solver d.bound .canceled) trail
      | some r =>
        let trail := trail ++ [r]
        match r.outcome with
        | .error e => .failed totals e trail
        | .ok o =>
          let totals := totals.add r.separatedSize o
          if o.answer = .sat then { report := totals.violation d.bound o.model, trail }
          else readOff last totals trail ds

/-- The run that a pool of workers makes of its deliveries, in whatever order they came. -/
def collect (last : Int) (deliveries : List Delivery) : Run :=
  readOff (cutoff last deliveries) {} [] (deliveries.mergeSort fun a b => a.bound ≤ b.bound)

/-- The deliveries of a pool that takes up bounds in order, each after the one before was delivered.
Once `givenUp`, bounds are not explored any more. -/
def inOrder (exploreAt : Int → Explored) (givenUp : Bool) : List Int → List Delivery
  | [] => []
  | b :: bs =>
    if givenUp then ⟨b, none⟩ :: inOrder exploreAt true bs
    else
      let r := exploreAt b
      ⟨b, some r⟩ :: inOrder exploreAt (Explored.decisive r) bs

/-- Explores bounds with a pool of workers. -/
def parallel (exploreAt : Int → Explored) (canceled : Bool) (bounds : List Int) : Run :=
  collect (bounds.getLast?.getD 0) (inOrder exploreAt canceled bounds)

/-! ## The search -/

def bounds (s : Settings) : List Int :=
  if s.iterative then steps (s.maxBound + 1) else [s.maxBound]

/-- Searches for a counterexample to a property. -/
def run (m : Automaton) (tr : Encoder) (solver : Solver) (s : Settings) (property : String) :
    Run :=
  if s.maxBound < 0 then .failed {} (.negativeBound s.maxBound) []
  else
    match negate tr.parse property s.globally with
    | .error e => .failed {} (e.wrap .property) []
    | .ok negated =>
      let exploreAt := explore m tr solver s.timeBound negated
      if 1 < s.workers ∧ 1 < (bounds s).length then parallel exploreAt s.canceled (bounds s)
      else sequential exploreAt {} [] (bounds s)

end Search

end HybridCheck
