import HybridCheck.Solver.Basic

/-!
# Reports

A bounded search sums the sizes of the bounds it explored and ends with a verdict: the property is
violated by a counterexample with some number of jumps, it holds up to the explored bound, or it is
unknown because a solver gave up on some bound.
-/

namespace HybridCheck

inductive Verdict where
  | unknown
  | holds
  | violated
  deriving DecidableEq, Repr

namespace Verdict

def text : Verdict → String
  | unknown => "Unknown"
  | holds => "true"
  | violated => "false"

/-- The verdict with a given code, unknown unless it has one. -/
def ofCode (n : Int) : Verdict := if n = 1 then holds else if n = 2 then violated else unknown

end Verdict

structure Report where
  verdict : Verdict
  /-- The number of jumps of the counterexample, or `-1`. -/
  bound : Int
  counterexample : Option Assignment := none
  constraintSize : Nat
  separatedSize : Nat
  deriving Repr

/-- The text of a report. A search is a pure computation and takes no time of its own. -/
def Report.text (r : Report) : String :=
  "result: " ++ r.verdict.text ++ "\n" ++
    (if r.verdict = .violated then "counterexample bound: " ++ toString r.bound ++ "\n" else "") ++
    "constraint size: " ++ toString r.constraintSize ++ "\n" ++
    "separated size: " ++ toString r.separatedSize ++ "\n" ++
    "encoding time: 0s\n" ++ "solving time: 0s\n" ++ "total time: 0s\n"

/-- What exploring one bound produced. -/
structure Explored where
  bound : Int
  /-- The constraints handed to the solver, if it came to that. -/
  query : Option (List Term) := none
  separatedSize : Nat := 0
  outcome : Attempt Outcome

structure Totals where
  constraintSize : Nat := 0
  separatedSize : Nat := 0
  /-- Whether a solver gave up on some bound. -/
  gaveUp : Bool := false
  deriving DecidableEq, Repr

namespace Totals

def add (t : Totals) (separatedSize : Nat) (o : Outcome) : Totals where
  constraintSize := t.constraintSize + o.size
  separatedSize := t.separatedSize + separatedSize
  gaveUp := t.gaveUp || o.answer = .unknown

def report (t : Totals) (v : Verdict) (bound : Int) : Report where
  verdict := v
  bound := bound
  constraintSize := t.constraintSize
  separatedSize := t.separatedSize

/-- The report once every bound was explored without a counterexample. -/
def final (t : Totals) : Report := t.report (if t.gaveUp then .unknown else .holds) (-1)

def violation (t : Totals) (bound : Int) (model : Option Assignment) : Report :=
  { t.report .violated bound with counterexample := model }

end Totals

/-- A finished search: its report, why it was given up if it was, and the bounds it explored. -/
structure Run where
  report : Report
  failure : Option Failure := none
  trail : List Explored := []

/-- A search that was given up. -/
def Run.failed (t : Totals) (e : Failure) (trail : List Explored) : Run where
  report := t.report .unknown (-1)
  failure := some e
  trail := trail

end HybridCheck
