import HybridCheck.Rational.Literal
import HybridCheck.Term.Fold

/-!
# Windows

A window is an interval of time relative to the instant at which a temporal operator is read. Its
lower end is zero unless stated; a window without upper end is unbounded.
-/

namespace HybridCheck

/-- An interval of time relative to an instant. -/
structure Window where
  lo : Option Rat := none
  hi : Option Rat := none
  leftOpen : Bool := false
  rightOpen : Bool := false
  deriving DecidableEq, Repr

namespace Window

def unbounded : Window := { lo := some 0, rightOpen := true }

def point (a : Rat) : Window := { lo := some a, hi := some a }

def lower (w : Window) : Rat := w.lo.getD 0

def isPoint (w : Window) : Bool := !w.leftOpen && !w.rightOpen && w.hi == some w.lower

def text (w : Window) : String :=
  (if w.leftOpen then "(" else "[") ++ Rational.text w.lower ++ "," ++
    match w.hi with
    | none => "inf)"
    | some hi => Rational.text hi ++ (if w.rightOpen then ")" else "]")

def contains (w : Window) (t u : Term) : Attempt Term := do
  let lo ← Term.mkAdd [t, .real w.lower]
  let above := if w.leftOpen then Term.mkGt u lo else Term.mkGe u lo
  match w.hi with
  | none => return above
  | some h =>
    let hi ← Term.mkAdd [t, .real h]
    return Term.mkAnd [above, if w.rightOpen then Term.mkLt u hi else Term.mkLe u hi]

end Window

end HybridCheck
