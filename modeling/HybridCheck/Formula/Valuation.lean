import HybridCheck.Formula.Separation
import HybridCheck.Term.Replacement

/-!
# Valuation

The value of a separated formula at an instant is one constraint over the symbols of a trace. Atoms
are tabulated per segment first, as terms over the time since the segment began; the value of an
atom at an instant chooses the segment that contains it. Temporal operators quantify over instants
of the trace, except that a witnessed subformula is valued at its witness.

Quantified instants are numbered in the order in which they are met, so no two quantifiers of a
value share a variable.
-/

namespace HybridCheck

/-- The symbolic trace that formulas are valued on. -/
structure Signal where
  /-- The value of a proposition during a step. -/
  proposition : (name : String) → (k : Int) → Attempt Term
  /-- The value of a constraint some time into a step. -/
  constraint : (c : Term) → (k : Int) → (offset : Term) → Attempt Term

/-- The values of atoms per segment, over the time since the segment began. -/
structure BaseValuation where
  timeline : Timeline
  rows : Table (List Term)

/-- Counts from zero up to `n`, excluded. -/
def steps (n : Int) : List Int := (List.range n.toNat).map Int.ofNat

namespace BaseValuation

def cell (sig : Signal) (a : Atomic) (k : Int) : Attempt Term :=
  match a with
  | .prop name => sig.proposition name k
  | .constraint c => sig.constraint c k (.var Symbol.offset)

def row (sig : Signal) (b : Timeline) (a : Atomic) : Attempt (List Term) :=
  if b.segments < 0 then .error (.fault .negativeLength)
  else (steps b.segments).mapM (cell sig a)

def tabulate (p : Partition) (b : Timeline) (sig : Signal) : Attempt BaseValuation := do
  return ⟨b, ← p.mapM fun (key, a) => do return (key, ← row sig b a)⟩

/-- The value of an atom at the instant `t` if it lies in segment `k`, where its value is `c`. -/
def alternative (b : Timeline) (t : Term) (k : Int) (c : Term) : Attempt Term := do
  let value ← c.replace Symbol.offset (← Term.mkSub t (Timeline.start k))
  return Term.mkAnd [b.within k t, value]

def alternatives (b : Timeline) (t : Term) : (k : Int) → List Term → Attempt (List Term)
  | _, [] => .ok []
  | k, c :: cs => do return (← alternative b t k c) :: (← alternatives b t (k + 1) cs)

def valueAt (bv : BaseValuation) (key : String) (t : Term) : Attempt Term :=
  match bv.rows.get? key with
  | none => .error (.encoding (.missingAtom key))
  | some row => do return Term.mkOr (← alternatives bv.timeline t 0 row)

end BaseValuation

/-- Valuation numbers the instants it quantifies over. -/
abbrev Valuing (α : Type) := StateT Nat (Except Failure) α

namespace Valuing

def freshInstant : Valuing Var := fun n => .ok (Symbol.instant n, n + 1)

end Valuing

namespace Formula

open Valuing (freshInstant)

/-- The constraint that `u` lies in the window around `t` and not after the end of the trace. -/
def windowAt (b : Timeline) (w : Window) (t u : Term) : Attempt Term := do
  return Term.mkAnd [← w.contains t u, Term.mkLe u (Timeline.stop b.horizon)]

def between (t v u : Term) : Term := .mkAnd [.mkGe v t, .mkLt v u]

/-- How a witness is valued at an instant. -/
abbrev OnWitness := Var → Term → Valuing Term

mutual

def value (bv : BaseValuation) (onWitness : OnWitness) : Formula → Term → Valuing Term
  | bool b, _ => return .bool b
  | prop name, t => bv.valueAt name t
  | atom c, t => bv.valueAt c.text t
  | not f, t => return (← value bv onWitness f t).mkNot
  | and fs, t => return .mkAnd (← valueAll bv onWitness fs t)
  | or fs, t => return .mkOr (← valueAll bv onWitness fs t)
  | implies l r, t => do
    let a := (← value bv onWitness l t).mkNot
    return .mkOr [a, ← value bv onWitness r t]
  | eventually w f, t => do
    let u ← freshInstant
    let body ← value bv onWitness f (.var u)
    return .mkAny u (.mkAnd [← windowAt bv.timeline w t (.var u), body])
  | always w f, t => do
    let u ← freshInstant
    let body ← value bv onWitness f (.var u)
    return .mkAll u (.mkImplies (← windowAt bv.timeline w t (.var u)) body)
  | untl w l r, t => do
    let u ← freshInstant
    let right ← value bv onWitness r (.var u)
    let v ← freshInstant
    let left ← value bv onWitness l (.var v)
    return .mkAny u (.mkAnd [← windowAt bv.timeline w t (.var u), right,
      .mkAll v (.mkImplies (between t (.var v) (.var u)) left)])
  | release w l r, t => do
    let u ← freshInstant
    let right ← value bv onWitness r (.var u)
    let v ← freshInstant
    let left ← value bv onWitness l (.var v)
    let held := Term.mkAny v (.mkAnd [between t (.var v) (.var u), left])
    return .mkAll u (.mkImplies (← windowAt bv.timeline w t (.var u)) (.mkOr [right, held]))
  | witness w, t => onWitness w t
  | missing, _ => throw (.encoding (.unexpectedPart "<nil>"))

def valueAll (bv : BaseValuation) (onWitness : OnWitness) :
    List Formula → Term → Valuing (List Term)
  | [], _ => return []
  | f :: fs, t => do return (← value bv onWitness f t) :: (← valueAll bv onWitness fs t)

end

/-- The value of a witness: its subformula holds at the witness, which lies in the window. Witnesses
inside subformulas are followed at most `depth` times. -/
def witnessValue (bv : BaseValuation) (sub : Table Formula) : (depth : Nat) → OnWitness
  | 0, w, _ => throw (.encoding (.noSubformula w.name))
  | depth + 1, w, t =>
    match sub.get? w.name with
    | none => throw (.encoding (.noSubformula w.name))
    | some (eventually win f) => do
      let body ← value bv (witnessValue bv sub depth) f (.var w)
      return .mkAnd [← windowAt bv.timeline win t (.var w), body]
    | some (untl win l r) => do
      let right ← value bv (witnessValue bv sub depth) r (.var w)
      let v ← freshInstant
      let left ← value bv (witnessValue bv sub depth) l (.var v)
      return .mkAnd [← windowAt bv.timeline win t (.var w), right,
        .mkAll v (.mkImplies (between t (.var v) (.var w)) left)]
    | some f => throw (.encoding (.standsFor w.name f.text))

def Separated.valueAt (s : Separated) (bv : BaseValuation) (t : Term) : Valuing Term :=
  value bv (witnessValue bv s.sub s.sub.length) s.top t

/-- The value of a separated formula over a window from the origin: at its instant if it is a point,
otherwise at every instant of the window inside the trace. Witnesses are fixed once per trace, so a
formula with witnesses has a value at a point only. -/
def Separated.valuation (s : Separated) (w : Window) (bv : BaseValuation) : Attempt Term :=
  if w.isPoint then (s.valueAt bv (.real w.lower)).run' 0
  else if !s.sub.isEmpty then .error (.encoding (.witnessedOver w.text))
  else
    let everywhere : Valuing Term := do
      let u ← freshInstant
      let body ← s.valueAt bv (.var u)
      let inside := Term.mkAnd [← w.contains .zero (.var u), bv.timeline.domain (.var u)]
      return .mkAll u (.mkImplies inside body)
    everywhere.run' 0

end Formula

end HybridCheck
