import HybridCheck.Formula.Basic
import HybridCheck.Formula.Timeline

/-!
# Partition and separation

The partition of a formula lists its atoms, the propositions and constraints whose values are
tabulated per segment. Every existential temporal operator that is reached from the root through
conjunctions and disjunctions gets a witness: a guessed instant of the trace at which it is
satisfied. Separation replaces these operators by their witnesses and keeps the subformulas aside.

Subformulas are identified by their text in negation normal form, so equal subformulas share a
witness.
-/

namespace HybridCheck

inductive Atomic where
  | prop (name : String)
  | constraint (c : Term)
  deriving Repr

/-- The atoms of a formula, keyed by their text. -/
abbrev Partition := Table Atomic

def Partition.propositions (p : Partition) : List String :=
  p.filterMap fun e =>
    match e.2 with
    | .prop name => some name
    | .constraint _ => none

/-- The witness of each guessed subformula, keyed by the text of the subformula. -/
abbrev Guesses := Table Var

namespace Formula

mutual

/-- Collects the atoms of a formula. Witnesses and missing parts have no place in it. -/
def collectAtoms (acc : Partition) : Formula → Attempt Partition
  | bool _ => .ok acc
  | prop name => .ok (acc.put name (.prop name))
  | atom c => .ok (acc.put c.text (.constraint c))
  | not f | eventually _ f | always _ f => collectAtoms acc f
  | and fs | or fs => collectAtomsAll acc fs
  | implies l r | untl _ l r | release _ l r => do collectAtoms (← collectAtoms acc l) r
  | witness _ => .error (.unexpectedPart "stl.Witness")
  | missing => .error (.unexpectedPart "<nil>")

def collectAtomsAll (acc : Partition) : List Formula → Attempt Partition
  | [] => .ok acc
  | f :: fs => do collectAtomsAll (← collectAtoms acc f) fs

end

/-- Guesses a witness for one existential subformula, unless it has one. -/
def guessOne (b : Timeline) (key : String) (acc : Guesses × List Term) : Guesses × List Term :=
  if acc.1.has key then acc
  else
    let w := Symbol.witness acc.1.length
    (acc.1.put key w, acc.2 ++ [b.domain (.var w)])

mutual

/-- Guesses witnesses for the existential operators reached through conjunctions and disjunctions,
with the constraints that place them inside the trace. -/
def guessFrom (b : Timeline) (acc : Guesses × List Term) : Formula → Guesses × List Term
  | and fs | or fs => guessAll b acc fs
  | f@(eventually ..) | f@(untl ..) => guessOne b f.text acc
  | _ => acc

def guessAll (b : Timeline) (acc : Guesses × List Term) : List Formula → Guesses × List Term
  | [] => acc
  | f :: fs => guessAll b (guessFrom b acc f) fs

end

mutual

/-- Replaces the guessed subformulas by their witnesses and keeps them aside. -/
def separateFrom (guesses : Guesses) (acc : Table Formula) : Formula → Formula × Table Formula
  | and fs =>
    let (fs, acc) := separateAll guesses acc fs
    (and fs, acc)
  | or fs =>
    let (fs, acc) := separateAll guesses acc fs
    (or fs, acc)
  | f@(eventually ..) | f@(untl ..) =>
    match guesses.get? f.text with
    | some w => (witness w, acc.put w.name f)
    | none => (f, acc)
  | f => (f, acc)

def separateAll (guesses : Guesses) (acc : Table Formula) :
    List Formula → List Formula × Table Formula
  | [] => ([], acc)
  | f :: fs =>
    let (f, acc) := separateFrom guesses acc f
    let (fs, acc) := separateAll guesses acc fs
    (f :: fs, acc)

end

/-- The atoms of a formula, its witnesses, and the constraints that place the witnesses. -/
structure Guessed where
  partition : Partition
  guesses : Guesses
  constraints : List Term

def guess (f : Formula) (b : Timeline) : Attempt Guessed := do
  let g := f.nnf
  let partition ← collectAtoms [] g
  let (guesses, constraints) := guessFrom b ([], []) g
  return { partition, guesses, constraints }

/-- A formula over witnesses, and the subformula that each witness stands for. -/
structure Separated where
  top : Formula
  sub : Table Formula

def separate (f : Formula) (guesses : Guesses) : Separated :=
  let (top, sub) := separateFrom guesses [] f.nnf
  { top, sub }

/-- The size of a separated formula together with the subformulas it refers to. -/
def Separated.size (s : Separated) : Nat := s.top.size + sizeAll (s.sub.map Prod.snd)

end Formula

end HybridCheck
