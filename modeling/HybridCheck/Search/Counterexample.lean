import HybridCheck.Solver.Basic
import HybridCheck.Text.Columns
import HybridCheck.Text.Integer

/-!
# Printing counterexamples

A counterexample is printed step by step: for each step the instant it ends at and its duration,
then the symbols of that step with their values, and last the symbols that belong to no step. The
step of a symbol is read back from its name.
-/

namespace HybridCheck.Counterexample

/-- The part of a name after the first occurrence of a character. -/
def after? (c : Char) : List Char → Option (List Char)
  | [] => none
  | x :: xs => if x = c then some xs else after? c xs

def isTime (name : String) : Bool := "tau#".isPrefixOf name || "time#".isPrefixOf name

/-- The step that a symbol belongs to, `-1` if it belongs to none. -/
def stepOf (name : String) : Int :=
  let index : Option (List Char) :=
    if "tau#".isPrefixOf name then some (name.toList.drop 4)
    else if "time#".isPrefixOf name then some (name.toList.drop 5)
    else (after? '@' name.toList).map fun cs => cs.takeWhile (· != '.')
  (index.bind Text.readInt?).getD (-1)

def valueOf (a : Assignment) (name : String) : String := (a.get? name).getD "?"

def heading (a : Assignment) (k : Nat) : String :=
  "  step " ++ toString k ++ "\ttau = " ++ valueOf a ("tau#" ++ toString k) ++
    "\tduration = " ++ valueOf a ("time#" ++ toString k) ++ "\n"

def stepLines (a : Assignment) (k : Nat) : List String :=
  heading a k ::
    (a.filter fun e => stepOf e.1 = k && !isTime e.1).map fun e =>
      "    " ++ e.1 ++ "\t" ++ e.2 ++ "\n"

def otherLines (a : Assignment) (bound : Int) : List String :=
  (a.filter fun e => stepOf e.1 < 0 || bound < stepOf e.1).map fun e =>
    "  " ++ e.1 ++ "\t" ++ e.2 ++ "\n"

/-- The lines of a counterexample, columns separated by tabs. -/
def lines (a : Assignment) (bound : Int) : List String :=
  (List.range (bound + 1).toNat).flatMap (stepLines a) ++ otherLines a bound

def write (a : Assignment) (bound : Int) : Attempt String :=
  if bound < -1 then .error (.fault .negativeLength)
  else .ok (Text.layout (String.join (lines a bound)))

end HybridCheck.Counterexample
