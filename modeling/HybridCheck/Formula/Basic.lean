import HybridCheck.Formula.Window
import HybridCheck.Term.Text

/-!
# Signal temporal formulas

Formulas are built from propositions and constraint atoms by Boolean connectives and by four
temporal operators with windows. They are read over the finite trace of a run: windows are cut at
the end of the trace.

A witness stands for a subformula whose satisfying instant has been guessed. A missing part has no
reading; it can be handled, but a formula that contains one cannot be written out.
-/

namespace HybridCheck

/-- A formula of signal temporal logic. -/
inductive Formula where
  | bool (b : Bool)
  /-- A proposition declared by the model. -/
  | prop (name : String)
  /-- A constraint on the state at the current instant. -/
  | atom (c : Term)
  | not (f : Formula)
  | and (fs : List Formula)
  | or (fs : List Formula)
  | implies (l r : Formula)
  /-- The argument holds somewhere in the window. -/
  | eventually (w : Window) (f : Formula)
  /-- The argument holds everywhere in the window. -/
  | always (w : Window) (f : Formula)
  /-- The right side holds at some instant of the window and the left side from now up to it. -/
  | untl (w : Window) (l r : Formula)
  /-- At every instant of the window the right side holds or the left side held before. -/
  | release (w : Window) (l r : Formula)
  /-- A guessed instant at which a subformula kept elsewhere is satisfied. -/
  | witness (point : Var)
  | missing
  deriving Repr

namespace Formula

mutual

/-- The text of a formula. A missing part has a text only for use in messages. -/
def text : Formula → String
  | bool b => if b then "true" else "false"
  | prop name => name
  | atom c => c.text
  | not f => "~" ++ text f
  | and fs => "(" ++ " & ".intercalate (texts fs) ++ ")"
  | or fs => "(" ++ " | ".intercalate (texts fs) ++ ")"
  | implies l r => "(" ++ text l ++ " -> " ++ text r ++ ")"
  | eventually w f => "(<>_" ++ w.text ++ " " ++ text f ++ ")"
  | always w f => "([]_" ++ w.text ++ " " ++ text f ++ ")"
  | untl w l r => "(" ++ text l ++ " U_" ++ w.text ++ " " ++ text r ++ ")"
  | release w l r => "(" ++ text l ++ " R_" ++ w.text ++ " " ++ text r ++ ")"
  | witness point => "@" ++ point.name
  | missing => "nil"

def texts : List Formula → List String
  | [] => []
  | f :: fs => text f :: texts fs

end

mutual

/-- Whether no part of a formula is missing. -/
def complete : Formula → Bool
  | not f | eventually _ f | always _ f => complete f
  | and fs | or fs => completeAll fs
  | implies l r | untl _ l r | release _ l r => complete l && complete r
  | missing => false
  | bool _ | prop _ | atom _ | witness _ => true

def completeAll : List Formula → Bool
  | [] => true
  | f :: fs => complete f && completeAll fs

end

def write (f : Formula) : Attempt String :=
  if f.complete then .ok f.text else .error (.fault .missingFormula)

mutual

/-- The number of nodes of a formula. An atom counts with the size of its constraint. -/
def size : Formula → Nat
  | atom c => c.size
  | not f | eventually _ f | always _ f => 1 + size f
  | and fs | or fs => 1 + sizeAll fs
  | implies l r | untl _ l r | release _ l r => 1 + size l + size r
  | bool _ | prop _ | witness _ | missing => 1

def sizeAll : List Formula → Nat
  | [] => 0
  | f :: fs => size f + sizeAll fs

end

mutual

def isTemporal : Formula → Bool
  | eventually .. | always .. | untl .. | release .. | witness _ => true
  | not f => isTemporal f
  | and fs | or fs => anyTemporal fs
  | implies l r => isTemporal l || isTemporal r
  | bool _ | prop _ | atom _ | missing => false

def anyTemporal : List Formula → Bool
  | [] => false
  | f :: fs => isTemporal f || anyTemporal fs

end

mutual

/-- The negation normal form of a formula, or of its negation if `negated`. Implications are
eliminated, and negation is left only above propositions; a negated constraint is negated itself. -/
def normal (negated : Bool) : Formula → Formula
  | bool b => bool (b != negated)
  | prop name => if negated then not (prop name) else prop name
  | atom c => if negated then atom c.mkNot else atom c
  | not f => normal (!negated) f
  | and fs => if negated then or (normalAll true fs) else and (normalAll false fs)
  | or fs => if negated then and (normalAll true fs) else or (normalAll false fs)
  | implies l r =>
    if negated then and [normal false l, normal true r] else or [normal true l, normal false r]
  | eventually w f =>
    if negated then always w (normal true f) else eventually w (normal false f)
  | always w f => if negated then eventually w (normal true f) else always w (normal false f)
  | untl w l r =>
    if negated then release w (normal true l) (normal true r)
    else untl w (normal false l) (normal false r)
  | release w l r =>
    if negated then untl w (normal true l) (normal true r)
    else release w (normal false l) (normal false r)
  | witness point => if negated then not (witness point) else witness point
  | missing => if negated then not missing else missing

def normalAll (negated : Bool) : List Formula → List Formula
  | [] => []
  | f :: fs => normal negated f :: normalAll negated fs

end

def nnf (f : Formula) : Formula := normal false f

end Formula

end HybridCheck
