import HybridCheck.Rational.Literal
import HybridCheck.Term.Basic
import HybridCheck.Digest

/-!
# The text of a term

Terms are written as parenthesised expressions, operator first. The text of a flow lists the
variables it changes in order of their names, a rate marked by a quote. Texts serve as keys further
on: atoms of a formula and of the propositional skeleton are told apart by them.

The digest of a term is structural except at flow primitives, where it is taken from the text.
-/

namespace HybridCheck

/-- The text of a flow, given the texts of its rates and solutions. A rate hides a solution. -/
def FlowOf.describe (clock : Var) (rates solution : Table String) : String :=
  "(flow " ++ clock.name ++
    String.join ((rates.merge solution).names.map fun id =>
      match rates.get? id with
      | some r => " (" ++ id ++ "' " ++ r ++ ")"
      | none => " (" ++ id ++ " " ++ (solution.get? id).getD "" ++ ")") ++ ")"

namespace Term

mutual

def text : Term → String
  | var v => v.name
  | bool b => if b then "true" else "false"
  | num _ q => Rational.text q
  | next v => v.name ++ "'"
  | not a => "(not " ++ text a ++ ")"
  | and as => "(and" ++ textAll as ++ ")"
  | or as => "(or" ++ textAll as ++ ")"
  | implies a b => "(=> " ++ text a ++ " " ++ text b ++ ")"
  | ite c a b => "(ite " ++ text c ++ " " ++ text a ++ " " ++ text b ++ ")"
  | cmp r a b => "(" ++ r.text ++ " " ++ text a ++ " " ++ text b ++ ")"
  | add _ as => "(+" ++ textAll as ++ ")"
  | sub a b => "(- " ++ text a ++ " " ++ text b ++ ")"
  | mul _ as => "(*" ++ textAll as ++ ")"
  | div a b => "(/ " ++ text a ++ " " ++ text b ++ ")"
  | neg a => "(- " ++ text a ++ ")"
  | quant q v body =>
    "(" ++ q.text ++ " ((" ++ v.name ++ " " ++ v.sort.text ++ ")) " ++ text body ++ ")"
  | integral ⟨⟨clock, rates, solution⟩, time, entry, exit, _, _⟩ =>
    let exits := textTable exit
    "(integral " ++ text time ++
      String.join ((textTable entry).map fun e =>
        " (" ++ e.2 ++ " " ++ (exits.get? e.1).getD "" ++ ")") ++
      " " ++ FlowOf.describe clock (textTable rates) (textTable solution) ++ ")"
  | throughout ⟨⟨clock, rates, solution⟩, time, entry, _, mode, _⟩ body =>
    "(forall-flow " ++ text time ++
      String.join ((textTable entry ++ textTable mode).map fun e => " " ++ e.2) ++
      " " ++ text body ++
      " " ++ FlowOf.describe clock (textTable rates) (textTable solution) ++ ")"

def textAll : List Term → String
  | [] => ""
  | a :: as => " " ++ text a ++ textAll as

def textTable : List (String × Term) → Table String
  | [] => []
  | (k, a) :: t => (k, text a) :: textTable t

end

end Term

def FlowOf.text (f : Flow) : String :=
  FlowOf.describe f.clock (Term.textTable f.rates) (Term.textTable f.solution)

def codeByte (n : Int) : UInt8 := (n % 256).toNat.toUInt8

/-- The digest of a variable, which covers name and role. -/
def Var.digest (v : Var) : UInt64 := Digest.leaf 118 (codeByte v.role.code) v.name

namespace Term

/-- The symbols of the operators by their codes. Digests tag the node of an operator by its code. -/
def operators : List String :=
  ["not", "and", "or", "=>", "ite", "=", "<", "<=", ">", ">=", "+", "-", "*", "/", "-"]

def operatorText (code : Int) : Attempt String :=
  if code < 0 then .error (.fault .negativeOperator)
  else .ok ((operators[code.toNat]?).getD ("Op(" ++ toString code ++ ")"))

def isComparisonCode (code : Int) : Bool := 5 ≤ code && code ≤ 9

def relationCode : Relation → UInt8
  | .eq => 5
  | .lt => 6
  | .le => 7
  | .gt => 8
  | .ge => 9

mutual

def digest : Term → UInt64
  | var v => v.digest
  | t@(bool _) | t@(num ..) => Digest.leaf 99 (codeByte t.sort.code) t.text
  | next v => Digest.leaf 110 (codeByte v.role.code) v.name
  | not a => Digest.node 0 [digest a]
  | and as => Digest.node 1 (digestAll as)
  | or as => Digest.node 2 (digestAll as)
  | implies a b => Digest.node 3 [digest a, digest b]
  | ite c a b => Digest.node 4 [digest c, digest a, digest b]
  | cmp r a b => Digest.node (relationCode r) [digest a, digest b]
  | add _ as => Digest.node 10 (digestAll as)
  | sub a b => Digest.node 11 [digest a, digest b]
  | mul _ as => Digest.node 12 (digestAll as)
  | div a b => Digest.node 13 [digest a, digest b]
  | neg a => Digest.node 14 [digest a]
  | quant .all v body => Digest.node 65 [v.digest, digest body]
  | quant .any v body => Digest.node 69 [v.digest, digest body]
  | t@(integral _) => Digest.leaf 73 0 t.text
  | t@(throughout ..) => Digest.leaf 70 0 t.text

def digestAll : List Term → List UInt64
  | [] => []
  | a :: as => digest a :: digestAll as

end

/-- Whether two terms count as identical: digest, text and sort agree. -/
def identical (a b : Term) : Bool :=
  a.digest == b.digest && a.text == b.text && a.sort == b.sort

end Term

end HybridCheck
