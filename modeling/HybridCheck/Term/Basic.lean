import HybridCheck.Failure
import HybridCheck.Table

/-!
# Terms

Constraints are typed terms: variables with a role, exact constants, references to the value after a
jump, Boolean and arithmetic operators, quantifiers over one variable, and two primitives about a
segment of continuous flow. The integral relates the values at both ends of a segment; the flow
universal says that a body holds at every instant of it.

The constructors of `Term` are the nodes as they are stored. Terms are built with the folding
operations of `HybridCheck.Term.Fold`, which keep them in a small normal form. A sum and a product
remember their sort: a constant that was folded away may have made them real.
-/

namespace HybridCheck

/-- A variable. Two variables are the same symbol when name, sort and role agree. -/
structure Var where
  name : String
  sort : TermSort
  role : Role
  deriving DecidableEq, Repr

inductive Relation where
  | eq
  | lt
  | le
  | gt
  | ge
  deriving DecidableEq, Repr

def Relation.text : Relation → String
  | eq => "="
  | lt => "<"
  | le => "<="
  | gt => ">"
  | ge => ">="

def Relation.holds : Relation → Rat → Rat → Bool
  | eq, a, b => a = b
  | lt, a, b => a < b
  | le, a, b => a ≤ b
  | gt, a, b => b < a
  | ge, a, b => b ≤ a

inductive Quantifier where
  | all
  | any
  deriving DecidableEq, Repr

def Quantifier.text : Quantifier → String
  | all => "forall"
  | any => "exists"

/-- The dynamics of one mode over the terms `τ`: a variable has a constant rate, or a closed-form
solution over its initial value and the clock, or keeps its value. -/
structure FlowOf (τ : Type) where
  clock : Var
  rates : List (String × τ)
  solution : List (String × τ)
  deriving Repr

/-- Which of the two ends of a segment were recorded at all. The valuation of an end that was not is
empty. -/
structure Ends where
  entry : Bool := true
  exit : Bool := true
  deriving DecidableEq, Repr

/-- A stretch of continuous flow over the terms `τ`: for how long, from which values, to which
values, and with which values of the discrete variables. -/
structure SegmentOf (τ : Type) where
  flow : FlowOf τ
  time : τ
  entry : List (String × τ)
  exit : List (String × τ)
  mode : List (String × τ)
  ends : Ends := {}
  deriving Repr

inductive Term where
  | var (v : Var)
  | bool (b : Bool)
  | num (s : NumSort) (q : Rat)
  /-- The value of a variable right after a jump. -/
  | next (v : Var)
  | not (a : Term)
  | and (args : List Term)
  | or (args : List Term)
  | implies (a b : Term)
  | ite (c a b : Term)
  | cmp (r : Relation) (a b : Term)
  | add (s : NumSort) (args : List Term)
  | sub (a b : Term)
  | mul (s : NumSort) (args : List Term)
  | div (a b : Term)
  | neg (a : Term)
  | quant (q : Quantifier) (v : Var) (body : Term)
  /-- The exit values of a segment are reached from its entry values. -/
  | integral (seg : SegmentOf Term)
  /-- The body holds at every instant of a segment. -/
  | throughout (seg : SegmentOf Term) (body : Term)
  deriving Repr

/-- The dynamics of one mode. -/
abbrev Flow := FlowOf Term

/-- A stretch of continuous flow. -/
abbrev Segment := SegmentOf Term

/-- Terms for identifiers. -/
abbrev Subst := Table Term

namespace Term

/-- The sort of a term. A difference is real if one side is; a conditional takes the sort of its
first branch. -/
def sort : Term → TermSort
  | var v => v.sort
  | num s _ => s.toSort
  | next v => v.sort
  | ite _ a _ => a.sort
  | add s _ => s.toSort
  | mul s _ => s.toSort
  | sub a b => if a.sort = .real ∨ b.sort = .real then .real else .int
  | div _ _ => .real
  | neg a => a.sort
  | bool _ | not _ | and _ | or _ | implies .. | cmp .. | quant .. | integral _
  | throughout .. => .bool

def top : Term := bool true

def bot : Term := bool false

def real (q : Rat) : Term := num .real q

def zero : Term := real 0

mutual

/-- The number of nodes of a term. Of a flow primitive the time, the entry values and either the
exit values or the body count. -/
def size : Term → Nat
  | var _ | bool _ | num .. | next _ => 1
  | not a | neg a => 1 + size a
  | and as | or as | add _ as | mul _ as => 1 + sizeAll as
  | implies a b | cmp _ a b | sub a b | div a b => 1 + (size a + size b)
  | ite c a b => 1 + (size c + size a + size b)
  | quant _ _ body => 2 + size body
  | integral ⟨_, time, entry, exit, _, _⟩ => 1 + size time + sizeTable entry + sizeTable exit
  | throughout ⟨_, time, entry, _, _, _⟩ body => 1 + size time + size body + sizeTable entry

def sizeAll : List Term → Nat
  | [] => 0
  | a :: as => size a + sizeAll as

def sizeTable : List (String × Term) → Nat
  | [] => 0
  | (_, a) :: t => size a + sizeTable t

end

mutual

/-- The nodes of a term from the root downwards, left to right. The parts of a node that `enter`
refuses are left out. Of a flow primitive the time and the values count as parts. -/
def nodes (enter : Term → Bool) : Term → List Term
  | t@(var _) | t@(bool _) | t@(num ..) | t@(next _) => [t]
  | t@(not a) | t@(neg a) => t :: if enter t then nodes enter a else []
  | t@(and as) | t@(or as) | t@(add _ as) | t@(mul _ as) =>
    t :: if enter t then nodesAll enter as else []
  | t@(implies a b) | t@(cmp _ a b) | t@(sub a b) | t@(div a b) =>
    t :: if enter t then nodes enter a ++ nodes enter b else []
  | t@(ite c a b) => t :: if enter t then nodes enter c ++ (nodes enter a ++ nodes enter b) else []
  | t@(quant _ _ body) => t :: if enter t then nodes enter body else []
  | t@(integral ⟨_, time, entry, exit, mode, _⟩)
  | t@(throughout ⟨_, time, entry, exit, mode, _⟩ _) =>
    t :: if enter t then
      nodes enter time ++
        (nodesTable enter entry ++ (nodesTable enter exit ++ nodesTable enter mode))
    else []

def nodesAll (enter : Term → Bool) : List Term → List Term
  | [] => []
  | a :: as => nodes enter a ++ nodesAll enter as

def nodesTable (enter : Term → Bool) : List (String × Term) → List Term
  | [] => []
  | (_, a) :: t => nodes enter a ++ nodesTable enter t

end

mutual

/-- The occurrences of variables that no quantifier around them binds, left to right. The flow and
the body of a flow primitive are closed by its values and do not count. -/
def occurrences (bound : List Var) : Term → List Var
  | var v => if v ∈ bound then [] else [v]
  | bool _ | num .. | next _ => []
  | not a | neg a => occurrences bound a
  | and as | or as | add _ as | mul _ as => occurrencesAll bound as
  | implies a b | cmp _ a b | sub a b | div a b => occurrences bound a ++ occurrences bound b
  | ite c a b => occurrences bound c ++ (occurrences bound a ++ occurrences bound b)
  | quant _ v body => occurrences (v :: bound) body
  | integral ⟨_, time, entry, exit, mode, _⟩
  | throughout ⟨_, time, entry, exit, mode, _⟩ _ =>
    occurrences bound time ++
      (occurrencesTable bound entry ++ (occurrencesTable bound exit ++ occurrencesTable bound mode))

def occurrencesAll (bound : List Var) : List Term → List Var
  | [] => []
  | a :: as => occurrences bound a ++ occurrencesAll bound as

def occurrencesTable (bound : List Var) : List (String × Term) → List Var
  | [] => []
  | (_, a) :: t => occurrences bound a ++ occurrencesTable bound t

end

end Term

/-- The order in which variables are listed: by name, then by the code of the role. -/
def Var.precedes (v w : Var) : Bool :=
  v.name < w.name || (v.name = w.name && v.role.code ≤ w.role.code)

namespace Term

/-- The free variables of several terms, each once, by name and role. Variables that differ in sort
only keep the order of their first occurrence. -/
def freeVarsOf (ts : List Term) : List Var :=
  (occurrencesAll [] ts).eraseDups.mergeSort Var.precedes

def freeVars (t : Term) : List Var := freeVarsOf [t]

def mentions (t : Term) (v : Var) : Bool := (occurrences [] t).contains v

end Term

end HybridCheck
