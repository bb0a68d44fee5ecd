import HybridCheck.Term.Basic

/-!
# Folding operations

Terms are built with these operations. They fold trivial constants so that encodings stay small:
nested conjunctions and disjunctions are flattened and their units dropped, an absorbing operand
decides the result, constant operands of sums and products are collected into one, and double
negation cancels. Operands are never reordered otherwise.

The Boolean operations read any constant as a truth value, a number counting as false. Arithmetic
has no answer where it would need the number of a Boolean constant.
-/

namespace HybridCheck.Term

/-- The truth value a constant stands for, for a term that is one. A number counts as false. -/
def truth? : Term → Option Bool
  | bool b => some b
  | num .. => some false
  | _ => none

/-- Collects the operands of a conjunction or disjunction. `spread` gives the operands of a nested
node of the same kind and `absorbing` is the value that decides the result; `none` if it occurs. -/
def collect (absorbing : Bool) (spread : Term → Option (List Term)) :
    List Term → Option (List Term)
  | [] => some []
  | a :: as =>
    match truth? a with
    | some b => if b = absorbing then none else collect absorbing spread as
    | none =>
      match collect absorbing spread as with
      | none => none
      | some rest =>
        match spread a with
        | some inner => some (inner ++ rest)
        | none => some (a :: rest)

def conjuncts? : Term → Option (List Term)
  | and as => some as
  | _ => none

def disjuncts? : Term → Option (List Term)
  | or as => some as
  | _ => none

def mkAnd (args : List Term) : Term :=
  match collect false conjuncts? args with
  | none => bot
  | some [] => top
  | some [a] => a
  | some as => and as

def mkOr (args : List Term) : Term :=
  match collect true disjuncts? args with
  | none => top
  | some [] => bot
  | some [a] => a
  | some as => or as

def mkNot : Term → Term
  | bool b => bool !b
  | num .. => top
  | not a => a
  | t => not t

def mkImplies (a b : Term) : Term :=
  match truth? a with
  | some true => b
  | some false => top
  | none =>
    match truth? b with
    | some true => top
    | some false => mkNot a
    | none => implies a b

def mkIte (c a b : Term) : Term :=
  match truth? c with
  | some true => a
  | some false => b
  | none => ite c a b

/-- The comparison of two terms. Constants are compared at once; if one of them is Boolean, only
their truth values are, whatever the relation. -/
def mkCmp (r : Relation) (a b : Term) : Term :=
  match a, b with
  | num _ x, num _ y => bool (r.holds x y)
  | a, b =>
    match truth? a, truth? b with
    | some x, some y => bool (x == y)
    | _, _ => cmp r a b

/-- The equation of two terms, over Booleans their equivalence. -/
def mkEq (a b : Term) : Term := mkCmp .eq a b
def mkLt (a b : Term) : Term := mkCmp .lt a b
def mkLe (a b : Term) : Term := mkCmp .le a b
def mkGt (a b : Term) : Term := mkCmp .gt a b
def mkGe (a b : Term) : Term := mkCmp .ge a b

/-- The quantified body. A constant body needs no quantifier. -/
def mkQuant (q : Quantifier) (v : Var) (body : Term) : Term :=
  match truth? body with
  | some _ => body
  | none => quant q v body

def mkAll (v : Var) (body : Term) : Term := mkQuant .all v body
def mkAny (v : Var) (body : Term) : Term := mkQuant .any v body

/-- The sort of an arithmetic result: real as soon as one operand is. -/
def arithSort (args : List Term) : NumSort :=
  if args.any fun a => a.sort = .real then .real else .int

/-- Splits the operands of a sum or product into the numbers and the others; there is no answer if
one of them is a Boolean constant. -/
def splitNumbers : List Term → Attempt (List Rat × List Term)
  | [] => .ok ([], [])
  | bool _ :: _ => .error (.fault .booleanOperand)
  | a :: as => do
    let (qs, rest) ← splitNumbers as
    match a with
    | num _ q => return (q :: qs, rest)
    | a => return (qs, a :: rest)

/-- The sum of several terms. The constants are added up and stand last, unless they cancel. -/
def mkAdd (args : List Term) : Attempt Term := do
  let s := arithSort args
  let (qs, rest) ← splitNumbers args
  let sum := qs.foldr (· + ·) 0
  match (if sum ≠ 0 ∨ rest.isEmpty then rest ++ [num s sum] else rest) with
  | [a] => return a
  | as => return add s as

/-- The product of several terms. The constants are multiplied and stand first, unless the product
is one; a zero decides the result. -/
def mkMul (args : List Term) : Attempt Term := do
  let s := arithSort args
  let (qs, rest) ← splitNumbers args
  let product := qs.foldr (· * ·) 1
  if product = 0 then return num s 0
  else
    match (if product ≠ 1 ∨ rest.isEmpty then num s product :: rest else rest) with
    | [a] => return a
    | as => return mul s as

def mkSub (a b : Term) : Attempt Term :=
  match b with
  | bool _ => .error (.fault .booleanOperand)
  | num _ y =>
    if y = 0 then .ok a
    else match a with
      | bool _ => .error (.fault .booleanOperand)
      | num _ x => .ok (num (arithSort [a, b]) (x - y))
      | a => .ok (sub a b)
  | b => .ok (sub a b)

/-- The quotient of two terms, always real. Division by zero is left as it is. -/
def mkDiv (a b : Term) : Attempt Term :=
  match b with
  | bool _ => .error (.fault .booleanOperand)
  | num _ y =>
    if y = 0 then .ok (div a b)
    else match a with
      | bool _ => .error (.fault .booleanOperand)
      | num _ x => .ok (real (x / y))
      | a => if y = 1 ∧ a.sort = .real then .ok a else .ok (div a b)
  | b => .ok (div a b)

def mkNeg : Term → Attempt Term
  | bool _ => .error (.fault .booleanOperand)
  | num s q => .ok (num s (-q))
  | neg a => .ok a
  | t => .ok (neg t)

end HybridCheck.Term
