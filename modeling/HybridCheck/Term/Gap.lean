import HybridCheck.Term.Replacement

/-!
# Gaps

A flow primitive that cannot be replaced leaves a gap in the term, and nothing after it is replaced.
The nodes above the gap are still built, and a node that has to look at the gap is a fault. Some do
without it: a conjunction or disjunction that another operand decides or that has no other operand
left, and an implication or conditional that is settled by a constant. Only if every node does
without is the reason for the gap worth telling.

`Term.patch` builds a term over the first gap that a replacement leaves. It is meant for terms
in which a replacement fails.
-/

namespace HybridCheck.Term

/-- An operand that has to be there. -/
def present : Option Term → Attempt Term
  | some t => .ok t
  | none => .error (.fault .missingOperand)

/-- Collects the operands of a conjunction or disjunction, of which one may be missing. The other
arguments are those of `Term.collect`. -/
def collectPresent (absorbing : Bool) (spread : Term → Option (List Term)) :
    List (Option Term) → Option (List (Option Term))
  | [] => some []
  | none :: as => (collectPresent absorbing spread as).map (none :: ·)
  | some a :: as =>
    match truth? a with
    | some b => if b = absorbing then none else collectPresent absorbing spread as
    | none => (collectPresent absorbing spread as).map (((spread a).getD [a]).map some ++ ·)

/-- Builds a conjunction or disjunction from operands of which one may be missing. -/
def patchJunction (absorbing : Bool) (spread : Term → Option (List Term))
    (build : List Term → Term) (args : List (Option Term)) : Attempt (Option Term) :=
  match collectPresent absorbing spread args with
  | none => .ok (some (bool absorbing))
  | some [a] => .ok a
  | some as => do return some (build (← as.mapM present))

def patchImplies (a b : Option Term) : Attempt (Option Term) :=
  match a.bind truth?, b.bind truth? with
  | some true, _ => .ok b
  | some false, _ | none, some true => .ok (some top)
  | none, _ => do return some (mkImplies (← present a) (← present b))

def patchIte (c a b : Option Term) : Attempt (Option Term) :=
  match c.bind truth? with
  | some true => .ok a
  | some false => .ok b
  | none => do return some (mkIte (← present c) (← present a) (← present b))

mutual

/-- The term built over the first gap that a replacement leaves, nothing if it is itself missing. -/
def patch (r : Replacement) : Term → Attempt (Option Term)
  | integral _ | throughout .. => .ok none
  | not a => do return some (mkNot (← present (← patch r a)))
  | neg a => do return some (← mkNeg (← present (← patch r a)))
  | quant q v body => do return some (mkQuant q v (← present (← patch r body)))
  | and as => do patchJunction false conjuncts? mkAnd (← patchAll r as)
  | or as => do patchJunction true disjuncts? mkOr (← patchAll r as)
  | add _ as => do return some (← mkAdd (← (← patchAll r as).mapM present))
  | mul _ as => do return some (← mkMul (← (← patchAll r as).mapM present))
  | implies a b =>
    match transform? r a with
    | .error _ => do patchImplies (← patch r a) (some b)
    | .ok a' => do patchImplies (some (a'.getD a)) (← patch r b)
  | cmp rel a b =>
    match transform? r a with
    | .error _ => do return some (mkCmp rel (← present (← patch r a)) b)
    | .ok a' => do return some (mkCmp rel (a'.getD a) (← present (← patch r b)))
  | sub a b =>
    match transform? r a with
    | .error _ => do return some (← mkSub (← present (← patch r a)) b)
    | .ok a' => do return some (← mkSub (a'.getD a) (← present (← patch r b)))
  | div a b =>
    match transform? r a with
    | .error _ => do return some (← mkDiv (← present (← patch r a)) b)
    | .ok a' => do return some (← mkDiv (a'.getD a) (← present (← patch r b)))
  | ite c a b =>
    match transform? r c, transform? r a with
    | .error _, _ => do patchIte (← patch r c) (some a) (some b)
    | .ok c', .error _ => do patchIte (some (c'.getD c)) (← patch r a) (some b)
    | .ok c', .ok a' => do patchIte (some (c'.getD c)) (some (a'.getD a)) (← patch r b)
  | t => .ok (some t)

/-- The operands of a node: transformed before the first gap, as they were after it. -/
def patchAll (r : Replacement) : List Term → Attempt (List (Option Term))
  | [] => .ok []
  | a :: as =>
    match transform? r a with
    | .error _ => do return (← patch r a) :: as.map some
    | .ok a' => do return some (a'.getD a) :: (← patchAll r as)

end

end HybridCheck.Term
