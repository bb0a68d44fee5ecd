import HybridCheck.Term.Fold

/-!
# Replacement in terms

One traversal serves every replacement. It replaces leaves and flow primitives as a `Replacement`
says and rebuilds a node through the folding operations exactly when something below it changed: an
unchanged node is kept as it is, with the sort it was given. What was put in is never looked at
again. A flow primitive that is not replaced has its time and its values transformed, and always
counts as changed.

`Term.substitute` replaces identifiers, `Term.substituteNext` resolves references to the values
after a jump, and `Term.replace` replaces the free occurrences of one variable.
-/

namespace HybridCheck

/-- What to replace in a term. -/
structure Replacement where
  /-- The replacement of a variable. -/
  onVar : Var → Option Term := fun _ => none
  /-- The replacement of a reference to the value of a variable after a jump. -/
  onNext : Var → Option Term := fun _ => none
  /-- Whether a quantifier over a variable is left alone. -/
  stopsAt : Var → Bool := fun _ => false
  /-- The replacement of flow primitives: of an integral, or of a body holding throughout. -/
  onSegment : Option (Segment → Option Term → Attempt Term) := none

namespace Term

/-- The replacement of a variable, `none` if it is the variable itself. -/
def changedVar (v : Var) : Option Term → Option Term
  | some (var w) => if w = v then none else some (var w)
  | r => r

/-- The replacement of a post-jump reference, `none` if it is the reference itself. -/
def changedNext (v : Var) : Option Term → Option Term
  | some (next w) => if w = v then none else some (next w)
  | r => r

def changedPair (a b : Term) : Option Term → Option Term → Option (Term × Term)
  | none, none => none
  | a', b' => some (a'.getD a, b'.getD b)

def rebuild1 (build : Term → Attempt Term) : Option Term → Attempt (Option Term)
  | none => .ok none
  | some a => (build a).map some

def rebuild2 (build : Term → Term → Attempt Term) : Option (Term × Term) → Attempt (Option Term)
  | none => .ok none
  | some (a, b) => (build a b).map some

/-- Rebuilds a node from a list of operands of which one changed. -/
def rebuildAll (build : List Term → Attempt Term) : Option (List Term) → Attempt (Option Term)
  | none => .ok none
  | some as => (build as).map some

mutual

/-- The transformed term, or `none` if nothing changed. -/
def transform? (r : Replacement) : Term → Attempt (Option Term)
  | var v => .ok (changedVar v (r.onVar v))
  | bool _ | num .. => .ok none
  | next v => .ok (changedNext v (r.onNext v))
  | not a => do rebuild1 (fun a => .ok (mkNot a)) (← transform? r a)
  | neg a => do rebuild1 mkNeg (← transform? r a)
  | and as => do rebuildAll (fun as => .ok (mkAnd as)) (← transformAll? r as)
  | or as => do rebuildAll (fun as => .ok (mkOr as)) (← transformAll? r as)
  | add _ as => do rebuildAll mkAdd (← transformAll? r as)
  | mul _ as => do rebuildAll mkMul (← transformAll? r as)
  | implies a b => do
    rebuild2 (fun a b => .ok (mkImplies a b))
      (changedPair a b (← transform? r a) (← transform? r b))
  | cmp rel a b => do
    rebuild2 (fun a b => .ok (mkCmp rel a b))
      (changedPair a b (← transform? r a) (← transform? r b))
  | sub a b => do
    rebuild2 mkSub (changedPair a b (← transform? r a) (← transform? r b))
  | div a b => do
    rebuild2 mkDiv (changedPair a b (← transform? r a) (← transform? r b))
  | ite c a b => do
    let c' ← transform? r c
    match c', changedPair a b (← transform? r a) (← transform? r b) with
    | none, none => return none
    | c', none => return some (mkIte (c'.getD c) a b)
    | c', some (a, b) => return some (mkIte (c'.getD c) a b)
  | quant q v body =>
    if r.stopsAt v then .ok none
    else do rebuild1 (fun body => .ok (mkQuant q v body)) (← transform? r body)
  | integral seg@⟨flow, time, entry, exit, mode, ends⟩ =>
    match r.onSegment with
    | some f => (f seg none).map some
    | none => do
      let time' ← transform? r time
      let entry' ← transformTable r entry
      let exit' ← transformTable r exit
      let mode' ← transformTable r mode
      return some (integral ⟨flow, time'.getD time, entry', exit', mode', ends⟩)
  | throughout seg@⟨flow, time, entry, exit, mode, ends⟩ body =>
    match r.onSegment with
    | some f => (f seg (some body)).map some
    | none => do
      let time' ← transform? r time
      let entry' ← transformTable r entry
      let exit' ← transformTable r exit
      let mode' ← transformTable r mode
      return some (throughout ⟨flow, time'.getD time, entry', exit', mode', ends⟩ body)

/-- The transformed operands of a node, or `none` if none of them changed. -/
def transformAll? (r : Replacement) : List Term → Attempt (Option (List Term))
  | [] => .ok none
  | a :: as => do
    let a' ← transform? r a
    match a', ← transformAll? r as with
    | none, none => return none
    | a', as' => return some (a'.getD a :: as'.getD as)

def transformTable (r : Replacement) : List (String × Term) → Attempt (List (String × Term))
  | [] => .ok []
  | (k, a) :: t => do
    let a' ← transform? r a
    return (k, a'.getD a) :: (← transformTable r t)

end

def transform (r : Replacement) (t : Term) : Attempt Term := do
  return (← transform? r t).getD t

/-- Replaces the logical variables of a term that a substitution maps. -/
def substitute (t : Term) (s : Subst) : Attempt Term :=
  if s.isEmpty then .ok t
  else transform { onVar := fun v => if v.role = .logical then s.get? v.name else none } t

/-- Replaces the post-jump references of a term to identifiers that a substitution maps. -/
def substituteNext (t : Term) (s : Subst) : Attempt Term :=
  if s.isEmpty then .ok t else transform { onNext := fun v => s.get? v.name } t

def replace (t : Term) (v : Var) (u : Term) : Attempt Term :=
  transform { onVar := fun w => if w = v then some u else none, stopsAt := fun w => w = v } t

end Term

end HybridCheck
