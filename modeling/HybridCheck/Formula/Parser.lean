import HybridCheck.Formula.Basic
import HybridCheck.Formula.Token

/-!
# Reading formulas

The reader descends from implication through disjunction, conjunction, the binary temporal operators
and the unary ones down to comparisons of arithmetic expressions. Implication groups to the right,
the binary temporal operators and arithmetic to the left. Terms are folded while they are read.

A parenthesis may open an arithmetic operand or a formula. The reader first tries a comparison and,
if that is unreadable, takes the parenthesis for that of a formula; a fault is final.

Every function returns what it read together with the tokens that remain, which are fewer than it
was given. That is what makes the recursion end.
-/

namespace HybridCheck

/-- What a name stands for in formula text. -/
structure Decl where
  sort : TermSort
  role : Role := .logical
  /-- A proposition is not a variable of the model but an abstract Boolean signal. -/
  isProp : Bool := false
  deriving DecidableEq, Repr

/-- The names that formula text may use. -/
abbrev Scope := Table Decl

/-- What was read, and fewer than `n` remaining tokens. -/
structure Parsed (α : Type) (n : Nat) where
  value : α
  rest : List Token
  fewer : rest.length < n

namespace Parser

/-- The circumstances of reading: the names in scope, whether only a constraint over the state
before and after a jump may be read, and the length of the text. -/
structure Context where
  scope : Scope
  constraintOnly : Bool
  length : Nat

def headText : List Token → String
  | [] => ""
  | t :: _ => t.text

def headOffset (cx : Context) : List Token → Nat
  | [] => cx.length
  | t :: _ => t.offset

def objection {α : Type} (cx : Context) (ts : List Token) (p : ParseProblem) : Attempt α :=
  .error (.unreadable p (headOffset cx ts))

def expect (cx : Context) (wanted : String) : (ts : List Token) → Attempt (Parsed Unit ts.length)
  | [] => objection cx [] (.expected wanted "")
  | t :: rest =>
    if t.text = wanted then .ok ⟨(), rest, by simp⟩
    else objection cx (t :: rest) (.expected wanted t.text)

def numeral (t : Token) : Attempt Rat :=
  match Rational.ofText? t.text with
  | some q => .ok q
  | none => .error (.unreadable (.invalidNumber t.text) t.offset)

/-! ## Arithmetic -/

/-- Reads a variable, with a quote as a reference to its value after a jump. -/
def reference (cx : Context) (t : Token) (rest : List Token) :
    Attempt (Parsed Term (rest.length + 1)) :=
  match cx.scope.get? t.text with
  | none => .error (.unreadable (.undeclared t.text) t.offset)
  | some d =>
    if d.isProp then .error (.unreadable (.undeclared t.text) t.offset)
    else
      let v : Var := ⟨t.text, d.sort, d.role⟩
      match rest with
      | [] => .ok ⟨.var v, [], by simp⟩
      | q :: rest =>
        if q.text = "'" then
          if cx.constraintOnly then .ok ⟨.next v, rest, by rw [List.length_cons]; omega⟩
          else .error (.unreadable (.postJump t.text) q.offset)
        else .ok ⟨.var v, q :: rest, by simp⟩

mutual

def sum (cx : Context) (ts : List Token) : Attempt (Parsed Term ts.length) := do
  let ⟨a, rest, h⟩ ← product cx ts
  let ⟨a, rest', h'⟩ ← moreSummands cx a rest
  return ⟨a, rest', by omega⟩
termination_by (ts.length, 3)

def moreSummands (cx : Context) (acc : Term) (ts : List Token) :
    Attempt (Parsed Term (ts.length + 1)) :=
  match ts with
  | [] => .ok ⟨acc, [], by simp⟩
  | t :: rest =>
    if t.text = "+" ∨ t.text = "-" then do
      let ⟨b, rest', h⟩ ← product cx rest
      let acc ← if t.text = "+" then Term.mkAdd [acc, b] else Term.mkSub acc b
      let ⟨a, rest'', h'⟩ ← moreSummands cx acc rest'
      return ⟨a, rest'', by rw [List.length_cons]; omega⟩
    else .ok ⟨acc, t :: rest, by simp⟩
termination_by (ts.length, 0)

def product (cx : Context) (ts : List Token) : Attempt (Parsed Term ts.length) := do
  let ⟨a, rest, h⟩ ← factor cx ts
  let ⟨a, rest', h'⟩ ← moreFactors cx a rest
  return ⟨a, rest', by omega⟩
termination_by (ts.length, 2)

def moreFactors (cx : Context) (acc : Term) (ts : List Token) :
    Attempt (Parsed Term (ts.length + 1)) :=
  match ts with
  | [] => .ok ⟨acc, [], by simp⟩
  | t :: rest =>
    if t.text = "*" ∨ t.text = "/" then do
      let ⟨b, rest', h⟩ ← factor cx rest
      let acc ← if t.text = "*" then Term.mkMul [acc, b] else Term.mkDiv acc b
      let ⟨a, rest'', h'⟩ ← moreFactors cx acc rest'
      return ⟨a, rest'', by rw [List.length_cons]; omega⟩
    else .ok ⟨acc, t :: rest, by simp⟩
termination_by (ts.length, 0)

/-- Reads a factor: a negated factor, an expression in parentheses, a constant or a variable. -/
def factor (cx : Context) (ts : List Token) : Attempt (Parsed Term ts.length) :=
  match ts with
  | [] => objection cx [] (.expectedExpression "")
  | t :: rest =>
    if t.text = "-" then do
      let ⟨a, rest', h⟩ ← factor cx rest
      return ⟨← Term.mkNeg a, rest', by rw [List.length_cons]; omega⟩
    else if t.text = "(" then do
      let ⟨a, rest', h⟩ ← sum cx rest
      let ⟨_, rest'', h'⟩ ← expect cx ")" rest'
      return ⟨a, rest'', by rw [List.length_cons]; omega⟩
    else if t.kind = .number then do
      return ⟨.real (← numeral t), rest, by simp⟩
    else if t.kind = .ident then
      if t.text = "true" ∨ t.text = "false" then .ok ⟨.bool (t.text = "true"), rest, by simp⟩
      else reference cx t rest
    else objection cx (t :: rest) (.expectedExpression t.text)
termination_by (ts.length, 1)

end

/-! ## Comparisons -/

def comparisonOf? (op : String) (a b : Term) : Option Term :=
  if op = "<" then some (Term.mkLt a b)
  else if op = "<=" then some (Term.mkLe a b)
  else if op = ">" then some (Term.mkGt a b)
  else if op = ">=" then some (Term.mkGe a b)
  else if op = "=" ∨ op = "==" then some (Term.mkEq a b)
  else if op = "!=" then some (Term.mkEq a b).mkNot
  else none

/-- Reads a comparison of two sums. Booleans may only be tested for equality. -/
def comparison (cx : Context) (ts : List Token) : Attempt (Parsed Term ts.length) := do
  let ⟨a, rest, h⟩ ← sum cx ts
  match rest, h with
  | [], _ => objection cx [] (.expectedComparison "")
  | op :: rest, h =>
    if op.kind ≠ .symbol then objection cx (op :: rest) (.expectedComparison op.text)
    else
      let ⟨b, rest', h'⟩ ← sum cx rest
      if (a.sort = .bool ∨ b.sort = .bool) ∧ ¬(op.text = "=" ∨ op.text = "==" ∨ op.text = "!=") then
        .error (.unreadable (.booleanOperands op.text) op.offset)
      else
        match comparisonOf? op.text a b with
        | some c => return ⟨c, rest', by simp at h; omega⟩
        | none => .error (.unreadable (.expectedComparison op.text) op.offset)

def continuesComparison (ts : List Token) : Bool :=
  let ts := if headText ts = "'" then ts.drop 1 else ts
  match ts with
  | [] => false
  | t :: _ =>
    t.kind = .symbol && ["<", "<=", ">", ">=", "=", "==", "!=", "+", "-", "*", "/"].contains t.text

/-! ## Windows -/

def lowerBound (cx : Context) : (ts : List Token) → Attempt (Parsed Rat ts.length)
  | [] => objection cx [] (.expectedBound "")
  | t :: rest =>
    if t.kind = .number then do return ⟨← numeral t, rest, by simp⟩
    else objection cx (t :: rest) (.expectedBound t.text)

def upperBound (cx : Context) : (ts : List Token) → Attempt (Parsed (Option Rat) ts.length)
  | [] => objection cx [] (.expectedBound "")
  | t :: rest =>
    if t.kind = .ident ∧ t.text = "inf" then .ok ⟨none, rest, by simp⟩
    else if t.kind = .number then do return ⟨some (← numeral t), rest, by simp⟩
    else objection cx (t :: rest) (.expectedBound t.text)

/-- Reads the opening bracket of a window: whether the window is open there. -/
def opening (cx : Context) : (ts : List Token) → Attempt (Parsed Bool ts.length)
  | [] => objection cx [] (.expectedInterval "")
  | t :: rest =>
    if t.text = "[" then .ok ⟨false, rest, by simp⟩
    else if t.text = "(" then .ok ⟨true, rest, by simp⟩
    else objection cx (t :: rest) (.expectedInterval t.text)

/-- Reads the closing bracket of a window: whether the window is open there. -/
def closing (cx : Context) : (ts : List Token) → Attempt (Parsed Bool ts.length)
  | [] => objection cx [] (.expectedWindowEnd "")
  | t :: rest =>
    if t.text = "]" then .ok ⟨false, rest, by simp⟩
    else if t.text = ")" then .ok ⟨true, rest, by simp⟩
    else objection cx (t :: rest) (.expectedWindowEnd t.text)

/-- Reads an optional window after an underscore. Without one a window is all time to come. -/
def window (cx : Context) : (ts : List Token) → Attempt (Parsed Window (ts.length + 1))
  | [] => .ok ⟨.unbounded, [], by simp⟩
  | t :: ts =>
    if t.text = "_" then do
      let ⟨leftOpen, r1, h1⟩ ← opening cx ts
      let ⟨lo, r2, h2⟩ ← lowerBound cx r1
      let ⟨_, r3, h3⟩ ← expect cx "," r2
      let ⟨hi, r4, h4⟩ ← upperBound cx r3
      let ⟨rightOpen, r5, h5⟩ ← closing cx r4
      let w : Window := { lo := some lo, hi, leftOpen, rightOpen := rightOpen || hi.isNone }
      match hi with
      | none => return ⟨w, r5, by rw [List.length_cons]; omega⟩
      | some h =>
        if h < lo then objection cx ts (.emptyInterval w.text)
        else return ⟨w, r5, by rw [List.length_cons]; omega⟩
    else .ok ⟨.unbounded, t :: ts, by simp⟩

/-! ## Formulas -/

mutual

def implication (cx : Context) (ts : List Token) : Attempt (Parsed Formula ts.length) := do
  let ⟨l, rest, h⟩ ← disjunction cx ts
  match rest, h with
  | [], h => return ⟨l, [], h⟩
  | t :: rest, h =>
    if t.text = "->" ∨ t.text = "=>" then
      let ⟨r, rest', h'⟩ ← implication cx rest
      return ⟨.implies l r, rest', by simp at h; omega⟩
    else return ⟨l, t :: rest, h⟩
termination_by (ts.length, 8)
decreasing_by
  · exact Prod.Lex.right _ (by omega)
  · exact Prod.Lex.left _ _ (by simp at h; omega)

def disjunction (cx : Context) (ts : List Token) : Attempt (Parsed Formula ts.length) := do
  let ⟨f, rest, h⟩ ← conjunction cx ts
  let ⟨fs, rest', h'⟩ ← moreDisjuncts cx rest
  return ⟨if fs.isEmpty then f else .or (f :: fs), rest', by omega⟩
termination_by (ts.length, 7)

def moreDisjuncts (cx : Context) (ts : List Token) :
    Attempt (Parsed (List Formula) (ts.length + 1)) :=
  match ts with
  | [] => .ok ⟨[], [], by simp⟩
  | t :: rest =>
    if t.text = "|" ∨ t.text = "\\/" ∨ t.text = "or" then do
      let ⟨f, rest', h⟩ ← conjunction cx rest
      let ⟨fs, rest'', h'⟩ ← moreDisjuncts cx rest'
      return ⟨f :: fs, rest'', by rw [List.length_cons]; omega⟩
    else .ok ⟨[], t :: rest, by simp⟩
termination_by (ts.length, 0)

def conjunction (cx : Context) (ts : List Token) : Attempt (Parsed Formula ts.length) := do
  let ⟨f, rest, h⟩ ← temporal cx ts
  let ⟨fs, rest', h'⟩ ← moreConjuncts cx rest
  return ⟨if fs.isEmpty then f else .and (f :: fs), rest', by omega⟩
termination_by (ts.length, 6)

def moreConjuncts (cx : Context) (ts : List Token) :
    Attempt (Parsed (List Formula) (ts.length + 1)) :=
  match ts with
  | [] => .ok ⟨[], [], by simp⟩
  | t :: rest =>
    if t.text = "&" ∨ t.text = "/\\" ∨ t.text = "and" then do
      let ⟨f, rest', h⟩ ← temporal cx rest
      let ⟨fs, rest'', h'⟩ ← moreConjuncts cx rest'
      return ⟨f :: fs, rest'', by rw [List.length_cons]; omega⟩
    else .ok ⟨[], t :: rest, by simp⟩
termination_by (ts.length, 0)

def temporal (cx : Context) (ts : List Token) : Attempt (Parsed Formula ts.length) := do
  let ⟨l, rest, h⟩ ← unary cx ts
  let ⟨f, rest', h'⟩ ← moreTemporal cx l rest
  return ⟨f, rest', by omega⟩
termination_by (ts.length, 5)

def moreTemporal (cx : Context) (acc : Formula) (ts : List Token) :
    Attempt (Parsed Formula (ts.length + 1)) :=
  match ts with
  | [] => .ok ⟨acc, [], by simp⟩
  | t :: rest =>
    if t.text = "U" ∨ t.text = "R" then
      if cx.constraintOnly then .error (.unreadable (.temporalOperator t.text) t.offset)
      else do
        let ⟨w, rest', h⟩ ← window cx rest
        let ⟨r, rest'', h'⟩ ← unary cx rest'
        let ⟨f, rest''', h''⟩ ←
          moreTemporal cx (if t.text = "U" then .untl w acc r else .release w acc r) rest''
        return ⟨f, rest''', by rw [List.length_cons]; omega⟩
    else .ok ⟨acc, t :: rest, by simp⟩
termination_by (ts.length, 0)

def unary (cx : Context) (ts : List Token) : Attempt (Parsed Formula ts.length) :=
  match ts with
  | [] => primary cx []
  | t :: rest =>
    if t.text = "~" ∨ t.text = "!" ∨ t.text = "not" then do
      let ⟨f, rest', h⟩ ← unary cx rest
      return ⟨.not f, rest', by rw [List.length_cons]; omega⟩
    else if t.text = "[]" ∨ t.text = "<>" then
      if cx.constraintOnly then .error (.unreadable (.temporalOperator t.text) t.offset)
      else do
        let ⟨w, rest', h⟩ ← window cx rest
        let ⟨f, rest'', h'⟩ ← unary cx rest'
        let g := if t.text = "[]" then Formula.always w f else .eventually w f
        return ⟨g, rest'', by rw [List.length_cons]; omega⟩
    else primary cx (t :: rest)
termination_by (ts.length, 4)

/-- Reads a constant, a proposition, a Boolean variable, a comparison or a formula in
parentheses. -/
def primary (cx : Context) (ts : List Token) : Attempt (Parsed Formula ts.length) :=
  match ts with
  | [] => (comparison cx []).map fun p => ⟨.atom p.value, p.rest, p.fewer⟩
  | t :: rest =>
    let decl := if t.kind = .ident then cx.scope.get? t.text else none
    if t.kind = .ident ∧ (t.text = "true" ∨ t.text = "false") then
      .ok ⟨.bool (t.text = "true"), rest, by simp⟩
    else if decl.any (·.isProp) then
      if cx.constraintOnly then .error (.unreadable (.proposition t.text) t.offset)
      else .ok ⟨.prop t.text, rest, by simp⟩
    else if decl.any (·.sort = .bool) ∧ ¬continuesComparison rest then
      (reference cx t rest).map fun p => ⟨.atom p.value, p.rest, p.fewer⟩
    else
      match comparison cx (t :: rest) with
      | .ok p => .ok ⟨.atom p.value, p.rest, p.fewer⟩
      | .error e =>
        if e.isFault ∨ t.text ≠ "(" then .error e
        else do
          let ⟨f, rest', h⟩ ← implication cx rest
          let ⟨_, rest'', h'⟩ ← expect cx ")" rest'
          return ⟨f, rest'', by rw [List.length_cons]; omega⟩
termination_by (ts.length, 3)

end

def finished {α : Type} {n : Nat} (cx : Context) (p : Parsed α n) : Attempt α :=
  match p.rest with
  | [] => .ok p.value
  | t :: rest => objection cx (t :: rest) (.unexpected t.text)

end Parser

mutual

def Formula.toConstraint : Formula → Attempt Term
  | .bool b => .ok (.bool b)
  | .atom c => .ok c
  | .not f => do return (← f.toConstraint).mkNot
  | .and fs => do return Term.mkAnd (← Formula.toConstraints fs)
  | .or fs => do return Term.mkOr (← Formula.toConstraints fs)
  | .implies l r => do return Term.mkImplies (← l.toConstraint) (← r.toConstraint)
  | f => .error (.notConstraint f.text)

def Formula.toConstraints : List Formula → Attempt (List Term)
  | [] => .ok []
  | f :: fs => do return (← f.toConstraint) :: (← Formula.toConstraints fs)

end

namespace Formula

def ofChars (scope : Scope) (cs : List Char) : Attempt Formula := do
  let cx : Parser.Context := ⟨scope, false, cs.length⟩
  Parser.finished cx (← Parser.implication cx (← Token.scan cs))

def ofText (scope : Scope) (s : String) : Attempt Formula := ofChars scope (byteChars s)

end Formula

namespace Term

/-- Reads a constraint from characters. A quote after a variable refers to its value after a
jump. -/
def constraintOfChars (scope : Scope) (cs : List Char) : Attempt Term := do
  let cx : Parser.Context := ⟨scope, true, cs.length⟩
  (← Parser.finished cx (← Parser.implication cx (← Token.scan cs))).toConstraint

def constraintOfText (scope : Scope) (s : String) : Attempt Term :=
  constraintOfChars scope (byteChars s)

def ofChars (scope : Scope) (cs : List Char) : Attempt Term := do
  let cx : Parser.Context := ⟨scope, true, cs.length⟩
  Parser.finished cx (← Parser.sum cx (← Token.scan cs))

def ofText (scope : Scope) (s : String) : Attempt Term := ofChars scope (byteChars s)

end Term

end HybridCheck
