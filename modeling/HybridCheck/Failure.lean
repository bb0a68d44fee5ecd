import HybridCheck.Kind
import HybridCheck.Text.Quoted

/-!
# Failures

Everything that can go wrong is a cause with one wording. A failure that passes through a stage is
wrapped by that stage, and `Failure.isA` tells which of the public categories hold of it: wrapping
adds a category and keeps those of the cause.

A fault is different. It is not a report about the input but a step for which there is no answer at
all, such as adding a Boolean constant to a number. Faults are never wrapped and never caught.
-/

namespace HybridCheck

open Text (quote quoteChar)

/-- A step without an answer. -/
inductive Fault where
  /-- Arithmetic read the number of a Boolean constant. -/
  | booleanOperand
  /-- An operator was rebuilt from an operand that could not be expanded. -/
  | missingOperand
  /-- A formula with a missing part was written out. -/
  | missingFormula
  /-- A phase that is neither entry nor exit. -/
  | invalidPhase (code : Int)
  /-- A fraction with denominator zero. -/
  | divisionByZero
  /-- A list of negative length was asked for. -/
  | negativeLength
  /-- An operator with a negative code was named. -/
  | negativeOperator
  deriving DecidableEq, Repr

def Fault.message? : Fault → Option String
  | .invalidPhase n => some ("rename: invalid phase " ++ toString n)
  | .divisionByZero => some "division by zero"
  | _ => none

/-- Dynamics that cannot be integrated exactly. -/
inductive FlowProblem where
  | noClock
  | badClock (name : String)
  | notState (id : String)
  | notReal (id : String) (sort : TermSort)
  | rateAndSolution (id : String)
  | rateOnClock (id : String)
  | rateOnFlowing (id flowing : String)
  deriving DecidableEq, Repr

def FlowProblem.message : FlowProblem → String
  | noClock => "flow has no clock"
  | badClock name => "clock " ++ name ++ " must be a real bound variable"
  | notState id => id ++ " is not a state variable"
  | notReal id s => id ++ " has sort " ++ s.text ++ ", flows need Real"
  | rateAndSolution id => id ++ " has both a rate and a solution"
  | rateOnClock id => "rate of " ++ id ++ " depends on the clock"
  | rateOnFlowing id x => "rate of " ++ id ++ " depends on flowing variable " ++ x

/-- What a reader of formula text objects to. -/
inductive ParseProblem where
  | unexpectedChar (c : Char)
  | unexpected (found : String)
  | expected (wanted found : String)
  | expectedInterval (found : String)
  | expectedWindowEnd (found : String)
  | emptyInterval (window : String)
  | expectedBound (found : String)
  | invalidNumber (text : String)
  | temporalOperator (op : String)
  | proposition (name : String)
  | expectedComparison (found : String)
  | booleanOperands (op : String)
  | expectedExpression (found : String)
  | undeclared (name : String)
  | postJump (name : String)
  deriving DecidableEq, Repr

def invalidNumberMessage (text : String) : String := "invalid number " ++ quote text

def ParseProblem.message : ParseProblem → String
  | unexpectedChar c => "unexpected " ++ quoteChar c
  | unexpected found => "unexpected " ++ quote found
  | expected wanted found => "expected " ++ quote wanted ++ ", found " ++ quote found
  | expectedInterval found => "expected an interval, found " ++ quote found
  | expectedWindowEnd found => "expected ']' or ')', found " ++ quote found
  | emptyInterval w => "empty interval " ++ w
  | expectedBound found => "expected a time bound, found " ++ quote found
  | invalidNumber text => invalidNumberMessage text
  | temporalOperator op => "temporal operator " ++ op ++ " in a constraint"
  | proposition name => "proposition " ++ name ++ " in a constraint"
  | expectedComparison found => "expected a comparison, found " ++ quote found
  | booleanOperands op => op ++ " on Boolean operands"
  | expectedExpression found => "expected an expression, found " ++ quote found
  | undeclared name => "undeclared variable " ++ name
  | postJump name => "post-jump reference " ++ name ++ "' in a formula"

/-- What makes the description of an automaton invalid. `place` names the part concerned. -/
inductive ModelProblem where
  | badIdentifier (what id : String)
  | declaredTwice (id first second : String)
  | notBoolean (place : String) (sort : TermSort)
  | unexpectedVariable (place : String) (role : Role) (name : String)
  | undeclared (place name : String)
  | wrongSort (place name : String) (sort declared : TermSort)
  | postJumpNotAllowed (place reference : String)
  | postJumpUndeclared (place reference : String)
  | flowPrimitive (place : String)
  | noModes
  | duplicateMode (id : Int)
  | emptyDefinition (place : String)
  deriving DecidableEq, Repr

def ModelProblem.message : ModelProblem → String
  | badIdentifier what id => what ++ " " ++ quote id ++ " is not a valid identifier"
  | declaredTwice id a b => quote id ++ " declared as both " ++ a ++ " and " ++ b
  | notBoolean place s => place ++ ": expected a Bool constraint, got " ++ s.text
  | unexpectedVariable place r name => place ++ ": unexpected " ++ r.text ++ " variable " ++ name
  | undeclared place name => place ++ ": " ++ name ++ " is not declared here"
  | wrongSort place name s d =>
    place ++ ": " ++ name ++ " has sort " ++ s.text ++ ", declared " ++ d.text
  | postJumpNotAllowed place r => place ++ ": post-jump reference " ++ r ++ " not allowed"
  | postJumpUndeclared place r => place ++ ": " ++ r ++ " is not declared"
  | flowPrimitive place => place ++ ": flow primitives are built by the encoder"
  | noModes => "no modes"
  | duplicateMode id => "duplicate mode id " ++ toString id
  | emptyDefinition place => place ++ ": empty definition"

/-- Why a separated formula has no value. -/
inductive EncodingProblem where
  | missingAtom (key : String)
  | witnessedOver (window : String)
  | unexpectedPart (kind : String)
  | noSubformula (witness : String)
  | standsFor (witness formula : String)
  deriving DecidableEq, Repr

def EncodingProblem.message : EncodingProblem → String
  | missingAtom key => "atom " ++ key ++ " missing from the base valuation"
  | witnessedOver w => "witnessed formula valued over " ++ w
  | unexpectedPart kind => "unexpected " ++ kind
  | noSubformula w => "witness " ++ w ++ " has no subformula"
  | standsFor w f => "witness " ++ w ++ " stands for " ++ f

/-- The categories of failure that callers tell apart, in the order they are listed in. -/
inductive Category where
  | preparation
  | solver
  | invalidModel
  | unknownMode
  | unknownProposition
  | encoding
  | unsupportedFlow
  | unreadable
  | unavailable
  | canceled
  deriving DecidableEq, Repr

def Category.all : List Category :=
  [preparation, solver, invalidModel, unknownMode, unknownProposition, encoding, unsupportedFlow,
    unreadable, unavailable, canceled]

/-- A failed step: a fault, a cause, or a cause with the stage it passed through. -/
inductive Failure where
  | fault (f : Fault)
  | invalidNumber (text : String)
  | unknownSort (name : String)
  | flow (p : FlowProblem)
  /-- An integral has an exit value for a variable without entry value. -/
  | exitWithoutEntry (id : String)
  | unreadable (p : ParseProblem) (offset : Nat)
  /-- A formula that is no constraint was given for one. -/
  | notConstraint (formula : String)
  /-- A formula has a part that may not occur in it before separation. -/
  | unexpectedPart (kind : String)
  | encoding (p : EncodingProblem)
  | model (p : ModelProblem)
  /-- A part of a model file is at fault for the given cause. -/
  | modelPart (place : String) (cause : Failure)
  /-- A model file is not of the right shape. -/
  | undecodable
  | unknownMode (id : Int)
  | unknownProposition (name : String)
  | unknownBuiltin (name : String) (known : List String)
  | inMode (name : String) (cause : Failure)
  | negativeBound (bound : Int)
  | property (cause : Failure)
  | preparation (bound : Int) (stage : String) (cause : Failure)
  | solver (bound : Int) (cause : Failure)
  | reach (bound : Int) (cause : Failure)
  | constraint (index : Nat) (cause : Failure)
  | unavailable
  | canceled
  /-- Text reported from outside: by a solver, or by the command line about its arguments. -/
  | reported (text : String)
  /-- A cause met while working for the named property. -/
  | forProperty (text : String) (cause : Failure)
  deriving DecidableEq, Repr

namespace Failure

/-- The wording of a failure. A fault without wording and an undecodable file have none. -/
def message : Failure → String
  | fault f => f.message?.getD ""
  | invalidNumber text => invalidNumberMessage text
  | unknownSort name => "unknown sort " ++ quote name
  | flow p => "unsupported flow: " ++ p.message
  | exitWithoutEntry id => "integral: " ++ id ++ " has an exit value but no entry value"
  | unreadable p offset => "syntax error: " ++ p.message ++ " at offset " ++ toString offset
  | notConstraint f => "syntax error: " ++ f ++ " is not allowed in a constraint"
  | unexpectedPart kind => "unexpected " ++ kind ++ " in formula"
  | encoding p => "encoding: " ++ p.message
  | model p => "invalid model: " ++ p.message
  | modelPart place cause => "invalid model: " ++ place ++ ": " ++ cause.message
  | undecodable => "invalid model: the file cannot be decoded"
  | unknownMode id => "unknown mode: " ++ toString id
  | unknownProposition name => "unknown proposition: " ++ name
  | unknownBuiltin name names =>
    "unknown built-in model " ++ quote name ++ " (have " ++ ", ".intercalate names ++ ")"
  | inMode name cause => "mode " ++ name ++ ": " ++ cause.message
  | negativeBound n => "translation failed: negative bound " ++ toString n
  | property cause => "translation failed: " ++ cause.message
  | preparation n stage cause =>
    "translation failed: bound " ++ toString n ++ ": " ++ stage ++ ": " ++ cause.message
  | solver n cause => "solver failed: bound " ++ toString n ++ ": " ++ cause.message
  | reach n cause => "reach bound " ++ toString n ++ ": " ++ cause.message
  | constraint i cause => "constraint " ++ toString i ++ ": " ++ cause.message
  | unavailable => "smt: z3 backend unavailable (built without cgo)"
  | canceled => "context canceled"
  | reported text => text
  | forProperty text cause => text ++ ": " ++ cause.message

/-- Whether a failure belongs to a category, itself or through its cause. -/
def isA (c : Category) : Failure → Bool
  | flow _ => c = .unsupportedFlow
  | unreadable .. => c = .unreadable
  | notConstraint _ => c = .unreadable
  | encoding _ => c = .encoding
  | model _ => c = .invalidModel
  | modelPart _ cause => c = .invalidModel || cause.isA c
  | undecodable => c = .invalidModel
  | unknownMode _ => c = .unknownMode
  | unknownProposition _ => c = .unknownProposition
  | inMode _ cause => cause.isA c
  | negativeBound _ => c = .preparation
  | property cause => c = .preparation || cause.isA c
  | preparation _ _ cause => c = .preparation || cause.isA c
  | solver _ cause => c = .solver || cause.isA c
  | reach _ cause => cause.isA c
  | constraint _ cause => cause.isA c
  | unavailable => c = .unavailable
  | canceled => c = .canceled
  | forProperty _ cause => cause.isA c
  | fault _ | invalidNumber _ | unknownSort _ | exitWithoutEntry _ | unexpectedPart _
  | unknownBuiltin .. | reported _ => false

def categories (e : Failure) : List Category := Category.all.filter fun c => e.isA c

def isFault : Failure → Bool
  | fault _ => true
  | _ => false

/-- Wraps a cause and passes a fault through. -/
def wrap (stage : Failure → Failure) : Failure → Failure
  | fault f => fault f
  | cause => stage cause

end Failure

/-- A step that may fail. -/
abbrev Attempt (α : Type) := Except Failure α

namespace Attempt

variable {α : Type}

def within (stage : Failure → Failure) : Attempt α → Attempt α
  | .ok a => .ok a
  | .error e => .error (e.wrap stage)

@[simp] theorem within_ok (stage : Failure → Failure) (a : α) :
    within stage (.ok a) = .ok a := rfl

@[simp] theorem within_fault (stage : Failure → Failure) (f : Fault) :
    within stage (.error (.fault f) : Attempt α) = .error (.fault f) := rfl

end Attempt

end HybridCheck
