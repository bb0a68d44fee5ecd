import HybridCheck.Formula.Parser
import HybridCheck.Term.Flow

/-!
# Hybrid automata

An automaton has continuous state variables, discrete mode variables, named propositions, an initial
condition, modes and jumps. A mode is told by a guard over the mode variables; in it the state
follows a flow while an invariant holds. A jump is taken at the end of a step: its guard is read
there, and its reset relates the values before and after.

`Automaton.ofDefinition` checks a definition: names are valid and declared once, every part is
Boolean and refers only to what is declared for its place, and every flow can be integrated. A
checked automaton lists its modes by increasing number.
-/

namespace HybridCheck

/-- A discrete location. -/
structure Mode where
  id : Int
  name : String
  /-- When the mode is active, in terms of the mode variables. -/
  guard : Term
  flow : Flow
  invariant : Term
  deriving Repr

/-- A discrete transition. -/
structure Jump where
  /-- When the jump may be taken, at the end of a step. -/
  guard : Term
  /-- How the values before the jump relate to those after it. -/
  reset : Term
  deriving Repr

/-- A mode as it is defined, parts that are left out being trivial. -/
structure ModeDef where
  id : Int
  name : String := ""
  guard : Option Term := none
  flow : Flow := ⟨⟨"", .bool, .logical⟩, [], []⟩
  invariant : Option Term := none
  deriving Repr

/-- A jump as it is defined, parts that are left out being trivial. -/
structure JumpDef where
  guard : Option Term := none
  reset : Option Term := none
  deriving Repr

def ModeDef.complete (m : ModeDef) : Mode where
  id := m.id
  name := if m.name = "" then "mode" ++ toString m.id else m.name
  guard := m.guard.getD .top
  flow := m.flow
  invariant := m.invariant.getD .top

def JumpDef.complete (j : JumpDef) : Jump where
  guard := j.guard.getD .top
  reset := j.reset.getD .top

structure Definition where
  stateVars : Table TermSort := []
  modeVars : Table TermSort := []
  props : Table Term := []
  init : Option Term := none
  modes : List ModeDef := []
  jumps : List JumpDef := []
  /-- A hint for the solver. -/
  logic : String := ""
  deriving Repr

/-- A checked hybrid automaton. -/
structure Automaton where
  stateVars : Table TermSort
  modeVars : Table TermSort
  props : Table Term
  init : Term
  modes : List Mode
  jumps : List Jump
  logic : String
  deriving Repr

/-- What a part of a definition may refer to. -/
structure Access where
  state : Bool := false
  mode : Bool := false
  postJump : Bool := false
  /-- The clock that may be used. -/
  clock : Option Var := none

namespace Definition

/-- The declared names with the word for what they are, in the order they are declared. -/
def declarations (d : Definition) : List (String × String) :=
  (d.stateVars.map fun e => (e.1, "variable")) ++
    (d.modeVars.map fun e => (e.1, "mode variable")) ++
    (d.props.map fun e => (e.1, "proposition"))

/-- Checks that names are valid and declared once. `seen` holds the earlier declarations. -/
def checkNames (seen : Table String) : List (String × String) → Attempt Unit
  | [] => .ok ()
  | (id, what) :: rest =>
    if !isIdentifier id then .error (.model (.badIdentifier what id))
    else
      match seen.get? id with
      | some first => .error (.model (.declaredTwice id first what))
      | none => checkNames (seen.put id what) rest

def sort? (d : Definition) (a : Access) (id : String) : Option TermSort :=
  (if a.state then d.stateVars.get? id else none).or (if a.mode then d.modeVars.get? id else none)

/-- What is wrong with one node of a term at the named place. -/
def nodeProblem? (d : Definition) (place : String) (a : Access) : Term → Option ModelProblem
  | .var v =>
    if a.clock = some v then none
    else
      match v.role with
      | .logical =>
        match d.sort? a v.name with
        | none => some (.undeclared place v.name)
        | some s => if s = v.sort then none else some (.wrongSort place v.name v.sort s)
      | .bound => none
      | r => some (.unexpectedVariable place r v.name)
  | .next v =>
    if !a.postJump then some (.postJumpNotAllowed place (v.name ++ "'"))
    else if (d.sort? { state := true, mode := true } v.name).isNone then
      some (.postJumpUndeclared place (v.name ++ "'"))
    else none
  | .integral _ | .throughout .. => some (.flowPrimitive place)
  | _ => none

def checkReferences (d : Definition) (place : String) (a : Access) (t : Term) : Attempt Unit :=
  match (t.nodes fun _ => true).findSome? (d.nodeProblem? place a) with
  | some p => .error (.model p)
  | none => .ok ()

def checkConstraint (d : Definition) (place : String) (a : Access) (t : Term) : Attempt Unit :=
  if t.sort ≠ .bool then .error (.model (.notBoolean place t.sort))
  else d.checkReferences place a t

/-- Checks one flow term after the other: identifiers of the automaton and the clock of the mode. -/
def checkFlowTerms (d : Definition) (place : String) (flow : Flow) : List String → Attempt Unit
  | [] => .ok ()
  | id :: ids => do
    let t := (Table.get? flow.rates id).or (Table.get? flow.solution id)
    d.checkReferences (place ++ " flow of " ++ id)
      { state := true, mode := true, clock := some flow.clock } (t.getD .top)
    d.checkFlowTerms place flow ids

def checkMode (d : Definition) (m : ModeDef) : Attempt Mode := do
  let mode := m.complete
  let place := "mode " ++ mode.name
  d.checkConstraint (place ++ " guard") { mode := true } mode.guard
  d.checkConstraint (place ++ " invariant") { state := true, mode := true, postJump := true }
    mode.invariant
  match mode.flow.problem? d.stateVars with
  | some p => .error (.modelPart place (.flow p))
  | none =>
    d.checkFlowTerms place mode.flow mode.flow.flowing
    return mode

/-- Checks modes one after the other. `seen` holds the earlier numbers. -/
def checkModes (d : Definition) (seen : List Int) : List ModeDef → Attempt (List Mode)
  | [] => .ok []
  | m :: ms =>
    if m.id ∈ seen then .error (.model (.duplicateMode m.id))
    else do return (← d.checkMode m) :: (← d.checkModes (m.id :: seen) ms)

def checkJumps (d : Definition) (i : Nat) : List JumpDef → Attempt (List Jump)
  | [] => .ok []
  | j :: js => do
    let place := "jump " ++ toString i
    let jump := j.complete
    d.checkConstraint (place ++ " guard") { state := true, mode := true } jump.guard
    d.checkConstraint (place ++ " reset") { state := true, mode := true, postJump := true }
      jump.reset
    return jump :: (← d.checkJumps (i + 1) js)

def checkProps (d : Definition) : Table Term → Attempt Unit
  | [] => .ok ()
  | (id, t) :: rest => do
    d.checkConstraint ("proposition " ++ id) { state := true, mode := true } t
    d.checkProps rest

end Definition

/-- The first position from `lo` on, and before `hi`, that passes a test which all later ones pass
with it, and `hi` if none does. The range is halved at every step. -/
def bisect (test : Nat → Bool) (lo hi : Nat) : Nat :=
  if lo < hi then
    if test ((lo + hi) / 2) then bisect test lo ((lo + hi) / 2)
    else bisect test ((lo + hi) / 2 + 1) hi
  else lo
termination_by hi - lo

namespace Automaton

/-- Checks a definition and builds the automaton. -/
def ofDefinition (d : Definition) : Attempt Automaton := do
  Definition.checkNames [] d.declarations
  let init := d.init.getD .top
  d.checkConstraint "init" { state := true, mode := true } init
  d.checkProps d.props
  if d.modes.isEmpty then throw (.model .noModes)
  let modes ← d.checkModes [] d.modes
  let jumps ← d.checkJumps 0 d.jumps
  return {
    stateVars := d.stateVars
    modeVars := d.modeVars
    props := d.props
    init
    modes := modes.mergeSort fun a b => a.id ≤ b.id
    jumps
    logic := d.logic }

/-- What an automaton has declared, as a definition to check further constraints against. -/
def declared (m : Automaton) : Definition :=
  { stateVars := m.stateVars, modeVars := m.modeVars, props := m.props }

/-- The mode with a given number. Modes are listed by increasing number. -/
def mode (m : Automaton) (id : Int) : Attempt Mode :=
  match m.modes[bisect (fun i => m.modes[i]?.any (id ≤ ·.id)) 0 m.modes.length]? with
  | some md => if md.id = id then .ok md else .error (.unknownMode id)
  | none => .error (.unknownMode id)

/-- The identifiers of an automaton as names for formula text. -/
def scope (m : Automaton) : Scope :=
  Table.ofEntries ((m.stateVars.map fun e => (e.1, { sort := e.2 })) ++
    (m.modeVars.map fun e => (e.1, { sort := e.2 })) ++
    (m.props.map fun e => (e.1, { sort := .bool, isProp := true })))

end Automaton

end HybridCheck
