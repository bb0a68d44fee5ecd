import HybridCheck.Automaton.Basic
import HybridCheck.ModelFile.Json
import HybridCheck.Text.Integer

/-!
# Model files

A model file declares sorts by name, writes every constraint as formula text, and gives each mode a
flow by rates or by solutions over the clock of the mode.

Decoding follows the members of an object in order. Names match without regard to case and unknown
names are refused. A null leaves a text or number as it was and empties a table or list. Repeated
tables are merged, and a repeated list is decoded over the elements that are already there. A list
that becomes shorter keeps its further elements in reserve, for another one that is longer again.
-/

namespace HybridCheck

structure ModeFile where
  id : Int := 0
  name : String := ""
  guard : String := ""
  clock : String := ""
  rates : Table String := []
  solution : Table String := []
  invariant : String := ""
  deriving Repr

structure JumpFile where
  guard : String := ""
  reset : String := ""
  deriving Repr

structure ModelFile where
  name : String := ""
  description : String := ""
  logic : String := ""
  stateVars : Table String := []
  modeVariables : Table String := []
  propositions : Table String := []
  init : String := ""
  modes : List ModeFile := []
  jumps : List JumpFile := []
  /-- Example properties shipped with the model. -/
  properties : List String := []
  deriving Repr

/-! ## Decoding -/

namespace Json

/-- The form of a name by which members are told apart: letters in lower case, with the two
non-ASCII letters that fold to ASCII ones. -/
def foldName (s : String) : String :=
  s.map fun c => if c.toNat = 0x17F then 's' else if c.toNat = 0x212A then 'k' else c.toLower

def decodeText (old : String) : Json → Option String
  | null => some old
  | string s => some s
  | _ => none

def decodeInt (old : Int) : Json → Option Int
  | null => some old
  | number literal => Text.readInt? literal
  | _ => none

/-- A table of texts, merged into the one that was there. -/
def decodeTable (old : Table String) : Json → Option (Table String)
  | null => some []
  | object members =>
    members.foldlM (fun t m => do return t.put m.1 (← decodeText "" m.2)) old
  | _ => none

/-- The items of a list, each decoded over the element that was there or over an empty one. -/
def decodeItems {α : Type} (item : α → Json → Option α) (empty : α) :
    List α → List Json → Option (List α)
  | _, [] => some []
  | old, v :: vs => do
    let x ← item (old.head?.getD empty) v
    return x :: (← decodeItems item empty old.tail vs)

/-- A list and its reserve, decoded over those that were there. An empty list has no reserve. -/
def decodeList {α : Type} (item : α → Json → Option α) (empty : α) (old reserve : List α) :
    Json → Option (List α × List α)
  | null | array [] => some ([], [])
  | array items => do
    let xs ← decodeItems item empty (old ++ reserve) items
    return (xs, (old ++ reserve).drop xs.length)
  | _ => none

/-- A record, decoded member by member over the one that was there. -/
def decodeRecord {α : Type} (member : α → String → Json → Option α) (old : α) : Json → Option α
  | null => some old
  | object members => members.foldlM (fun r m => member r (foldName m.1) m.2) old
  | _ => none

end Json

open Json in
def ModeFile.member (m : ModeFile) (name : String) (v : Json) : Option ModeFile :=
  match name with
  | "id" => (decodeInt m.id v).map fun x => { m with id := x }
  | "name" => (decodeText m.name v).map fun x => { m with name := x }
  | "guard" => (decodeText m.guard v).map fun x => { m with guard := x }
  | "clock" => (decodeText m.clock v).map fun x => { m with clock := x }
  | "rates" => (decodeTable m.rates v).map fun x => { m with rates := x }
  | "solution" => (decodeTable m.solution v).map fun x => { m with solution := x }
  | "invariant" => (decodeText m.invariant v).map fun x => { m with invariant := x }
  | _ => none

open Json in
def JumpFile.member (j : JumpFile) (name : String) (v : Json) : Option JumpFile :=
  match name with
  | "guard" => (decodeText j.guard v).map fun x => { j with guard := x }
  | "reset" => (decodeText j.reset v).map fun x => { j with reset := x }
  | _ => none

namespace ModelFile

/-- A model file that is being decoded, with the reserves of its lists. -/
structure Draft where
  file : ModelFile := {}
  modes : List ModeFile := []
  jumps : List JumpFile := []
  properties : List String := []

open Json in
/-- One member of a model file that is no list. -/
def member (f : ModelFile) (name : String) (v : Json) : Option ModelFile :=
  match name with
  | "name" => (decodeText f.name v).map fun x => { f with name := x }
  | "description" => (decodeText f.description v).map fun x => { f with description := x }
  | "logic" => (decodeText f.logic v).map fun x => { f with logic := x }
  | "variables" => (decodeTable f.stateVars v).map fun x => { f with stateVars := x }
  | "modevariables" => (decodeTable f.modeVariables v).map fun x => { f with modeVariables := x }
  | "propositions" => (decodeTable f.propositions v).map fun x => { f with propositions := x }
  | "init" => (decodeText f.init v).map fun x => { f with init := x }
  | _ => none

open Json in
def Draft.member (d : Draft) (name : String) (v : Json) : Option Draft :=
  match name with
  | "modes" =>
    (decodeList (decodeRecord ModeFile.member) {} d.file.modes d.modes v).map fun (xs, reserve) =>
      { d with file := { d.file with modes := xs }, modes := reserve }
  | "jumps" =>
    (decodeList (decodeRecord JumpFile.member) {} d.file.jumps d.jumps v).map fun (xs, reserve) =>
      { d with file := { d.file with jumps := xs }, jumps := reserve }
  | "properties" =>
    (decodeList decodeText "" d.file.properties d.properties v).map fun (xs, reserve) =>
      { d with file := { d.file with properties := xs }, properties := reserve }
  | name => (d.file.member name v).map fun f => { d with file := f }

def decode (text : String) : Attempt ModelFile :=
  match (Json.ofText? text).bind (Json.decodeRecord Draft.member {}) with
  | some d => .ok d.file
  | none => .error .undecodable

/-! ## Building the automaton -/

def sorts : Table String → Attempt (Table TermSort)
  | [] => .ok []
  | (id, name) :: rest =>
    match TermSort.ofName? name with
    | none => .error (.modelPart id (.unknownSort name))
    | some s => do return (id, s) :: (← sorts rest)

def constraint? (place text : String) (scope : Scope) : Attempt (Option Term) :=
  if text = "" then .ok none
  else do return some (← Attempt.within (.modelPart place) (Term.constraintOfText scope text))

def expressions (place : String) (scope : Scope) : Table String → Attempt (Table Term)
  | [] => .ok []
  | (id, text) :: rest => do
    let t ← Attempt.within (.modelPart (place ++ " of " ++ id)) (Term.ofText scope text)
    return (id, t) :: (← expressions place scope rest)

def definitions (scope : Scope) : Table String → Attempt (Table Term)
  | [] => .ok []
  | (id, text) :: rest => do
    let place := "proposition " ++ id
    match ← constraint? place text scope with
    | none => throw (.model (.emptyDefinition place))
    | some t => return (id, t) :: (← definitions scope rest)

/-- The definition of a mode. A mode without clock is left for the automaton to refuse. -/
def modeDef (scope : Scope) (m : ModeFile) : Attempt ModeDef := do
  let place := if m.name = "" then "mode " ++ toString m.id else "mode " ++ m.name
  let guard ← constraint? (place ++ " guard") m.guard scope
  let invariant ← constraint? (place ++ " invariant") m.invariant scope
  let (clock, flowScope) : Var × Scope :=
    if m.clock = "" then (⟨"", .bool, .logical⟩, scope)
    else (⟨m.clock, .real, .bound⟩, scope.put m.clock { sort := .real, role := .bound })
  let rates ← expressions (place ++ " rate") scope m.rates
  let solution ← expressions (place ++ " solution") flowScope m.solution
  return { id := m.id, name := m.name, guard, flow := ⟨clock, rates, solution⟩, invariant }

def jumpDefs (scope : Scope) (i : Nat) : List JumpFile → Attempt (List JumpDef)
  | [] => .ok []
  | j :: js => do
    let place := "jump " ++ toString i
    let guard ← constraint? (place ++ " guard") j.guard scope
    let reset ← constraint? (place ++ " reset") j.reset scope
    return { guard, reset } :: (← jumpDefs scope (i + 1) js)

/-- Reads every constraint of a model file. -/
def definition (f : ModelFile) : Attempt Definition := do
  let stateVars ← sorts f.stateVars
  let modeVars ← sorts f.modeVariables
  let scope : Scope :=
    Table.ofEntries ((stateVars ++ modeVars).map fun e => (e.1, { sort := e.2 }))
  let props ← definitions scope f.propositions
  let init ← constraint? "init" f.init scope
  let modes ← f.modes.mapM (modeDef scope)
  let jumps ← jumpDefs scope 0 f.jumps
  return { stateVars, modeVars, props, init, modes, jumps, logic := f.logic }

def build (f : ModelFile) : Attempt Automaton := do
  Automaton.ofDefinition (← f.definition)

def load (text : String) : Attempt (Automaton × ModelFile) := do
  let f ← decode text
  return (← f.build, f)

end ModelFile

end HybridCheck
