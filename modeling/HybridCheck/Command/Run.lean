import HybridCheck.Automaton.Reach
import HybridCheck.Command.Invocation
import HybridCheck.ModelFile.Builtin
import HybridCheck.Search.Basic
import HybridCheck.Search.Counterexample

/-!
# Running the commands

A command loads its model, checks what it was asked, opens the file for solver queries if one is
wanted, and works. All of it is pure except reading a model file and creating the dump, which the
caller supplies.
-/

namespace HybridCheck.Command

open Text (quote)

/-- What a command has written, and why it failed if it did. -/
structure Output where
  stdout : String := ""
  stderr : String := ""
  failure : Option Failure := none

/-- How a command reads a file and creates one. -/
structure Files (m : Type → Type) where
  read : String → m (Attempt String)
  create : String → m (Attempt Unit)

/-! ## Log lines -/

/-- The value of a log field: quoted text, or a number as it is. -/
inductive Field where
  | text (s : String)
  | number (s : String)

def logLine (msg : String) (fields : List (String × Field)) : String :=
  "\"level\"=1 \"msg\"=" ++ quote msg ++
    String.join (fields.map fun (k, v) =>
      " " ++ quote k ++ "=" ++
        match v with
        | .text s => quote s
        | .number s => s) ++ "\n"

def searchLog (o : Options) (property : String) (r : Run) : String :=
  let number (n : Int) : Field := .number (toString n)
  logLine "checking" [("property", .text property), ("bound", number o.bound),
      ("timeBound", .number o.timeBound.text)] ++
    String.join (r.trail.map fun e =>
      match e.outcome with
      | .error _ => ""
      | .ok out =>
        logLine "bound checked" ([("bound", number e.bound), ("result", .text out.answer.text),
          ("size", number out.size), ("encode", .text "0s"), ("solve", .text "0s")] ++
          (if out.answer = .unknown then [("reason", .text out.reason)] else []))) ++
    (if r.failure.isSome then ""
     else logLine "model checking finished" [("property", .text property),
      ("verdict", .text r.report.verdict.text), ("bound", number r.report.bound),
      ("elapsed", .text "0s")])

/-! ## Checking -/

def Options.settings (o : Options) : Search.Settings where
  maxBound := o.bound
  timeBound := o.timeBound.timeBound
  iterative := o.iterative
  workers := o.workers

/-- The text about one property: its report and, if wanted, the counterexample. -/
def propertyText (property : String) (r : Report) (counterexample : Bool) : Attempt String := do
  let trace ←
    if counterexample && r.verdict = .violated then
      (Counterexample.write (r.counterexample.getD []) r.bound).map ("counterexample:\n" ++ ·)
    else .ok ""
  return "property: " ++ property ++ "\n" ++ r.text ++ trace ++ "\n"

def checkAll (m : Automaton) (o : Options) (counterexample : Bool) (out : Output) :
    List String → Output
  | [] => out
  | p :: ps =>
    let r := Search.run m m.encoder (Solver.builtin true) o.settings p
    let log := if o.verbose < 1 then "" else searchLog o p r
    let out := { out with stderr := out.stderr ++ log }
    match r.failure with
    | some e => { out with failure := some (e.wrap (.forProperty p)) }
    | none =>
      match propertyText p r.report counterexample with
      | .error e => { out with failure := some e }
      | .ok text => checkAll m o counterexample { out with stdout := out.stdout ++ text } ps

/-! ## Listing -/

def modelsText : String :=
  String.join (ModelFile.builtins.map fun (name, f) =>
    name ++ ": " ++ f.description ++ "\n" ++
      String.join (f.properties.map fun p => "    " ++ p ++ "\n"))

def usage : String :=
  "Bounded model checking of hybrid automata against STL properties\n\nUsage:\n" ++
    "  stlmc check [property]...\n  stlmc reach\n  stlmc models\n"

/-! ## Commands -/

section

variable {m : Type → Type} [Monad m]

/-- A step that needs no files. -/
def purely {α : Type} (a : Attempt α) : ExceptT Failure m α := ExceptT.mk (pure a)

def loadModel (files : Files m) (o : Options) : ExceptT Failure m (Automaton × ModelFile) := do
  if ModelFile.builtinNames.contains o.model then
    purely (ModelFile.loadBuiltin o.model)
  else
    let text ← ExceptT.mk (files.read o.model)
    purely (ModelFile.load text)

def openDump (files : Files m) (o : Options) : ExceptT Failure m Unit := do
  if o.dump != "" then ExceptT.mk (files.create o.dump)

def carryOut (files : Files m) : Invocation → ExceptT Failure m Output
  | .help => return { stdout := usage }
  | .models _ => return { stdout := modelsText }
  | .check o properties all counterexample => do
    let (automaton, file) ← loadModel files o
    let properties := if all then properties ++ file.properties else properties
    if properties.isEmpty then throw (.reported "no property given")
    openDump files o
    return checkAll automaton o counterexample {} properties
  | .reach o goal => do
    let (automaton, _) ← loadModel files o
    let goal ← purely (Term.constraintOfText automaton.scope goal)
    openDump files o
    let answer ← purely (automaton.reach (Solver.builtin true) o.bound goal)
    return { stdout := answer.text ++ "\n" }

/-- Runs the program on its arguments. A failure is also reported at the end of the log, and a
mistaken name of a command is followed by a hint. -/
def run (files : Files m) (args : List String) : m Output := do
  let work : ExceptT Failure m Output := do carryOut files (← purely (Invocation.ofArgs args))
  let result ← work.run
  let out : Output :=
    match result with
    | .ok out => out
    | .error e => { failure := some e }
  match out.failure with
  | none => return out
  | some e =>
    let hint :=
      if (unknownCommand? args).isSome then "Run 'stlmc --help' for usage.\n" else ""
    return { out with stderr := out.stderr ++ "Error: " ++ e.message ++ "\n" ++ hint }

end

end HybridCheck.Command
