import HybridCheck.Command.Flags
import HybridCheck.Failure
import HybridCheck.Text.Likeness

/-!
# Invocations

The program has three commands: check properties, ask for reachability, and list the built-in
models. The first plain argument names the command; flags may stand before it. The options of a
search are shared by all commands.
-/

namespace HybridCheck.Command

open Text (quote)

structure Options where
  model : String := "linear"
  verbose : Int := 0
  /-- The file that solver queries are written to, none if empty. -/
  dump : String := ""
  workers : Int := 1
  bound : Int := 2
  timeBound : Rational.Binary64 := .finite false 0 (-1074)
  iterative : Bool := true
  deriving Repr

/-- What the program is asked to do. -/
inductive Invocation where
  | check (o : Options) (properties : List String) (all counterexample : Bool)
  | reach (o : Options) (goal : String)
  | models (o : Options)
  | help
  deriving Repr

def sharedFlags : List Flag :=
  [{ name := "model", letter := some 'm', kind := .text },
    { name := "verbose", letter := some 'v', kind := .integer },
    { name := "timeout", kind := .duration },
    { name := "smt2", kind := .text },
    { name := "z3", kind := .pairs },
    { name := "workers", letter := some 'j', kind := .integer },
    { name := "bound", letter := some 'b', kind := .integer },
    { name := "time-bound", letter := some 't', kind := .decimal },
    { name := "iterative", kind := .switch }]

/-- The switch that asks for help. It is not looked for until the command is known. -/
def helpFlag : Flag := { name := "help", letter := some 'h', kind := .switch }

def checkFlags : List Flag :=
  [{ name := "all", kind := .switch },
    { name := "counterexample", letter := some 'c', kind := .switch }]

def reachFlags : List Flag := [{ name := "goal", letter := some 'g', kind := .text }]

def takesNext (a : String) : Bool :=
  match a.toList with
  | '-' :: '-' :: cs =>
    !cs.contains '=' && !sharedFlags.any fun f => f.name = .ofList cs && f.kind = .switch
  | ['-', c] =>
    c != '=' && c.utf8Size = 1 &&
      !sharedFlags.any fun f => f.letter = some c && f.kind = .switch
  | _ => false

/-- Splits arguments at the name of the command: the name, and the arguments without it. -/
def splitCommand (before : List String) : List String → Option (String × List String)
  | [] => none
  | a :: rest =>
    if a = "--" then none
    else if takesNext a then
      match rest with
      | v :: w :: rest => splitCommand (before ++ [a, v]) (w :: rest)
      | _ => none
    else if a != "" && !"-".isPrefixOf a then some (a, before ++ rest)
    else splitCommand (before ++ [a]) rest

def Parsed.integer (p : Parsed) (name : String) (default : Int) : Int :=
  match (p.value? name).map readInteger with
  | some (.ok n) => n
  | _ => default

def Parsed.switch (p : Parsed) (name : String) (default : Bool) : Bool :=
  match (p.value? name).map readSwitch with
  | some (.ok b) => b
  | _ => default

def Options.ofParsed (p : Parsed) : Options where
  model := (p.value? "model").getD "linear"
  verbose := p.integer "verbose" 0
  dump := (p.value? "smt2").getD ""
  workers := p.integer "workers" 1
  bound := p.integer "bound" 2
  timeBound :=
    match (p.value? "time-bound").map readDecimal with
    | some (.ok x) => x
    | _ => .finite false 0 (-1074)
  iterative := p.switch "iterative" true

def parseFlags (flags : List Flag) (args : List String) : Attempt Parsed :=
  match readArgs (flags ++ [helpFlag]) {} args with
  | .ok p => .ok p
  | .error why => .error (.reported why)

def noArgs (command : String) (p : Parsed) : Attempt Unit :=
  match p.plain with
  | [] => .ok ()
  | a :: _ =>
    .error (.reported ("unknown command " ++ quote a ++ " for " ++ quote ("stlmc " ++ command)))

/-- The commands that a mistyped name may have meant, as a question. -/
def suggestions (name : String) : String :=
  match ["check", "reach", "models", "completion"].filter (Text.isLike name) with
  | [] => ""
  | words => "\n\nDid you mean this?\n" ++ String.join (words.map fun w => "\t" ++ w ++ "\n")

/-- Reads the arguments of a command. All but three only explain the program. -/
def ofCommand (name : String) (args : List String) : Attempt Invocation := do
  if name = "check" then
    let p ← parseFlags (sharedFlags ++ checkFlags) args
    if p.switch "help" false then return .help
    return .check (.ofParsed p) p.plain (p.switch "all" false) (p.switch "counterexample" false)
  else if name = "reach" then
    let p ← parseFlags (sharedFlags ++ reachFlags) args
    if p.switch "help" false then return .help
    noArgs name p
    match p.value? "goal" with
    | none => throw (.reported ("required flag(s) " ++ quote "goal" ++ " not set"))
    | some goal => return .reach (.ofParsed p) goal
  else if name = "models" then
    let p ← parseFlags sharedFlags args
    if p.switch "help" false then return .help
    noArgs name p
    return .models (.ofParsed p)
  else
    let _ ← parseFlags sharedFlags args
    return .help

def commandNames : List String := ["check", "reach", "models", "help", "completion"]

/-- The name in the arguments that should be that of a command and is not. -/
def unknownCommand? (args : List String) : Option String :=
  match splitCommand [] args with
  | some (name, _) => if commandNames.contains name then none else some name
  | none => none

/-- Reads the arguments of the program. Without a command it is asked for help. -/
def Invocation.ofArgs (args : List String) : Attempt Invocation :=
  match unknownCommand? args, splitCommand [] args with
  | some name, _ =>
    .error (.reported
      ("unknown command " ++ quote name ++ " for " ++ quote "stlmc" ++ suggestions name))
  | none, some (name, args) => ofCommand name args
  | none, none => ofCommand "help" args

end HybridCheck.Command
