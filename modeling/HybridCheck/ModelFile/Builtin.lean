import HybridCheck.ModelFile.Basic

/-!
# Built-in models

Three small models come with the library: a variable that grows linearly, a thermostat, and a water
tank whose flows are given by solutions.
-/

namespace HybridCheck.ModelFile

/-- A variable growing at rate one. -/
def linear : ModelFile where
  name := "linear"
  description := "x grows at rate 1 from 0 and never exceeds 10"
  logic := "LRA"
  stateVars := [("x", "real")]
  propositions := [("low", "x <= 5")]
  init := "x == 0"
  modes := [
    { id := 0, name := "grow", clock := "t", rates := [("x", "1")], invariant := "x <= 10" }]
  properties := ["x <= 10", "x <= 5", "[]_[0,3] low"]

/-- A heater with two thresholds. -/
def thermostat : ModelFile where
  name := "thermostat"
  description := "a heater switching on below 19 degrees and off above 23"
  logic := "LRA"
  stateVars := [("x", "real")]
  modeVariables := [("on", "bool")]
  propositions := [("cold", "x < 19"), ("hot", "x > 22")]
  init := "on & x >= 19 & x <= 21"
  modes := [
    { id := 0, name := "heating", guard := "on", clock := "t", rates := [("x", "2")],
      invariant := "x <= 24" },
    { id := 1, name := "cooling", guard := "~on", clock := "t", rates := [("x", "-1")],
      invariant := "x >= 18" }]
  jumps := [
    { guard := "on & x >= 23", reset := "~on' & x' == x" },
    { guard := "~on & x <= 19", reset := "on' & x' == x" }]
  properties := ["[]_[0,10] (x >= 18 & x <= 24)", "[]_[0,10] x <= 23", "[]_[0,2] ~hot"]

/-- A tank with a pump and a drain. -/
def water : ModelFile where
  name := "water"
  description := "a tank whose pump fills it at rate 1 and which drains at 3/2 when the pump is off"
  logic := "LRA"
  stateVars := [("level", "real")]
  modeVariables := [("pump", "bool")]
  propositions := [("high", "level > 8"), ("low", "level < 2")]
  init := "pump & level == 5"
  modes := [
    { id := 0, name := "filling", guard := "pump", clock := "t",
      solution := [("level", "level + t")], invariant := "level <= 9" },
    { id := 1, name := "draining", guard := "~pump", clock := "t",
      solution := [("level", "level - 1.5 * t")], invariant := "level >= 1" }]
  jumps := [
    { guard := "pump & level >= 8", reset := "~pump' & level' == level" },
    { guard := "~pump & level <= 2", reset := "pump' & level' == level" }]
  properties := ["[] (level >= 1 & level <= 9)", "[]_[0,20] level >= 2", "[]_[0,1] ~high"]

def builtins : Table ModelFile :=
  [("linear", linear), ("thermostat", thermostat), ("water", water)]

def builtinNames : List String := builtins.names

/-- Resolves the parts of a path against a folder: a dot or nothing stays, two dots go up. -/
def resolve (folder : List String) : List String → List String
  | [] => folder
  | part :: parts =>
    if part = "" ∨ part = "." then resolve folder parts
    else if part = ".." then
      match folder.getLast? with
      | some ".." | none => resolve (folder ++ [".."]) parts
      | some _ => resolve folder.dropLast parts
    else resolve (folder ++ [part]) parts

/-- The model that a name denotes. Names are paths inside the folder of the built-in models. -/
def builtin? (name : String) : Option ModelFile :=
  match resolve ["builtin"] ((name ++ ".json").splitOn "/") with
  | ["builtin", file] => (builtins.find? fun e => e.1 ++ ".json" = file).map Prod.snd
  | _ => none

def loadBuiltin (name : String) : Attempt (Automaton × ModelFile) :=
  match builtin? name with
  | some f => do return (← f.build, f)
  | none => .error (.unknownBuiltin name builtinNames)

end HybridCheck.ModelFile
