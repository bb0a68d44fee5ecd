import HybridCheck.Command.Duration
import HybridCheck.Text.Record

/-!
# Command-line flags

A flag has a long name, perhaps a letter, and a kind of value. Flags and plain arguments may be
mixed; after `--` everything is a plain argument. A long flag takes its value after `=` or from the
next argument, a letter also from what follows it directly. A switch needs no value. A group of
letters that begins with `test.` is a setting of a test run and is passed over.
-/

namespace HybridCheck.Command

open Text (quote)

inductive FlagKind where
  | text
  | integer
  | decimal
  | switch
  | duration
  /-- Comma-separated pairs `key=value`. -/
  | pairs
  deriving DecidableEq, Repr

structure Flag where
  name : String
  letter : Option Char := none
  kind : FlagKind
  deriving Repr

def Flag.label (f : Flag) : String :=
  match f.letter with
  | some c => "-" ++ String.singleton c ++ ", --" ++ f.name
  | none => "--" ++ f.name

inductive NumberFault where
  | malformed
  | outOfRange
  deriving DecidableEq, Repr

def NumberFault.message : NumberFault → String
  | malformed => "invalid syntax"
  | outOfRange => "value out of range"

/-- The first number too large for 64 bits without a sign, which is two to the 64th. -/
def wordLimit : Nat := 18446744073709551616

/-- Reads digits of a base onto a value, passing over underscores. A value that outgrows 64 bits is
refused there and then, whatever follows. -/
def readWord (base value : Nat) : List Char → Except NumberFault Nat
  | [] => .ok value
  | c :: cs =>
    if c = '_' then readWord base value cs
    else if base ≤ Rational.digitValue c then .error .malformed
    else if wordLimit ≤ value * base + Rational.digitValue c then .error .outOfRange
    else readWord base (value * base + Rational.digitValue c) cs

/-- The base of an unsigned integer and its digits. A base mark has digits after it; a leading zero
without one means octal. -/
def splitBase : List Char → Nat × List Char
  | '0' :: 'b' :: c :: cs | '0' :: 'B' :: c :: cs => (2, c :: cs)
  | '0' :: 'o' :: c :: cs | '0' :: 'O' :: c :: cs => (8, c :: cs)
  | '0' :: 'x' :: c :: cs | '0' :: 'X' :: c :: cs => (16, c :: cs)
  | '0' :: cs => (8, cs)
  | cs => (10, cs)

/-- Reads an unsigned integer of 64 bits. Where its underscores stand is looked at last. -/
def readUnsigned (cs : List Char) : Except NumberFault Nat := do
  if cs.isEmpty then throw .malformed
  let (base, digits) := splitBase cs
  let n ← readWord base 0 digits
  if '_' ∈ digits ∧ ¬Rational.Binary64.underscoresOk cs then throw .malformed
  return n

def readInteger (s : String) : Except String Int :=
  let (negative, cs) := Rational.readSign s.toList
  let number : Except NumberFault Int := do
    match Text.int64? (Rational.signed negative (← readUnsigned cs)) with
    | some i => return i
    | none => throw .outOfRange
  number.mapError fun e => "strconv.ParseInt: parsing " ++ quote s ++ ": " ++ e.message

/-- Reads a double, refusing a number beyond the largest one. -/
def readDecimal (s : String) : Except String Rational.Binary64 :=
  let failed (e : NumberFault) : Except String Rational.Binary64 :=
    .error ("strconv.ParseFloat: parsing " ++ quote s ++ ": " ++ e.message)
  match Rational.Binary64.ofText? s with
  | none => failed .malformed
  | some (.infinite b) =>
    if s.toList.any fun c => '0' ≤ c && c ≤ '9' then failed .outOfRange
    else .ok (.infinite b)
  | some x => .ok x

def readSwitch (s : String) : Except String Bool :=
  if ["1", "t", "T", "true", "TRUE", "True"].contains s then .ok true
  else if ["0", "f", "F", "false", "FALSE", "False"].contains s then .ok false
  else .error ("strconv.ParseBool: parsing " ++ quote s ++ ": " ++ NumberFault.malformed.message)

/-- The pairs that a text lists. With a single `=` the text is one pair, commas and all; otherwise
it is a record. -/
def pairTexts (s : String) : Except String (List String) :=
  if s.toList.count '=' ≤ 1 then .ok [s] else (Text.readRecord s).mapError Text.RecordFault.message

def checkPairs (s : String) : Except String Unit := do
  match (← pairTexts s).find? fun p => !p.toList.contains '=' with
  | some p => throw (p ++ " must be formatted as key=value")
  | none => return ()

def Flag.check (f : Flag) (value : String) : Except String Unit :=
  match f.kind with
  | .text => .ok ()
  | .integer => (readInteger value).map fun _ => ()
  | .decimal => (readDecimal value).map fun _ => ()
  | .switch => (readSwitch value).map fun _ => ()
  | .duration => ((readDuration value).mapError (·.message value)).map fun _ => ()
  | .pairs => checkPairs value

/-- Flags with their values, later ones last, and the plain arguments. -/
structure Parsed where
  values : List (String × String) := []
  plain : List String := []

def Parsed.value? (p : Parsed) (name : String) : Option String :=
  (p.values.reverse.find? fun v => v.1 = name).map Prod.snd

def Parsed.set (p : Parsed) (f : Flag) (value : String) : Except String Parsed :=
  match f.check value with
  | .ok () => .ok { p with values := p.values ++ [(f.name, value)] }
  | .error why =>
    .error ("invalid argument " ++ quote value ++ " for " ++ quote f.label ++ " flag: " ++ why)

def splitEquals (cs : List Char) : String × Option String :=
  match cs.dropWhile (· != '=') with
  | [] => (.ofList cs, none)
  | _ :: v => (.ofList (cs.takeWhile (· != '=')), some (.ofList v))

/-- The first byte of a character, taken as a character of its own. -/
def leadByte (c : Char) : Char :=
  match String.utf8EncodeChar c with
  | b :: _ => Char.ofNat b.toNat
  | [] => c

/-- Reads a group of letters, such as `-cb2`. Says whether the next argument was taken as a value.
Letters are single bytes: of any other character the first byte is shown. -/
def readLetters (flags : List Flag) (next : Option String) (p : Parsed) :
    List Char → Except String (Parsed × Bool)
  | [] => .ok (p, false)
  | c :: cs =>
    let place := Text.quoteChar (leadByte c) ++ " in -" ++ .ofList (c :: cs)
    if "test.".toList.isPrefixOf (c :: cs) then .ok (p, false)
    else match flags.find? fun f => f.letter = some c with
    | none => .error ("unknown shorthand flag: " ++ place)
    | some f =>
      match cs with
      | '=' :: v :: vs => do return (← p.set f (.ofList (v :: vs)), false)
      | cs =>
        if f.kind = .switch then do readLetters flags next (← p.set f "true") cs
        else if !cs.isEmpty then do return (← p.set f (.ofList cs), false)
        else
          match next with
          | some v => do return (← p.set f v, true)
          | none => .error ("flag needs an argument: " ++ place)

def readArgs (flags : List Flag) (p : Parsed) : List String → Except String Parsed
  | [] => .ok p
  | a :: rest =>
    match a.toList with
    | ['-', '-'] => .ok { p with plain := p.plain ++ rest }
    | '-' :: '-' :: cs =>
      let (name, value) := splitEquals cs
      if name.isEmpty || "-".isPrefixOf name then .error ("bad flag syntax: " ++ a)
      else match flags.find? fun f => f.name = name with
      | none => .error ("unknown flag: --" ++ name)
      | some f =>
        match value with
        | some v => do readArgs flags (← p.set f v) rest
        | none =>
          if f.kind = .switch then do readArgs flags (← p.set f "true") rest
          else
            match rest with
            | v :: rest => do readArgs flags (← p.set f v) rest
            | [] => .error ("flag needs an argument: --" ++ name)
    | '-' :: c :: cs => do
      match ← readLetters flags rest.head? p (c :: cs) with
      | (p, false) => readArgs flags p rest
      | (p, true) =>
        match rest with
        | _ :: rest => readArgs flags p rest
        | [] => .ok p
    | _ => readArgs flags { p with plain := p.plain ++ [a] } rest

end HybridCheck.Command
