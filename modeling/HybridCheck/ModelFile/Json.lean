/-!
# Reading JSON

Model files are JSON. A value keeps what decoding needs: a number its literal, an object its members
in order with repeated names. Reading takes the first value of a text and leaves the rest alone.
-/

namespace HybridCheck

inductive Json where
  | null
  | bool (b : Bool)
  | number (literal : List Char)
  | string (s : String)
  | array (items : List Json)
  | object (members : List (String × Json))

namespace Json

def isSpace (c : Char) : Bool := c = ' ' || c = '\t' || c = '\r' || c = '\n'

def skipSpace (cs : List Char) : List Char := cs.dropWhile isSpace

def hexValue? (c : Char) : Option Nat :=
  if '0' ≤ c ∧ c ≤ '9' then some (c.toNat - '0'.toNat)
  else if 'a' ≤ c ∧ c ≤ 'f' then some (c.toNat - 'a'.toNat + 10)
  else if 'A' ≤ c ∧ c ≤ 'F' then some (c.toNat - 'A'.toNat + 10)
  else none

def readUnit? : List Char → Option (Nat × List Char)
  | a :: b :: c :: d :: rest => do
    let n := (← hexValue? a) * 4096 + (← hexValue? b) * 256 + (← hexValue? c) * 16 + (← hexValue? d)
    return (n, rest)
  | _ => none

def replacement : Char := Char.ofNat 0xFFFD

/-- A code unit as a character, the replacement for half of a pair. -/
def charOfUnit (n : Nat) : Char := if 0xD800 ≤ n ∧ n < 0xE000 then replacement else Char.ofNat n

/-- The second unit of a pair, if an escape for one follows. -/
def lowUnit? : List Char → Option (Nat × List Char)
  | '\\' :: 'u' :: cs =>
    match readUnit? cs with
    | some (lo, rest) => if 0xDC00 ≤ lo ∧ lo < 0xE000 then some (lo, rest) else none
    | none => none
  | _ => none

/-- Reads the character of a numeric escape. Two escapes may form a pair. -/
def readEscape? (cs : List Char) : Option (Char × List Char) := do
  let (n, rest) ← readUnit? cs
  if 0xD800 ≤ n ∧ n < 0xDC00 then
    match lowUnit? rest with
    | some (lo, rest) => return (Char.ofNat (0x10000 + (n - 0xD800) * 0x400 + (lo - 0xDC00)), rest)
    | none => return (replacement, rest)
  else return (charOfUnit n, rest)

def letterEscape? (c : Char) : Option Char :=
  if c = '"' ∨ c = '\\' ∨ c = '/' then some c
  else if c = 'b' then some (Char.ofNat 8)
  else if c = 'f' then some (Char.ofNat 12)
  else if c = 'n' then some '\n'
  else if c = 'r' then some '\r'
  else if c = 't' then some '\t'
  else none

/-- Reads a string after its opening quote. The budget bounds the number of characters. -/
def readString? : (budget : Nat) → List Char → Option (List Char × List Char)
  | 0, _ => none
  | _, [] => none
  | budget + 1, c :: cs =>
    if c = '"' then some ([], cs)
    else if c.toNat < 0x20 then none
    else if c = '\\' then
      match cs with
      | 'u' :: cs => do
        let (x, rest) ← readEscape? cs
        let (s, rest) ← readString? budget rest
        return (x :: s, rest)
      | e :: cs => do
        let x ← letterEscape? e
        let (s, rest) ← readString? budget cs
        return (x :: s, rest)
      | [] => none
    else do
      let (s, rest) ← readString? budget cs
      return (c :: s, rest)

def isDigit (c : Char) : Bool := '0' ≤ c && c ≤ '9'

def digits? (cs : List Char) : Option (List Char × List Char) :=
  match cs.takeWhile isDigit with
  | [] => none
  | ds => some (ds, cs.dropWhile isDigit)

/-- Splits off the integer part of a number, which has no superfluous zero. -/
def integerPart? : List Char → Option (List Char × List Char)
  | '0' :: cs => some (['0'], cs)
  | cs => digits? cs

def fraction? : List Char → Option (List Char × List Char)
  | '.' :: cs => (digits? cs).map fun (ds, rest) => ('.' :: ds, rest)
  | cs => some ([], cs)

def exponent? : List Char → Option (List Char × List Char)
  | e :: cs =>
    if e = 'e' ∨ e = 'E' then
      match cs with
      | '+' :: cs => (digits? cs).map fun (ds, rest) => (e :: '+' :: ds, rest)
      | '-' :: cs => (digits? cs).map fun (ds, rest) => (e :: '-' :: ds, rest)
      | cs => (digits? cs).map fun (ds, rest) => (e :: ds, rest)
    else some ([], e :: cs)
  | [] => some ([], [])

def readNumber? (cs : List Char) : Option (List Char × List Char) := do
  let (sign, cs) : List Char × List Char :=
    match cs with
    | '-' :: cs => (['-'], cs)
    | cs => ([], cs)
  let (whole, cs) ← integerPart? cs
  let (part, cs) ← fraction? cs
  let (e, cs) ← exponent? cs
  return (sign ++ whole ++ part ++ e, cs)

def word? (w : String) (cs : List Char) : Option (List Char) :=
  if w.toList.isPrefixOf cs then some (cs.drop w.length) else none

mutual

/-- Reads a value. The budget bounds the number of steps. -/
def readValue? : (budget : Nat) → List Char → Option (Json × List Char)
  | 0, _ => none
  | budget + 1, cs =>
    match skipSpace cs with
    | '\x7b' :: cs =>
      match skipSpace cs with
      | '\x7d' :: rest => some (object [], rest)
      | cs => (readMembers? budget cs).map fun (ms, rest) => (object ms, rest)
    | '[' :: cs =>
      match skipSpace cs with
      | ']' :: rest => some (array [], rest)
      | cs => (readItems? budget cs).map fun (vs, rest) => (array vs, rest)
    | '"' :: cs => (readString? (cs.length + 1) cs).map fun (s, rest) => (string (.ofList s), rest)
    | 'n' :: cs => (word? "ull" cs).map fun rest => (null, rest)
    | 't' :: cs => (word? "rue" cs).map fun rest => (bool true, rest)
    | 'f' :: cs => (word? "alse" cs).map fun rest => (bool false, rest)
    | cs => (readNumber? cs).map fun (n, rest) => (number n, rest)

def readItems? : (budget : Nat) → List Char → Option (List Json × List Char)
  | 0, _ => none
  | budget + 1, cs => do
    let (v, rest) ← readValue? budget cs
    match skipSpace rest with
    | ',' :: rest =>
      let (vs, rest) ← readItems? budget rest
      return (v :: vs, rest)
    | ']' :: rest => return ([v], rest)
    | _ => none

def readMembers? : (budget : Nat) → List Char → Option (List (String × Json) × List Char)
  | 0, _ => none
  | budget + 1, cs =>
    match skipSpace cs with
    | '"' :: cs => do
      let (name, rest) ← readString? (cs.length + 1) cs
      match skipSpace rest with
      | ':' :: rest =>
        let (v, rest) ← readValue? budget rest
        match skipSpace rest with
        | ',' :: rest =>
          let (ms, rest) ← readMembers? budget rest
          return ((.ofList name, v) :: ms, rest)
        | '\x7d' :: rest => return ([(.ofList name, v)], rest)
        | _ => none
      | _ => none
    | _ => none

end

def ofText? (s : String) : Option Json :=
  let cs := s.toList
  (readValue? (2 * cs.length + 2) cs).map Prod.fst

end Json

end HybridCheck
