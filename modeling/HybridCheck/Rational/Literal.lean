import HybridCheck.Text.Integer

/-!
# Rational literals

Constants are exact rationals. A literal is either a fraction of two integers or a number with an
optional fractional part and exponent.

* Both forms take the base marks `0x`, `0o` and `0b`. In a fraction a bare leading zero means octal;
  in a number leading zeros mean nothing.
* An underscore may separate two digits, or a base mark and a digit.
* An exponent is decimal after `e` and binary after `p`. Exponents beyond a million powers of five
  or ten million powers of two are refused.
-/

namespace HybridCheck.Rational

/-- The text of a rational: an integer, or a fraction in lowest terms. -/
def text (q : Rat) : String :=
  if q.den = 1 then toString q.num else toString q.num ++ "/" ++ toString q.den

def power (base : Nat) (e : Int) : Rat :=
  match e with
  | .ofNat n => mkRat (base.pow n) 1
  | .negSucc n => mkRat 1 (base.pow (n + 1))

/-- The value of a character as a digit of a base up to thirty-six, `36` for any other one. -/
def digitValue (c : Char) : Nat :=
  if '0' ≤ c ∧ c ≤ '9' then c.toNat - '0'.toNat
  else if 'a' ≤ c ∧ c ≤ 'z' then c.toNat - 'a'.toNat + 10
  else if 'A' ≤ c ∧ c ≤ 'Z' then c.toNat - 'A'.toNat + 10
  else 36

/-- What was read last, which decides where an underscore may stand. -/
inductive LastRead where
  | digit
  | underscore
  | other
  deriving DecidableEq

structure Digits where
  /-- All digits so far as one integer, the point ignored. -/
  value : Nat := 0
  /-- How many digits were read. -/
  count : Nat := 0
  /-- How many digits stand before the point, once there is one. -/
  beforePoint : Option Nat := none
  last : LastRead := .other
  /-- Whether an underscore stood where none may. -/
  misplaced : Bool := false

/-- Reads digits of a base, underscores and, if `point` allows, one point. -/
def Digits.read (base : Nat) (point : Bool) (d : Digits) : List Char → Digits × List Char
  | [] => (d, [])
  | c :: cs =>
    if c = '.' ∧ point then
      Digits.read base false
        { d with
          misplaced := d.misplaced || d.last == .underscore
          last := .other
          beforePoint := some d.count } cs
    else if c = '_' then
      Digits.read base point
        { d with misplaced := d.misplaced || d.last != .digit, last := .underscore } cs
    else if digitValue c < base then
      Digits.read base point
        { d with value := d.value * base + digitValue c, count := d.count + 1, last := .digit } cs
    else (d, c :: cs)

/-- Whether the underscores of a row of digits are all in place. -/
def Digits.wellSeparated (d : Digits) : Bool := !d.misplaced && d.last != .underscore

def Digits.afterPoint (d : Digits) : Nat :=
  match d.beforePoint with
  | some n => d.count - n
  | none => 0

/-- An unsigned row of digits with its base and the rest of the text. -/
structure Unsigned where
  value : Nat
  base : Nat
  afterPoint : Nat
  rest : List Char

/-- Finishes a row of digits, refusing one without digits or with a stray underscore. -/
def Unsigned.ofDigits? (base : Nat) : Digits × List Char → Option Unsigned
  | (d, rest) =>
    if d.count ≠ 0 ∧ d.wellSeparated then some ⟨d.value, base, d.afterPoint, rest⟩ else none

/-- Reads an unsigned number with an optional base mark and an optional point. -/
def readNumber? : List Char → Option Unsigned
  | '0' :: cs =>
    let marked (base : Nat) (cs : List Char) :=
      Unsigned.ofDigits? base (Digits.read base true { last := .digit } cs)
    match cs with
    | 'b' :: cs | 'B' :: cs => marked 2 cs
    | 'o' :: cs | 'O' :: cs => marked 8 cs
    | 'x' :: cs | 'X' :: cs => marked 16 cs
    | cs => Unsigned.ofDigits? 10 (Digits.read 10 true { count := 1, last := .digit } cs)
  | cs => Unsigned.ofDigits? 10 (Digits.read 10 true {} cs)

/-- Reads an unsigned integer with an optional base mark, a bare leading zero meaning octal. -/
def readInteger? : List Char → Option Unsigned
  | ['0'] => some ⟨0, 10, 0, []⟩
  | '0' :: cs =>
    let marked (base : Nat) (cs : List Char) :=
      Unsigned.ofDigits? base (Digits.read base false { last := .digit } cs)
    match cs with
    | 'b' :: cs | 'B' :: cs => marked 2 cs
    | 'o' :: cs | 'O' :: cs => marked 8 cs
    | 'x' :: cs | 'X' :: cs => marked 16 cs
    | cs =>
      match Digits.read 8 false { last := .digit } cs with
      | (d, rest) => if d.wellSeparated then some ⟨d.value, 8, 0, rest⟩ else none
  | cs => Unsigned.ofDigits? 10 (Digits.read 10 false {} cs)

/-- Splits off an optional sign: whether the number is negative, and what follows. -/
def readSign : List Char → Bool × List Char
  | '-' :: cs => (true, cs)
  | '+' :: cs => (false, cs)
  | cs => (false, cs)

def signed (negative : Bool) (n : Nat) : Int := if negative then -(n : Int) else n

/-- An exponent: a power of two and a power of five, and the rest of the text. -/
structure Exponent where
  twos : Int
  fives : Int
  rest : List Char

def readExponentDigits? (cs : List Char) : Option (Int × List Char) :=
  let (negative, cs) := readSign cs
  match Digits.read 10 false {} cs with
  | (d, rest) =>
    if d.count ≠ 0 ∧ d.wellSeparated then
      (Text.int64? (signed negative d.value)).map fun e => (e, rest)
    else none

def readExponent? : List Char → Option Exponent
  | 'e' :: cs | 'E' :: cs => (readExponentDigits? cs).map fun (e, rest) => ⟨e, e, rest⟩
  | 'p' :: cs | 'P' :: cs => (readExponentDigits? cs).map fun (e, rest) => ⟨e, 0, rest⟩
  | cs => some ⟨0, 0, cs⟩

/-- How many powers of two and of five one digit after the point is worth, by base. -/
def pointWeight (base : Nat) : Int × Int :=
  if base = 10 then (1, 1) else if base = 8 then (3, 0) else if base = 16 then (4, 0) else (1, 0)

/-- Reads a fraction `a/b` of integers, given the texts on both sides of the bar. -/
def ofFraction? (numerator denominator : List Char) : Option Rat := do
  let (negative, cs) := readSign numerator
  let a ← readInteger? cs
  let b ← readInteger? denominator
  if a.rest.isEmpty ∧ b.rest.isEmpty ∧ b.value ≠ 0 then
    some (mkRat (signed negative a.value) b.value)
  else none

def ofNumber? (cs : List Char) : Option Rat := do
  let (negative, cs) := readSign cs
  let m ← readNumber? cs
  let e ← readExponent? m.rest
  if ¬e.rest.isEmpty then none
  else if m.value = 0 then some 0
  else
    let weight := pointWeight m.base
    let twos := e.twos - m.afterPoint * weight.1
    let fives := e.fives - m.afterPoint * weight.2
    if fives.natAbs > 1000000 ∨ twos.natAbs > 10000000 then none
    else some ((signed negative m.value : Rat) * power 5 fives * power 2 twos)

/-- Reads a literal, as a fraction if it has a bar and as a number otherwise. -/
def ofChars? (cs : List Char) : Option Rat :=
  if '/' ∈ cs then ofFraction? (cs.takeWhile (· != '/')) ((cs.dropWhile (· != '/')).drop 1)
  else ofNumber? cs

def ofText? (s : String) : Option Rat := ofChars? s.toList

end HybridCheck.Rational
