import HybridCheck.Rational.Literal

/-!
# Double-precision numbers

A time horizon is given as a double-precision number: decimal or hexadecimal text is rounded to the
nearest double, a tie going to the even significand. What the horizon means is the shortest decimal
that reads back as the same double, taken as an exact rational; of several such decimals the one
nearest to the double is meant, and of two equally near ones the one with an even last digit.

All arithmetic is exact: a finite double is `significand * 2 ^ exponent`.
-/

namespace HybridCheck.Rational

/-- A double-precision number. The significand of a finite one is below `2 ^ 53`. -/
inductive Binary64 where
  | nan
  | infinite (negative : Bool)
  | finite (negative : Bool) (significand : Nat) (exponent : Int)
  deriving DecidableEq, Repr

namespace Binary64

/-- The quotient `n / d` rounded to the nearest integer, a tie going to the even one. -/
def roundQuotient (n d : Nat) : Nat :=
  let q := n / d
  let r := n % d
  if 2 * r > d ∨ (2 * r = d ∧ q % 2 = 1) then q + 1 else q

/-- The exponent of the doubles around a positive rational: the largest one that leaves the
significand below `2 ^ 53`, and never less than that of the smallest doubles. -/
def exponentFor (q : Rat) : Int :=
  let guess : Int := (Nat.log2 q.num.natAbs : Int) - Nat.log2 q.den - 53
  let e := if q < power 2 (guess + 53) then guess else guess + 1
  max e (-1074)

/-- The least significand of a double that is not among the smallest ones, two to the 52nd. The
significands of all doubles are below twice this number. -/
def leastNormal : Nat := 4503599627370496

def nearest (negative : Bool) (q : Rat) : Binary64 :=
  let e := exponentFor q
  let scaled := q * power 2 (-e)
  let m := roundQuotient scaled.num.natAbs scaled.den
  let (m, e) := if m = 2 * leastNormal then (leastNormal, e + 1) else (m, e)
  if e > 971 then infinite negative else finite negative m e

/-- The double nearest to a rational, a zero keeping the sign it was written with. -/
def ofRat (negative : Bool) (q : Rat) : Binary64 :=
  if q = 0 then finite negative 0 (-1074) else nearest negative q

def magnitude (significand : Nat) (exponent : Int) : Rat := significand * power 2 exponent

/-- The rationals that round to a positive double: lower end, upper end, and whether the ends
belong to it. -/
def roundingInterval (m : Nat) (e : Int) : Rat × Rat × Bool :=
  let below : Rat := if m = leastNormal ∧ e > -1074 then 1 / 4 else 1 / 2
  ((m - below) * power 2 e, (m + 1 / 2) * power 2 e, m % 2 = 0)

/-- The number of decimal digits before the point of a positive rational: the least `k` with
`q < 10 ^ k`, found by stepping away from an estimate. -/
def decimalExponent (q : Rat) : Int :=
  let bits : Int := (Nat.log2 q.num.natAbs : Int) - Nat.log2 q.den
  let guess : Int := bits * 30103 / 100000 - 1
  let rec up (fuel : Nat) (k : Int) : Int :=
    match fuel with
    | 0 => k
    | fuel + 1 => if q < power 10 k then k else up fuel (k + 1)
  up 5 guess

/-- The decimal with `digits` significant digits nearest to `q` among its two neighbours, if one of
them lies in the interval. A tie goes to the even digit. -/
def decimalWithin? (q lo hi : Rat) (closed : Bool) (k : Int) (digits : Nat) : Option Rat :=
  let unit := power 10 (k - digits)
  let n := (q / unit).floor
  let below : Rat := n * unit
  let above := below + unit
  let fits (x : Rat) : Bool := if closed then lo ≤ x && x ≤ hi else lo < x && x < hi
  let nearer : Bool := q - below < above - q || (q - below = above - q && n % 2 = 0)
  if fits below ∧ (¬fits above ∨ nearer) then some below
  else if fits above then some above
  else none

/-- The shortest decimal that reads back as a positive double, nearest to it among the shortest. -/
def shortest (m : Nat) (e : Int) : Rat :=
  let q := magnitude m e
  let (lo, hi, closed) := roundingInterval m e
  let k := decimalExponent q
  ((List.range 17).findSome? fun n => decimalWithin? q lo hi closed k (n + 1)).getD q

/-- The exact value of the shortest decimal of a finite double. -/
def toRat? : Binary64 → Option Rat
  | finite negative m e =>
    if m = 0 then some 0 else some (if negative then -shortest m e else shortest m e)
  | _ => none

/-- The positional decimal text of a nonnegative rational whose denominator divides a power of
ten. -/
def positional (q : Rat) : String :=
  let whole := q.floor.natAbs
  let rec digits (fuel : Nat) (r : Rat) : List Char :=
    match fuel with
    | 0 => []
    | fuel + 1 =>
      if r = 0 then []
      else
        let d := (r * 10).floor
        Char.ofNat (48 + d.natAbs) :: digits fuel (r * 10 - d)
  let part := digits 1100 (q - q.floor)
  if part.isEmpty then toString whole else toString whole ++ "." ++ String.ofList part

/-- The text of a double: the shortest decimal that reads back, without exponent. -/
def text : Binary64 → String
  | nan => "NaN"
  | infinite negative => if negative then "-Inf" else "+Inf"
  | finite negative m e =>
    (if negative then "-" else "") ++ (if m = 0 then "0" else positional (shortest m e))

/-- The length of time a horizon allows. A horizon that is not positive or not finite allows any. -/
def timeBound : Binary64 → Option Rat
  | finite false m e => if m = 0 then none else some (shortest m e)
  | _ => none

/-! ## Reading -/

/-- Whether the underscores of a number separate digits, a base mark counting as a digit. -/
def underscoresOk (cs : List Char) : Bool :=
  let (_, cs) := readSign cs
  let isHexMark (c : Char) : Bool := c = 'x' || c = 'X'
  let isMark (c : Char) : Bool := isHexMark c || c = 'b' || c = 'B' || c = 'o' || c = 'O'
  let (hex, start, cs) : Bool × LastRead × List Char :=
    match cs with
    | '0' :: c :: r => if isMark c then (isHexMark c, .digit, r) else (false, .other, '0' :: c :: r)
    | cs => (false, .other, cs)
  let rec scan (last : LastRead) : List Char → Bool
    | [] => last != .underscore
    | c :: r =>
      if digitValue c < 10 || (hex && digitValue c < 16) then scan .digit r
      else if c = '_' then last == .digit && scan .underscore r
      else last != .underscore && scan .other r
  scan start cs

/-- The digits of an exponent as a number, and what follows them. -/
def exponentDigits (value : Nat) : List Char → Nat × List Char
  | [] => (value, [])
  | c :: r =>
    if c = '_' then exponentDigits value r
    else if digitValue c < 10 then
      exponentDigits (if value < 10000 then value * 10 + digitValue c else value) r
    else (value, c :: r)

/-- Reads an exponent after its letter: an optional sign and at least one digit. -/
def readExponent? (cs : List Char) : Option (Int × List Char) :=
  let (negative, cs) := readSign cs
  match cs with
  | c :: r =>
    if digitValue c < 10 then
      let (n, rest) := exponentDigits 0 (c :: r)
      some (signed negative n, rest)
    else none
  | [] => none

/-- Reads a decimal number with optional exponent, or a hexadecimal one with a binary exponent. -/
def ofNumeral? (text : List Char) : Option Binary64 := do
  let (negative, cs) := readSign text
  let (base, cs) : Nat × List Char :=
    match cs with
    | '0' :: 'x' :: c :: r | '0' :: 'X' :: c :: r => (16, c :: r)
    | cs => (10, cs)
  let (d, rest) := Digits.read base true {} cs
  if d.count = 0 then none
  else
    let scale := power base (-(d.afterPoint : Int))
    let (e, rest) ←
      match rest with
      | c :: r =>
        if base = 10 ∧ (c = 'e' ∨ c = 'E') ∨ base = 16 ∧ (c = 'p' ∨ c = 'P') then readExponent? r
        else if base = 16 then none
        else some (0, c :: r)
      | [] => if base = 16 then none else some (0, [])
    if ¬rest.isEmpty ∨ ('_' ∈ text ∧ ¬underscoresOk text) then none
    else some (ofRat negative (d.value * scale * power (if base = 16 then 2 else 10) e))

/-- Reads a double: a number, or one of the words for infinity and for no number. -/
def ofText? (s : String) : Option Binary64 :=
  let (negative, rest) := readSign s.toList
  let word := String.ofList (rest.map Char.toLower)
  if word = "inf" ∨ word = "infinity" then some (infinite negative)
  else if (s.toList.map Char.toLower) = "nan".toList then some nan
  else ofNumeral? s.toList

end Binary64

end HybridCheck.Rational
