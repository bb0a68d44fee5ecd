/-!
# Decimal integers in names and arguments

An integer is an optional sign followed by at least one digit, within the range of 64 bits.
-/

namespace HybridCheck.Text

def digit? (c : Char) : Option Nat :=
  if '0' ≤ c ∧ c ≤ '9' then some (c.toNat - '0'.toNat) else none

def readDigits? (acc : Nat) : List Char → Option Nat
  | [] => some acc
  | c :: cs =>
    match digit? c with
    | some d => readDigits? (acc * 10 + d) cs
    | none => none

def readNat? : List Char → Option Nat
  | [] => none
  | cs => readDigits? 0 cs

/-- The first number too large for a signed integer of 64 bits, which is two to the 63rd. -/
def int64Limit : Int := 9223372036854775808

def int64? (n : Int) : Option Int := if -int64Limit ≤ n ∧ n < int64Limit then some n else none

def readInt? : List Char → Option Int
  | '-' :: cs => (readNat? cs).bind fun n => int64? (-(n : Int))
  | '+' :: cs => (readNat? cs).bind fun n => int64? n
  | cs => (readNat? cs).bind fun n => int64? n

def intOfText? (s : String) : Option Int := readInt? s.toList

end HybridCheck.Text
