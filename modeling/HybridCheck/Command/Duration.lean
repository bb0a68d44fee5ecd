import HybridCheck.Rational.Binary64
import HybridCheck.Text.Integer
import HybridCheck.Text.Quoted

/-!
# Durations

A duration is an optional sign and then spans such as `1.5h` and `30ms`, each a decimal number with
a unit; a lone zero needs no unit. It is counted in nanoseconds, within the range of 64 bits.

The fractional part of a span is worth what double-precision arithmetic makes of it, cut down to a
whole number of nanoseconds. Fractional digits that no longer fit into 63 bits are passed over.
-/

namespace HybridCheck.Command

open Text (quoteBytes)

inductive DurationFault where
  | invalid
  | missingUnit
  | unknownUnit (unit : String)
  deriving DecidableEq, Repr

def DurationFault.message (whole : String) : DurationFault → String
  | invalid => "time: invalid duration " ++ quoteBytes whole
  | missingUnit => "time: missing unit in duration " ++ quoteBytes whole
  | unknownUnit u => "time: unknown unit " ++ quoteBytes u ++ " in duration " ++ quoteBytes whole

def durationUnits : List (String × Nat) :=
  [("ns", 1), ("us", 1000), ("µs", 1000), ("μs", 1000), ("ms", 1000000), ("s", 1000000000),
    ("m", 60000000000), ("h", 3600000000000)]

/-- The largest number of nanoseconds of either sign, two to the 63rd. -/
def durationLimit : Nat := 9223372036854775808

def isDecimal (c : Char) : Bool := (Text.digit? c).isSome

/-- Whether a character belongs to the number of a span, and not to its unit. -/
def isNumeric (c : Char) : Bool := isDecimal c || c = '.'

/-- The double nearest to a nonnegative rational, if there is a finite one. -/
def double? (q : Rat) : Option Rat :=
  match Rational.Binary64.ofRat false q with
  | .finite _ m e => some (Rational.Binary64.magnitude m e)
  | _ => none

/-- The digits behind a point: their value as an integer, and the double by which it is divided,
none once that is infinite. -/
structure DecimalPart where
  value : Nat := 0
  scale : Option Rat := some 1
  /-- Whether a digit did not fit any more. -/
  full : Bool := false

def DecimalPart.push (p : DecimalPart) (d : Nat) : DecimalPart :=
  if p.full ∨ p.value * 10 + d > durationLimit then { p with full := true }
  else { value := p.value * 10 + d, scale := p.scale.bind fun s => double? (s * 10) }

def DecimalPart.ofDigits (cs : List Char) : DecimalPart :=
  (cs.filterMap Text.digit?).foldl DecimalPart.push {}

def DecimalPart.nanoseconds (p : DecimalPart) (unit : Nat) : Nat :=
  (p.scale.bind fun s => do
    let value ← double? p.value
    let worth ← double? (unit / s)
    let product ← double? (value * worth)
    return product.floor.natAbs).getD 0

/-- The digits behind the point of a number, and the rest of the text. -/
def splitPoint : List Char → List Char × List Char
  | '.' :: cs => (cs.takeWhile isDecimal, cs.dropWhile isDecimal)
  | cs => ([], cs)

/-- Reads one span: its nanoseconds, and the rest of the text. -/
def readSpan (cs : List Char) : Except DurationFault (Nat × List Char) :=
  let whole := cs.takeWhile isDecimal
  let (decimals, rest) := splitPoint (cs.dropWhile isDecimal)
  let value := (Text.readDigits? 0 whole).getD 0
  if value > durationLimit ∨ (whole.isEmpty ∧ decimals.isEmpty) then .error .invalid
  else
    match rest with
    | [] => .error .missingUnit
    | c :: cs =>
      if isNumeric c then .error .missingUnit
      else
        let unit := String.ofList (c :: cs.takeWhile fun c => !isNumeric c)
        match durationUnits.lookup unit with
        | none => .error (.unknownUnit unit)
        | some worth =>
          let n := value * worth + (DecimalPart.ofDigits decimals).nanoseconds worth
          if n > durationLimit then .error .invalid
          else .ok (n, cs.dropWhile fun c => !isNumeric c)

/-- What follows the digits behind a point is no longer than the text. -/
theorem length_splitPoint_le (cs : List Char) : (splitPoint cs).2.length ≤ cs.length := by
  unfold splitPoint
  split
  · exact Nat.le_succ_of_le (List.dropWhile_suffix isDecimal).length_le
  · exact Nat.le_refl _

/-- A span takes up at least its unit. -/
theorem length_lt_of_readSpan {cs rest : List Char} {n : Nat}
    (h : readSpan cs = .ok (n, rest)) : rest.length < cs.length := by
  have hsplit := Nat.le_trans (length_splitPoint_le (cs.dropWhile isDecimal))
    (List.dropWhile_suffix isDecimal).length_le
  unfold readSpan at h
  dsimp only at h
  split at h
  · cases h
  · split at h
    · cases h
    · rename_i c tail hrest
      rw [hrest] at hsplit
      split at h
      · cases h
      · split at h
        · cases h
        · split at h
          · cases h
          · cases h
            exact Nat.lt_of_le_of_lt (List.dropWhile_suffix _).length_le hsplit

/-- Adds up spans until the text ends. The sum is kept in 64 bits, so that it starts again from
zero where two spans of the largest size meet. -/
def sumSpans (sum : Nat) (cs : List Char) : Except DurationFault Nat :=
  if cs.isEmpty then .ok sum
  else
    match h : readSpan cs with
    | .error e => .error e
    | .ok (n, rest) =>
      let sum := (sum + n) % 18446744073709551616
      if sum > durationLimit then .error .invalid else sumSpans sum rest
termination_by cs.length
decreasing_by exact length_lt_of_readSpan h

def readDuration (s : String) : Except DurationFault Int :=
  let (negative, cs) := Rational.readSign s.toList
  if cs = ['0'] then .ok 0
  else if cs.isEmpty then .error .invalid
  else
    match sumSpans 0 cs with
    | .error e => .error e
    | .ok n =>
      if !negative && n = durationLimit then .error .invalid else .ok (Rational.signed negative n)

end HybridCheck.Command
