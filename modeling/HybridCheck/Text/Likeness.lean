/-!
# Likeness of words

The distance between two words is the least number of letters to insert, delete or exchange in order
to turn one into the other. It is computed row by row: a row holds the distances between one initial
part of the first word and every initial part of the second.
-/

namespace HybridCheck.Text

/-- The distances from the next row on. `diagonal` is the distance one letter shorter in both words,
`left` the one just computed, and the last argument the rest of the previous row. -/
def nextDistances (c : Char) (diagonal left : Nat) : List Char → List Nat → List Nat
  | d :: word, above :: row =>
    let here := min (min (above + 1) (left + 1)) (if c = d then diagonal else diagonal + 1)
    here :: nextDistances c above here word row
  | _, _ => []

/-- The row of distances after one more letter of the first word. -/
def nextRow (word : List Char) (row : List Nat) (c : Char) : List Nat :=
  match row with
  | [] => []
  | first :: rest => (first + 1) :: nextDistances c first (first + 1) word rest

def distance (a b : List Char) : Nat :=
  (a.foldl (nextRow b) (List.range (b.length + 1))).getLast?.getD 0

/-- Whether a word may be meant by what was typed, letters compared without regard to case: it
begins so, or at most two letters differ. -/
def isLike (typed word : String) : Bool :=
  let a := typed.toList.map Char.toLower
  let b := word.toList.map Char.toLower
  distance a b ≤ 2 || a.isPrefixOf b

end HybridCheck.Text
