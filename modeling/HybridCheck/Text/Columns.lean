/-!
# Aligned columns

Text is laid out in columns. A tab ends a cell and a newline ends a line; what stands after the last
tab of a line belongs to no column. A column block is a run of consecutive lines that have a cell in
that column. All cells of a block are filled up with blanks to the width of the widest one and two
more. A form feed ends a line and separates the blocks before it from those after it.
-/

namespace HybridCheck.Text

/-- Splits a list at every element that satisfies a test. There is one more part than separators. -/
def splitAll {α : Type} (p : α → Bool) : List α → List (List α)
  | [] => [[]]
  | a :: as =>
    match splitAll p as with
    | [] => [[]]
    | part :: parts => if p a then [] :: part :: parts else (a :: part) :: parts

/-- The cells of a line and the text after the last of them. -/
structure ColumnLine where
  cells : List (List Char)
  tail : List Char

def ColumnLine.ofChars (line : List Char) : ColumnLine :=
  let parts := splitAll (fun c => c = '\t' || c.toNat = 11) line
  ⟨parts.dropLast, parts.getLast?.getD []⟩

def columnGap : Nat := 2

def askedWidth (cell : List Char) : Nat := cell.length + columnGap

/-- The widths of a column in consecutive lines, given what each line asks for: within a run of
lines that have the column, all get the largest width. `run` is the width of the run so far. -/
def blockWidths (run : Nat) : List (Option Nat) → List (Option Nat)
  | [] => []
  | none :: ws => none :: blockWidths 0 ws
  | some w :: ws =>
    let rest := blockWidths (max run w) ws
    match rest with
    | some w' :: _ => some w' :: rest
    | _ => some (max run w) :: rest

def columnWidths (lines : List ColumnLine) (j : Nat) : List (Option Nat) :=
  blockWidths 0 (lines.map fun l => l.cells[j]?.map askedWidth)

def fill (cell : List Char) (width : Nat) : List Char :=
  cell ++ List.replicate (width - cell.length) ' '

def ColumnLine.render (l : ColumnLine) (widths : List (Option Nat)) : List Char :=
  ((l.cells.zip widths).flatMap fun (c, w) => fill c (w.getD c.length)) ++ l.tail

def layoutLines (lines : List ColumnLine) : List (List Char) :=
  let columns := (lines.map fun l => l.cells.length).foldl max 0
  let widths := (List.range columns).map (columnWidths lines)
  lines.mapIdx fun i l => l.render (widths.map fun col => (col[i]?).getD none)

def layoutPage (page : List Char) : List Char :=
  let lines := (splitAll (· = '\n') page).map ColumnLine.ofChars
  (layoutLines lines).intersperse ['\n'] |>.flatten

def layout (text : String) : String :=
  let pages := (splitAll (fun c => c.toNat = 12) text.toList).map layoutPage
  String.ofList ((pages.intersperse ['\n']).flatten)

end HybridCheck.Text
