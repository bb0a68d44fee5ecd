/-!
# Comma-separated records

A record is a line of fields with commas between them. A field that begins with a double quote goes
on to the next quote that stands alone and may hold commas and line ends; a quote inside it is
written twice. A field that does not begin with a quote holds none. Blank lines before the record
are skipped, and what follows the record is not looked at.

Lines end with a line feed, before which one carriage return is dropped; so is a carriage return at
the very end of the text. A fault is reported by line and column, and columns count bytes.
-/

namespace HybridCheck.Text

/-- A place in a text, lines and columns counted from one. -/
structure Place where
  line : Nat := 1
  column : Nat := 1
  deriving DecidableEq, Repr

def Place.after (p : Place) (c : Char) : Place := { p with column := p.column + c.utf8Size }

/-- The place behind a line end. At the end of the text there is no further line to stand in. -/
def Place.afterLine (p : Place) (rest : List Char) : Place :=
  if rest.isEmpty then p.after '\n' else { line := p.line + 1 }

inductive RecordProblem where
  /-- A quote in a field that does not begin with one. -/
  | bareQuote
  /-- A quoted field that goes on behind its closing quote, or has none. -/
  | strayQuote
  deriving DecidableEq, Repr

def RecordProblem.message : RecordProblem → String
  | bareQuote => "bare \" in non-quoted-field"
  | strayQuote => "extraneous or missing \" in quoted-field"

/-- A problem, the line on which the record begins, and the place of the problem. -/
structure RecordFault where
  problem : RecordProblem
  start : Nat
  place : Place
  deriving DecidableEq, Repr

/-- The wording of a fault. The beginning of the record is named only if it is on another line. -/
def RecordFault.message (f : RecordFault) : String :=
  (if f.start = f.place.line then "" else "record on line " ++ toString f.start ++ "; ") ++
    "parse error on line " ++ toString f.place.line ++ ", column " ++ toString f.place.column ++
    ": " ++ f.problem.message

def plainLineEnds : List Char → List Char
  | [] => []
  | ['\r'] => []
  | '\r' :: '\n' :: cs => '\n' :: plainLineEnds cs
  | c :: cs => c :: plainLineEnds cs

/-- Where the reader of a record stands. -/
inductive RecordState where
  /-- Before the first character of a field. -/
  | begins
  /-- In a field without quotes. -/
  | plain
  /-- In a quoted field. -/
  | quoted
  /-- In a quoted field, behind a quote at the given place. -/
  | behindQuote (mark : Place)
  deriving DecidableEq, Repr

/-- Reads fields up to the end of the record. `field` holds the characters of the present field,
the last one first. -/
def readFields (start : Nat) (place : Place) (state : RecordState) (field : List Char) :
    List Char → Except RecordFault (List String)
  | [] =>
    if state = .quoted then .error ⟨.strayQuote, start, place⟩
    else .ok [.ofList field.reverse]
  | c :: cs =>
    let next (state : RecordState) (field : List Char) :=
      readFields start (place.after c) state field cs
    let close : Except RecordFault (List String) :=
      (next .begins []).map (String.ofList field.reverse :: ·)
    match state with
    | .quoted =>
      if c = '"' then next (.behindQuote place) field
      else if c = '\n' then readFields start (place.afterLine cs) .quoted (c :: field) cs
      else next .quoted (c :: field)
    | .behindQuote mark =>
      if c = '"' then next .quoted (c :: field)
      else if c = ',' then close
      else if c = '\n' then .ok [.ofList field.reverse]
      else .error ⟨.strayQuote, start, mark⟩
    | state =>
      if c = ',' then close
      else if c = '\n' then .ok [.ofList field.reverse]
      else if c ≠ '"' then next .plain (c :: field)
      else if state = .begins then next .quoted []
      else .error ⟨.bareQuote, start, place⟩

def readRecord (s : String) : Except RecordFault (List String) :=
  let cs := plainLineEnds s.toList
  let start := (cs.takeWhile (· = '\n')).length + 1
  readFields start { line := start } .begins [] (cs.dropWhile (· = '\n'))

end HybridCheck.Text
