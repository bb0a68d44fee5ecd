import HybridCheck.Search.Basic

/-!
# Spans of a search

A search leaves one span for itself and one for every bound it explored, in the order they began.
A span carries attributes known when it began or when it ended; a failed one carries its error.
-/

namespace HybridCheck.Search

inductive Attribute where
  | text (s : String)
  | number (n : Int)
  | flag (b : Bool)
  deriving DecidableEq, Repr

/-- A stretch of work. -/
structure Span where
  name : String
  /-- The span it belongs to, empty for the outermost one. -/
  parent : String
  attributes : List (String × Attribute)
  error : Option String
  deriving Repr

def searchSpan : String := "bmc.ModelCheck"

def boundSpan : String := "bmc.bound"

def Span.ofExplored (r : Explored) : Span where
  name := boundSpan
  parent := searchSpan
  attributes := ("bound", .number r.bound) ::
    match r.outcome with
    | .ok o => [("result", .text o.answer.text), ("size", .number o.size)]
    | .error _ => []
  error :=
    match r.outcome with
    | .ok _ => none
    | .error e => some e.message

def spans (s : Settings) (property : String) (r : Run) : List Span :=
  { name := searchSpan
    parent := ""
    attributes := [("property", .text property), ("maxBound", .number s.maxBound),
      ("iterative", .flag s.iterative)] ++
      (if r.failure.isNone then [("verdict", .text r.report.verdict.text)] else [])
    error := r.failure.map Failure.message } :: r.trail.map Span.ofExplored

end HybridCheck.Search
