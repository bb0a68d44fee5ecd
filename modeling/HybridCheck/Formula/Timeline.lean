import HybridCheck.Symbol
import HybridCheck.Term.Fold

/-!
# The timeline of a bounded trace

A trace with `N` jumps has the segments `0` to `N`. Segment `k` ends at the instant `tau k` and
begins where the one before it ends, the first at zero. Segments are closed on the left; only the
last one is closed on the right, so that every instant of the trace lies in exactly one of them.
-/

namespace HybridCheck

/-- The skeleton of the traces with `horizon` jumps. -/
structure Timeline where
  horizon : Int
  deriving DecidableEq, Repr

namespace Timeline

def segments (b : Timeline) : Int := b.horizon + 1

def start (k : Int) : Term := if k = 0 then .zero else .var (Symbol.tau (k - 1))

def stop (k : Int) : Term := .var (Symbol.tau k)

def domain (b : Timeline) (u : Term) : Term :=
  .mkAnd [.mkGe u .zero, .mkLe u (stop b.horizon)]

def within (b : Timeline) (k : Int) (u : Term) : Term :=
  if k = b.horizon then .mkAnd [.mkGe u (start k), .mkLe u (stop k)]
  else .mkAnd [.mkGe u (start k), .mkLt u (stop k)]

end Timeline

end HybridCheck
