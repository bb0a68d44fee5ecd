/-!
# Sorts and roles

Every term has a sort and every variable has a role. The roles separate the names a user writes
from the symbols the encoder generates: propositions and mode variables per step, continuous
variables per step and phase, time points, and variables bound by a quantifier or a flow. Both types
keep room for codes without a name, which are only ever printed by number.
-/

namespace HybridCheck

inductive TermSort where
  | bool
  | real
  | int
  | other (code : Int)
  deriving DecidableEq, Repr

namespace TermSort

def ofCode (n : Int) : TermSort :=
  if n = 0 then bool else if n = 1 then real else if n = 2 then int else other n

def code : TermSort → Int
  | bool => 0
  | real => 1
  | int => 2
  | other n => n

/-- The name of a sort in solver scripts. -/
def text : TermSort → String
  | bool => "Bool"
  | real => "Real"
  | int => "Int"
  | other n => "Sort(" ++ toString n ++ ")"

/-- Reads the name of a sort as model files write it, in lower case or capitalised. -/
def ofName? (name : String) : Option TermSort :=
  if name = "bool" ∨ name = "Bool" then some bool
  else if name = "real" ∨ name = "Real" then some real
  else if name = "int" ∨ name = "Int" then some int
  else none

end TermSort

/-- The sort of a number: an exact rational or a mathematical integer. -/
inductive NumSort where
  | real
  | int
  deriving DecidableEq, Repr

def NumSort.toSort : NumSort → TermSort
  | real => .real
  | int => .int

/-- The part a variable plays in a trace. It is fixed when the variable is made. -/
inductive Role where
  /-- An identifier as written in a model or formula. -/
  | logical
  /-- A mode variable or proposition of one step. -/
  | proposition
  /-- A state variable of one step at one end of it. -/
  | continuous
  /-- A point in time or a duration. -/
  | timestamp
  /-- A variable bound by a quantifier or the clock of a flow. -/
  | bound
  | other (code : Int)
  deriving DecidableEq, Repr

namespace Role

def ofCode (n : Int) : Role :=
  if n = 0 then logical else if n = 1 then proposition else if n = 2 then continuous
  else if n = 3 then timestamp else if n = 4 then bound else other n

/-- The code of a role, by which variables of one name are ordered. -/
def code : Role → Int
  | logical => 0
  | proposition => 1
  | continuous => 2
  | timestamp => 3
  | bound => 4
  | other n => n

/-- The word for a role in messages. -/
def text : Role → String
  | logical => "logical"
  | proposition => "proposition"
  | continuous => "continuous"
  | timestamp => "timestamp"
  | bound => "bound"
  | other n => "Kind(" ++ toString n ++ ")"

end Role

end HybridCheck
