import HybridCheck.Term.Basic

/-!
# Step-indexed symbols

Identifiers become symbols of one step of a trace. An identifier consists of letters, digits and
underscores and does not begin with a digit; every generated name contains `@` or `#`, so generated
symbols never meet each other or an identifier.
-/

namespace HybridCheck

/-- The end of a step at which a continuous variable is read. -/
inductive Phase where
  /-- The start of the step. -/
  | entry
  /-- The end of the step, before the jump. -/
  | exit
  deriving DecidableEq, Repr

namespace Phase

def text : Phase → String
  | entry => "0"
  | exit => "t"

def ofCode (n : Int) : Attempt Phase :=
  if n = 0 then .ok entry
  else if n = 1 then .ok exit
  else .error (.fault (.invalidPhase n))

end Phase

def isIdentStart (c : Char) : Bool :=
  ('A' ≤ c && c ≤ 'Z') || ('a' ≤ c && c ≤ 'z') || c = '_'

def isIdentChar (c : Char) : Bool := isIdentStart c || ('0' ≤ c && c ≤ '9')

/-- Whether a name may be declared as a variable or proposition. -/
def isIdentifier (name : String) : Bool :=
  match name.toList with
  | [] => false
  | c :: cs => isIdentStart c && cs.all isIdentChar

namespace Symbol

def discrete (id : String) (s : TermSort) (k : Int) : Var :=
  ⟨id ++ "@" ++ toString k, s, .proposition⟩

def state (id : String) (s : TermSort) (k : Int) (p : Phase) : Var :=
  ⟨id ++ "@" ++ toString k ++ "." ++ p.text, s, .continuous⟩

/-- The duration of step `k`. -/
def time (k : Int) : Var := ⟨"time#" ++ toString k, .real, .timestamp⟩

/-- The instant at which step `k` ends. -/
def tau (k : Int) : Var := ⟨"tau#" ++ toString k, .real, .timestamp⟩

/-- The `n`-th guessed instant. -/
def witness (n : Int) : Var := ⟨"w#" ++ toString n, .real, .timestamp⟩

/-- The `n`-th instant quantified over. -/
def instant (n : Int) : Var := ⟨"u#" ++ toString n, .real, .bound⟩

/-- The time since the start of a segment, in terms that are instantiated later. -/
def offset : Var := ⟨"off#", .real, .bound⟩

end Symbol

end HybridCheck
