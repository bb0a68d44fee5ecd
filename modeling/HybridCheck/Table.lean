/-!
# Tables keyed by name

A table is an association list kept in strictly increasing key order, so that two tables with the
same entries are the same list and every traversal meets the names in sorted order. Inserting a
present name replaces its value.
-/

namespace HybridCheck

/-- Values keyed by name, in increasing order of the names. -/
abbrev Table (α : Type) := List (String × α)

namespace Table

variable {α β : Type}

def get? : Table α → String → Option α
  | [], _ => none
  | (k, v) :: t, name => if k = name then some v else get? t name

def has (t : Table α) (name : String) : Bool := (t.get? name).isSome

def names (t : Table α) : List String := t.map Prod.fst

def put (name : String) (v : α) : Table α → Table α
  | [] => [(name, v)]
  | (k, w) :: t =>
    if k = name then (name, v) :: t
    else if name < k then (name, v) :: (k, w) :: t
    else (k, w) :: put name v t

/-- Stores several entries one after the other: of two with the same name the later stays. -/
def putAll (t : Table α) (entries : List (String × α)) : Table α :=
  entries.foldl (fun acc e => acc.put e.1 e.2) t

def ofEntries (entries : List (String × α)) : Table α := putAll [] entries

/-- Two tables together: where both hold a name, the second wins. -/
def merge (t u : Table α) : Table α := t.putAll u

def without (t : Table α) (name : String) : Table α := t.filter fun e => e.1 != name

def mapValues (f : α → β) (t : Table α) : Table β := t.map fun e => (e.1, f e.2)

@[simp] theorem get?_nil (name : String) : get? ([] : Table α) name = none := rfl

@[simp] theorem get?_put_self (t : Table α) (name : String) (v : α) :
    get? (put name v t) name = some v := by
  induction t with
  | nil => simp [put, get?]
  | cons e t ih =>
    obtain ⟨k, w⟩ := e
    by_cases hk : k = name
    · simp [put, get?, hk]
    · by_cases hlt : name < k <;> simp [put, get?, hk, hlt, ih]

theorem get?_put_of_ne (t : Table α) {name other : String} (v : α) (h : name ≠ other) :
    get? (put name v t) other = get? t other := by
  induction t with
  | nil => simp [put, get?, h]
  | cons e t ih =>
    obtain ⟨k, w⟩ := e
    by_cases hk : k = name
    · subst hk; simp [put, get?, h]
    · by_cases hlt : name < k
      · simp [put, get?, hk, hlt, h]
      · rw [put, if_neg hk, if_neg hlt, get?, get?, ih]

end Table

end HybridCheck
