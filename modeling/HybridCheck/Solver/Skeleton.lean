import HybridCheck.Term.Text

/-!
# The propositional skeleton of constraints

A set of constraints is abstracted to its Boolean skeleton. Boolean variables keep their identity;
every other atom, a comparison or a quantified constraint, becomes a propositional atom shared by
atoms of the same text. If the skeletons cannot be true together, neither can the constraints.

`Skeleton.refuted` decides this by case distinction. An atom that a conjunction forces is chosen
first, so that one of its two cases closes at once; otherwise the first atom is. Every case replaces
all occurrences of an atom, so the number of occurrences decreases.
-/

namespace HybridCheck

/-- A propositional atom: a Boolean variable by its name, or any other constraint by its text. -/
inductive SkeletonAtom where
  | symbol (name : String)
  | constraint (text : String)
  deriving DecidableEq, Repr

inductive Skeleton where
  | const (b : Bool)
  | atom (a : SkeletonAtom)
  | not (p : Skeleton)
  | and (p q : Skeleton)
  | or (p q : Skeleton)
  | iff (p q : Skeleton)
  | ite (c p q : Skeleton)
  deriving DecidableEq, Repr

namespace Skeleton

def eval (v : SkeletonAtom → Bool) : Skeleton → Bool
  | const b => b
  | atom a => v a
  | not p => !p.eval v
  | and p q => p.eval v && q.eval v
  | or p q => p.eval v || q.eval v
  | iff p q => p.eval v == q.eval v
  | ite c p q => if c.eval v then p.eval v else q.eval v

def mkNot : Skeleton → Skeleton
  | const b => const !b
  | not p => p
  | p => not p

def mkAnd : Skeleton → Skeleton → Skeleton
  | const true, q => q
  | const false, _ => const false
  | p, const true => p
  | _, const false => const false
  | p, q => and p q

def mkOr : Skeleton → Skeleton → Skeleton
  | const true, _ => const true
  | const false, q => q
  | _, const true => const true
  | p, const false => p
  | p, q => or p q

def mkIff : Skeleton → Skeleton → Skeleton
  | const true, q => q
  | const false, q => mkNot q
  | p, const true => p
  | p, const false => mkNot p
  | p, q => iff p q

def mkIte : Skeleton → Skeleton → Skeleton → Skeleton
  | const true, p, _ => p
  | const false, _, q => q
  | c, p, q => ite c p q

def assign (a : SkeletonAtom) (b : Bool) : Skeleton → Skeleton
  | const c => const c
  | atom x => if x = a then const b else atom x
  | not p => mkNot (p.assign a b)
  | and p q => mkAnd (p.assign a b) (q.assign a b)
  | or p q => mkOr (p.assign a b) (q.assign a b)
  | iff p q => mkIff (p.assign a b) (q.assign a b)
  | ite c p q => mkIte (c.assign a b) (p.assign a b) (q.assign a b)

def weight : Skeleton → Nat
  | const _ => 0
  | atom _ => 1
  | not p => p.weight
  | and p q | or p q | iff p q => p.weight + q.weight
  | ite c p q => c.weight + p.weight + q.weight

def occurs (a : SkeletonAtom) : Skeleton → Bool
  | const _ => false
  | atom x => x = a
  | not p => p.occurs a
  | and p q | or p q | iff p q => p.occurs a || q.occurs a
  | ite c p q => c.occurs a || p.occurs a || q.occurs a

/-- An atom that must have a certain value for the formula to be true. -/
def forced? : Skeleton → Option (SkeletonAtom × Bool)
  | atom a => some (a, true)
  | not (atom a) => some (a, false)
  | and p q => p.forced?.or q.forced?
  | _ => none

/-- The first atom, with the value that makes its occurrence true. -/
def first? : Skeleton → Option (SkeletonAtom × Bool)
  | const _ => none
  | atom a => some (a, true)
  | not p => p.first?.map fun (a, b) => (a, !b)
  | and p q | or p q | iff p q => p.first?.or q.first?
  | ite c p q => (c.first?.or p.first?).or q.first?

theorem weight_mkNot_le (p : Skeleton) : (mkNot p).weight ≤ p.weight := by
  cases p <;> simp [mkNot, weight]

theorem weight_mkAnd_le (p q : Skeleton) : (mkAnd p q).weight ≤ p.weight + q.weight := by
  unfold mkAnd; split <;> simp [weight]

theorem weight_mkOr_le (p q : Skeleton) : (mkOr p q).weight ≤ p.weight + q.weight := by
  unfold mkOr; split <;> simp [weight]

theorem weight_mkIff_le (p q : Skeleton) : (mkIff p q).weight ≤ p.weight + q.weight := by
  have := weight_mkNot_le p
  have := weight_mkNot_le q
  unfold mkIff; split <;> simp_all [weight]

theorem weight_mkIte_le (c p q : Skeleton) :
    (mkIte c p q).weight ≤ c.weight + p.weight + q.weight := by
  unfold mkIte; split <;> simp only [weight] <;> omega

theorem weight_assign_le (a : SkeletonAtom) (b : Bool) (p : Skeleton) :
    (p.assign a b).weight ≤ p.weight := by
  induction p with
  | const c => simp [assign]
  | atom x => by_cases h : x = a <;> simp [assign, weight, h]
  | not p ih => exact Nat.le_trans (weight_mkNot_le _) ih
  | and p q ihp ihq => exact Nat.le_trans (weight_mkAnd_le _ _) (Nat.add_le_add ihp ihq)
  | or p q ihp ihq => exact Nat.le_trans (weight_mkOr_le _ _) (Nat.add_le_add ihp ihq)
  | iff p q ihp ihq => exact Nat.le_trans (weight_mkIff_le _ _) (Nat.add_le_add ihp ihq)
  | ite c p q ihc ihp ihq =>
    exact Nat.le_trans (weight_mkIte_le _ _ _) (Nat.add_le_add (Nat.add_le_add ihc ihp) ihq)

/-- Deciding an atom that occurs leaves fewer occurrences. -/
theorem weight_assign_lt {a : SkeletonAtom} {b : Bool} {p : Skeleton} (h : p.occurs a) :
    (p.assign a b).weight < p.weight := by
  induction p with
  | const c => simp [occurs] at h
  | atom x => simp only [occurs, decide_eq_true_eq] at h; simp [assign, weight, h]
  | not p ih => exact Nat.lt_of_le_of_lt (weight_mkNot_le _) (ih h)
  | and p q ihp ihq =>
    have hp := weight_assign_le a b p
    have hq := weight_assign_le a b q
    have := weight_mkAnd_le (p.assign a b) (q.assign a b)
    simp only [occurs, Bool.or_eq_true] at h
    simp only [assign, weight]
    rcases h with h | h
    · have := ihp h; omega
    · have := ihq h; omega
  | or p q ihp ihq =>
    have hp := weight_assign_le a b p
    have hq := weight_assign_le a b q
    have := weight_mkOr_le (p.assign a b) (q.assign a b)
    simp only [occurs, Bool.or_eq_true] at h
    simp only [assign, weight]
    rcases h with h | h
    · have := ihp h; omega
    · have := ihq h; omega
  | iff p q ihp ihq =>
    have hp := weight_assign_le a b p
    have hq := weight_assign_le a b q
    have := weight_mkIff_le (p.assign a b) (q.assign a b)
    simp only [occurs, Bool.or_eq_true] at h
    simp only [assign, weight]
    rcases h with h | h
    · have := ihp h; omega
    · have := ihq h; omega
  | ite c p q ihc ihp ihq =>
    have hc := weight_assign_le a b c
    have hp := weight_assign_le a b p
    have hq := weight_assign_le a b q
    have := weight_mkIte_le (c.assign a b) (p.assign a b) (q.assign a b)
    simp only [occurs, Bool.or_eq_true] at h
    simp only [assign, weight]
    rcases h with (h | h) | h
    · have := ihc h; omega
    · have := ihp h; omega
    · have := ihq h; omega

/-- The next atom to decide, with the value to try first. -/
def choice? (ps : List Skeleton) : Option (SkeletonAtom × Bool) :=
  (ps.findSome? forced?).or (ps.findSome? first?)

theorem occurs_of_forced? {p : Skeleton} {c : SkeletonAtom × Bool} (h : p.forced? = some c) :
    p.occurs c.1 := by
  induction p with
  | atom a => simp only [forced?, Option.some.injEq] at h; simp [occurs, ← h]
  | not p ih =>
    cases p with
    | atom a => simp only [forced?, Option.some.injEq] at h; simp [occurs, ← h]
    | _ => simp [forced?] at h
  | and p q ihp ihq =>
    simp only [forced?, Option.or_eq_some_iff] at h
    rcases h with h | ⟨_, h⟩
    · simp [occurs, ihp h]
    · simp [occurs, ihq h]
  | _ => simp [forced?] at h

theorem occurs_of_first? {p : Skeleton} {c : SkeletonAtom × Bool} (h : p.first? = some c) :
    p.occurs c.1 := by
  induction p generalizing c with
  | const b => simp [first?] at h
  | atom a => simp only [first?, Option.some.injEq] at h; simp [occurs, ← h]
  | not p ih =>
    simp only [first?, Option.map_eq_some_iff] at h
    obtain ⟨d, hd, rfl⟩ := h
    have := ih hd
    simpa [occurs] using this
  | and p q ihp ihq | or p q ihp ihq | iff p q ihp ihq =>
    simp only [first?, Option.or_eq_some_iff] at h
    rcases h with h | ⟨_, h⟩
    · simp [occurs, ihp h]
    · simp [occurs, ihq h]
  | ite c p q ihc ihp ihq =>
    simp only [first?, Option.or_eq_some_iff, Option.or_eq_none_iff] at h
    rcases h with (h | ⟨_, h⟩) | ⟨_, h⟩
    · simp [occurs, ihc h]
    · simp [occurs, ihp h]
    · simp [occurs, ihq h]

/-- The chosen atom occurs. -/
theorem exists_occurs_of_choice? {ps : List Skeleton} {c : SkeletonAtom × Bool}
    (h : choice? ps = some c) : ∃ p ∈ ps, p.occurs c.1 := by
  simp only [choice?, Option.or_eq_some_iff] at h
  rcases h with h | ⟨_, h⟩
  · obtain ⟨p, hp, hc⟩ := List.exists_of_findSome?_eq_some h
    exact ⟨p, hp, occurs_of_forced? hc⟩
  · obtain ⟨p, hp, hc⟩ := List.exists_of_findSome?_eq_some h
    exact ⟨p, hp, occurs_of_first? hc⟩

def assignAll (a : SkeletonAtom) (b : Bool) (ps : List Skeleton) : List Skeleton :=
  ps.map (assign a b)

def totalWeight (ps : List Skeleton) : Nat := (ps.map weight).foldr (· + ·) 0

theorem totalWeight_assignAll_le (a : SkeletonAtom) (b : Bool) (ps : List Skeleton) :
    totalWeight (assignAll a b ps) ≤ totalWeight ps := by
  induction ps with
  | nil => simp [totalWeight, assignAll]
  | cons p ps ih =>
    have := weight_assign_le a b p
    simp only [totalWeight, assignAll, List.map_cons, List.foldr_cons] at ih ⊢
    omega

theorem totalWeight_assignAll_lt {a : SkeletonAtom} {b : Bool} {ps : List Skeleton}
    (h : ∃ p ∈ ps, p.occurs a) : totalWeight (assignAll a b ps) < totalWeight ps := by
  induction ps with
  | nil => simp at h
  | cons p ps ih =>
    simp only [List.mem_cons, exists_eq_or_imp] at h
    have hp := weight_assign_le a b p
    have hps := totalWeight_assignAll_le a b ps
    simp only [totalWeight, assignAll, List.map_cons, List.foldr_cons] at ih hps ⊢
    rcases h with h | h
    · have := weight_assign_lt (b := b) h; omega
    · have := ih h; omega

def refuted (ps : List Skeleton) : Bool :=
  if ps.contains (const false) then true
  else
    match _h : choice? ps with
    | none => false
    | some (a, b) => refuted (assignAll a b ps) && refuted (assignAll a (!b) ps)
termination_by totalWeight ps
decreasing_by
  all_goals exact totalWeight_assignAll_lt (exists_occurs_of_choice? _h)

mutual

/-- The skeleton of a constraint. A constant counts by its truth value; a Boolean variable that a
quantifier may bind is an atom like any other constraint. -/
def ofTerm : Term → Skeleton
  | .bool b => const b
  | .num .. => const false
  | t@(.var v) =>
    if v.sort = .bool ∧ v.role ≠ .bound then atom (.symbol v.name) else atom (.constraint t.text)
  | .not a => mkNot (ofTerm a)
  | .and as => conjunction as
  | .or as => disjunction as
  | .implies a b => mkOr (mkNot (ofTerm a)) (ofTerm b)
  | t@(.cmp .eq a b) =>
    if a.sort = .bool then mkIff (ofTerm a) (ofTerm b) else atom (.constraint t.text)
  | t@(.ite c a b) =>
    if a.sort = .bool then mkIte (ofTerm c) (ofTerm a) (ofTerm b) else atom (.constraint t.text)
  | t => atom (.constraint t.text)

def conjunction : List Term → Skeleton
  | [] => const true
  | a :: as => mkAnd (ofTerm a) (conjunction as)

def disjunction : List Term → Skeleton
  | [] => const false
  | a :: as => mkOr (ofTerm a) (disjunction as)

end

end Skeleton

/-- Whether the skeletons of constraints cannot be true together, so that the constraints cannot
either. -/
def refutes (terms : List Term) : Bool := Skeleton.refuted (terms.map Skeleton.ofTerm)

end HybridCheck
