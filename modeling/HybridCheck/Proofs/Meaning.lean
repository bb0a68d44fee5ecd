import HybridCheck.Term.Flow
import Mathlib.Data.Real.Basic
import Mathlib.Algebra.BigOperators.Group.List.Basic

/-!
# The meaning of terms

A value is a truth value or a real number. An environment gives a value to every variable and to
every reference to a variable after a jump; a term then has a value. Quantifiers range over the
values of the sort of their variable, and division by zero is zero.

The two flow primitives are read by what they stand for and not by how they are expanded. A flow
leads from the values at entry to a state after a duration: a solution is read with the clock set to
the duration, a rate is multiplied by it. An integral says that time does not run backwards and
that every exit value is the value of that variable in the state reached. A body that holds
throughout is read at every instant of the segment, in the state reached until then, where a
reference to a variable after the jump means its exit value.
-/

namespace HybridCheck

/-- A truth value or a number. -/
inductive Value where
  | truth (p : Prop)
  | number (x : ℝ)

namespace Value

/-- The truth value. A number counts as false. -/
def Holds : Value → Prop
  | truth p => p
  | number _ => False

/-- The number. A truth value counts as zero. -/
def toReal : Value → ℝ
  | truth _ => 0
  | number x => x

@[simp] theorem holds_truth (p : Prop) : (truth p).Holds = p := rfl
@[simp] theorem holds_number (x : ℝ) : (number x).Holds = False := rfl
@[simp] theorem toReal_truth (p : Prop) : (truth p).toReal = 0 := rfl
@[simp] theorem toReal_number (x : ℝ) : (number x).toReal = x := rfl

def IsOf : TermSort → Value → Prop
  | .bool, x => ∃ p, x = truth p
  | .real, x => ∃ r, x = number r
  | .int, x => ∃ n : ℤ, x = number n
  | .other _, _ => True

/-- Whether a value is of the kind of a sort: a truth value, or a number whether integer or not. -/
def Fits : TermSort → Value → Prop
  | .bool, x => ∃ p, x = truth p
  | .real, x | .int, x => ∃ r, x = number r
  | .other _, _ => True

open scoped Classical in
/-- The value found for a variable of the sort `s`, if it is of the kind of the sort, and otherwise
its own value. -/
noncomputable def found (s : TermSort) (own : Value) : Option Value → Value
  | some x => if Fits s x then x else own
  | none => own

@[simp] theorem found_none (s : TermSort) (own : Value) : found s own none = own := rfl

theorem found_some {s : TermSort} {own x : Value} (h : Fits s x) : found s own (some x) = x :=
  if_pos h

theorem fits_found {s : TermSort} {own : Value} (h : Fits s own) (x : Option Value) :
    Fits s (found s own x) := by
  cases x with
  | none => exact h
  | some x =>
    rw [found]
    split
    · assumption
    · exact h

theorem IsOf.fits {s : TermSort} {x : Value} (h : IsOf s x) : Fits s x := by
  cases s with
  | int => obtain ⟨n, rfl⟩ := h; exact ⟨n, rfl⟩
  | _ => exact h

end Value

/-- Whether two values stand in a relation. Any two values may be tested for equality; order is
that of the numbers. -/
def Relation.Compares : Relation → Value → Value → Prop
  | .eq, x, y => x = y
  | .lt, x, y => x.toReal < y.toReal
  | .le, x, y => x.toReal ≤ y.toReal
  | .gt, x, y => y.toReal < x.toReal
  | .ge, x, y => y.toReal ≤ x.toReal

/-- Values for the variables, now and after a jump. -/
@[ext] structure Env where
  now : Var → Value
  next : Var → Value

namespace Env

/-- Every variable has a value of its sort. -/
def Sorted (ρ : Env) : Prop :=
  (∀ v, Value.IsOf v.sort (ρ.now v)) ∧ ∀ v, Value.IsOf v.sort (ρ.next v)

/-- Every variable has a value of the kind of its sort. -/
def Typed (ρ : Env) : Prop :=
  (∀ v, Value.Fits v.sort (ρ.now v)) ∧ ∀ v, Value.Fits v.sort (ρ.next v)

theorem Sorted.typed {ρ : Env} (h : ρ.Sorted) : ρ.Typed :=
  ⟨fun v => (h.1 v).fits, fun v => (h.2 v).fits⟩

def blank : Env where
  now v := if v.sort = .bool then .truth False else .number 0
  next v := if v.sort = .bool then .truth False else .number 0

theorem blank_sorted : blank.Sorted := by
  have each (s : TermSort) :
      Value.IsOf s (if s = .bool then .truth False else .number 0) := by
    cases s with
    | bool => exact ⟨False, rfl⟩
    | real => exact ⟨0, rfl⟩
    | int => exact ⟨0, by simp⟩
    | other => trivial
  exact ⟨fun v => each v.sort, fun v => each v.sort⟩

def set (ρ : Env) (v : Var) (x : Value) : Env :=
  { ρ with now := fun w => if w = v then x else ρ.now w }

/-- Reads the identifiers of a table from it. -/
noncomputable def bind (ρ : Env) (t : Table Value) : Env :=
  { ρ with
    now := fun v =>
      if v.role = .logical then Value.found v.sort (ρ.now v) (t.get? v.name) else ρ.now v }

/-- Reads the references after a jump to the identifiers of a table from it. -/
noncomputable def bindNext (ρ : Env) (t : Table Value) : Env :=
  { ρ with next := fun v => Value.found v.sort (ρ.next v) (t.get? v.name) }

@[simp] theorem set_now_self (ρ : Env) (v : Var) (x : Value) : (ρ.set v x).now v = x := by
  simp [set]

theorem set_now_of_ne (ρ : Env) {v w : Var} (x : Value) (h : w ≠ v) :
    (ρ.set v x).now w = ρ.now w := by
  simp [set, h]

theorem set_set (ρ : Env) (v : Var) (x y : Value) : (ρ.set v x).set v y = ρ.set v y := by
  refine Env.ext (funext fun w => ?_) rfl
  by_cases hw : w = v <;> simp [set, hw]

theorem set_comm (ρ : Env) {v w : Var} (h : v ≠ w) (x y : Value) :
    (ρ.set v x).set w y = (ρ.set w y).set v x := by
  refine Env.ext (funext fun z => ?_) rfl
  by_cases hv : z = v
  · subst hv
    simp [set, h]
  · simp [set, hv]

@[simp] theorem set_next (ρ : Env) (v : Var) (x : Value) : (ρ.set v x).next = ρ.next := rfl

@[simp] theorem bind_next (ρ : Env) (t : Table Value) : (ρ.bind t).next = ρ.next := rfl

@[simp] theorem bindNext_now (ρ : Env) (t : Table Value) : (ρ.bindNext t).now = ρ.now := rfl

theorem bind_now_of_role {ρ : Env} {t : Table Value} {v : Var} (h : v.role ≠ .logical) :
    (ρ.bind t).now v = ρ.now v := by
  simp [bind, h]

theorem Typed.set {ρ : Env} (h : ρ.Typed) {v : Var} {x : Value} (hx : Value.Fits v.sort x) :
    (ρ.set v x).Typed := by
  refine ⟨fun w => ?_, h.2⟩
  by_cases hw : w = v
  · subst hw
    simpa using hx
  · rw [set_now_of_ne ρ x hw]
    exact h.1 w

theorem Sorted.set {ρ : Env} (h : ρ.Sorted) {v : Var} {x : Value} (hx : Value.IsOf v.sort x) :
    (ρ.set v x).Sorted := by
  refine ⟨fun w => ?_, h.2⟩
  by_cases hw : w = v
  · subst hw
    simpa using hx
  · rw [set_now_of_ne ρ x hw]
    exact h.1 w

theorem bind_set {ρ : Env} {v : Var} {x : Value} {t : Table Value} (h : v.role ≠ .logical) :
    (ρ.set v x).bind t = (ρ.bind t).set v x := by
  refine Env.ext (funext fun w => ?_) rfl
  by_cases hw : w = v
  · subst hw
    simp [bind, h]
  · rw [set_now_of_ne _ _ hw]
    simp [bind, set, hw]

theorem Typed.bind {ρ : Env} (h : ρ.Typed) (t : Table Value) : (ρ.bind t).Typed := by
  refine ⟨fun v => ?_, h.2⟩
  dsimp only [Env.bind]
  split
  · exact Value.fits_found (h.1 v) _
  · exact h.1 v

theorem Typed.bindNext {ρ : Env} (h : ρ.Typed) (t : Table Value) : (ρ.bindNext t).Typed :=
  ⟨h.1, fun v => Value.fits_found (h.2 v) _⟩

end Env

/-- The value of one identifier after the duration `d` of a flow, given the values of its rates and
solutions. -/
def FlowOf.moved (rates solution : Table Value) (d : ℝ) (id : String) (x : Value) : Value :=
  match solution.get? id with
  | some y => y
  | none =>
    match rates.get? id with
    | some r => .number (x.toReal + r.toReal * d)
    | none => x

def FlowOf.reach (rates solution entry : Table Value) (d : ℝ) : Table Value :=
  entry.map fun e => (e.1, moved rates solution d e.1 e.2)

namespace Term

open scoped Classical in
mutual

noncomputable def eval : Term → Env → Value
  | var v, ρ => ρ.now v
  | bool b, _ => .truth (b = true)
  | num _ q, _ => .number q
  | next v, ρ => ρ.next v
  | not a, ρ => .truth (¬(eval a ρ).Holds)
  | and as, ρ => .truth (∀ x ∈ evalAll as ρ, x.Holds)
  | or as, ρ => .truth (∃ x ∈ evalAll as ρ, x.Holds)
  | implies a b, ρ => .truth ((eval a ρ).Holds → (eval b ρ).Holds)
  | ite c a b, ρ => if (eval c ρ).Holds then eval a ρ else eval b ρ
  | cmp r a b, ρ => .truth (r.Compares (eval a ρ) (eval b ρ))
  | add _ as, ρ => .number ((evalAll as ρ).map Value.toReal).sum
  | sub a b, ρ => .number ((eval a ρ).toReal - (eval b ρ).toReal)
  | mul _ as, ρ => .number ((evalAll as ρ).map Value.toReal).prod
  | div a b, ρ => .number ((eval a ρ).toReal / (eval b ρ).toReal)
  | neg a, ρ => .number (-(eval a ρ).toReal)
  | quant .all v body, ρ => .truth (∀ x, Value.IsOf v.sort x → (eval body (ρ.set v x)).Holds)
  | quant .any v body, ρ => .truth (∃ x, Value.IsOf v.sort x ∧ (eval body (ρ.set v x)).Holds)
  | integral ⟨⟨clock, rates, solution⟩, time, entry, exit, mode, _⟩, ρ =>
    let d := (eval time ρ).toReal
    let start := evalTable entry ρ
    let context := ρ.bind ((evalTable mode ρ).merge start)
    let reached := FlowOf.reach (evalTable rates context)
      (evalTable solution (context.set clock (.number d))) start d
    .truth (0 ≤ d ∧ ∀ e ∈ evalTable exit ρ, reached.get? e.1 = some e.2)
  | throughout ⟨⟨clock, rates, solution⟩, time, entry, exit, mode, _⟩ body, ρ =>
    let start := evalTable entry ρ
    let ρ' := ρ.bindNext (evalTable exit ρ)
    let context := ρ'.bind ((evalTable mode ρ).merge start)
    .truth (∀ c : ℝ, 0 ≤ c → c ≤ (eval time ρ).toReal →
      let reached := FlowOf.reach (evalTable rates context)
        (evalTable solution (context.set clock (.number c))) start c
      (eval body ((ρ'.bind ((evalTable mode ρ).merge reached)).set clock (.number c))).Holds)

noncomputable def evalAll : List Term → Env → List Value
  | [], _ => []
  | a :: as, ρ => eval a ρ :: evalAll as ρ

noncomputable def evalTable : List (String × Term) → Env → Table Value
  | [], _ => []
  | (k, a) :: t, ρ => (k, eval a ρ) :: evalTable t ρ

end

@[simp] theorem evalAll_eq (as : List Term) (ρ : Env) : evalAll as ρ = as.map (eval · ρ) := by
  induction as with
  | nil => rfl
  | cons a as ih => rw [evalAll, ih, List.map_cons]

theorem evalTable_eq (t : List (String × Term)) (ρ : Env) :
    evalTable t ρ = Table.mapValues (eval · ρ) t := by
  induction t with
  | nil => rfl
  | cons e t ih =>
    obtain ⟨k, a⟩ := e
    rw [evalTable, ih]
    rfl

end Term

namespace FlowOf

/-- The state that a flow reaches after the duration `d` from the values `entry`, the discrete
variables having the values `mode`. -/
noncomputable def stateAt (f : Flow) (ρ : Env) (mode entry : Table Value) (d : ℝ) : Table Value :=
  let context := ρ.bind (mode.merge entry)
  reach (Term.evalTable f.rates context)
    (Term.evalTable f.solution (context.set f.clock (.number d))) entry d

/-- The environment at the instant `d` of a flow: identifiers are read from the state reached and
the clock shows the instant. -/
noncomputable def instant (f : Flow) (ρ : Env) (mode entry : Table Value) (d : ℝ) : Env :=
  (ρ.bind (mode.merge (f.stateAt ρ mode entry d))).set f.clock (.number d)

end FlowOf

namespace Term

theorem eval_integral (seg : Segment) (ρ : Env) :
    (integral seg).eval ρ = .truth (0 ≤ (seg.time.eval ρ).toReal ∧
      ∀ e ∈ evalTable seg.exit ρ, (seg.flow.stateAt ρ (evalTable seg.mode ρ) (evalTable seg.entry ρ)
        (seg.time.eval ρ).toReal).get? e.1 = some e.2) := by
  obtain ⟨⟨clock, rates, solution⟩, time, entry, exit, mode, ends⟩ := seg
  rw [eval]
  rfl

theorem eval_throughout (seg : Segment) (body : Term) (ρ : Env) :
    (throughout seg body).eval ρ = .truth (∀ c : ℝ, 0 ≤ c → c ≤ (seg.time.eval ρ).toReal →
      (body.eval (seg.flow.instant (ρ.bindNext (evalTable seg.exit ρ)) (evalTable seg.mode ρ)
        (evalTable seg.entry ρ) c)).Holds) := by
  obtain ⟨⟨clock, rates, solution⟩, time, entry, exit, mode, ends⟩ := seg
  rw [eval]
  rfl

end Term

end HybridCheck
