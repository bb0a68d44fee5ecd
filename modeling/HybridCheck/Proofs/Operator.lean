import HybridCheck.Proofs.Meaning

/-!
# Terms as operators applied to operands

Apart from variables, references after a jump, quantifiers and flow primitives, a term is an
operator applied to operands. The operator alone says how the value of the term comes from the
values of the operands, which sorts the operands must have, and which folding operation builds the
term anew. What is proved of all operators at once is proved here per constructor, so that later
arguments about terms meet only six kinds of node.
-/

namespace HybridCheck

namespace TermSort

def numeric : TermSort → Bool
  | real | int => true
  | bool | other _ => false

def alike (s t : TermSort) : Bool := s = t || (s.numeric && t.numeric)

@[simp] theorem numeric_bool : bool.numeric = false := rfl
@[simp] theorem numeric_real : real.numeric = true := rfl
@[simp] theorem numeric_int : int.numeric = true := rfl

@[simp] theorem alike_refl (s : TermSort) : s.alike s = true := by simp [alike]

theorem alike_symm {s t : TermSort} (h : s.alike t = true) : t.alike s = true := by
  simp only [alike, Bool.or_eq_true, decide_eq_true_eq, Bool.and_eq_true] at h ⊢
  exact h.imp Eq.symm And.symm

theorem alike_trans {r s t : TermSort} (h : r.alike s = true) (h' : s.alike t = true) :
    r.alike t = true := by
  simp only [alike, Bool.or_eq_true, decide_eq_true_eq, Bool.and_eq_true] at h h' ⊢
  rcases h with rfl | ⟨hr, hs⟩
  · exact h'
  · rcases h' with rfl | ⟨_, ht⟩
    · exact Or.inr ⟨hr, hs⟩
    · exact Or.inr ⟨hr, ht⟩

theorem alike_of_numeric {s t : TermSort} (hs : s.numeric = true) (ht : t.numeric = true) :
    s.alike t = true := by
  simp [alike, hs, ht]

theorem numeric_of_alike {s t : TermSort} (h : s.alike t = true) (ht : t.numeric = true) :
    s.numeric = true := by
  simp only [alike, Bool.or_eq_true, decide_eq_true_eq, Bool.and_eq_true] at h
  rcases h with rfl | h
  · exact ht
  · exact h.1

@[simp] theorem alike_bool {s : TermSort} : s.alike bool = true ↔ s = bool := by
  simp [alike]

end TermSort

@[simp] theorem NumSort.numeric_toSort (s : NumSort) : s.toSort.numeric = true := by
  cases s <;> rfl

theorem Value.Fits.of_alike {s t : TermSort} {x : Value} (h : Value.Fits s x)
    (hst : s.alike t = true) : Value.Fits t x := by
  simp only [TermSort.alike, Bool.or_eq_true, decide_eq_true_eq, Bool.and_eq_true] at hst
  rcases hst with rfl | ⟨hs, ht⟩
  · exact h
  · cases s <;> cases hs <;> cases t <;> cases ht <;> exact h

/-- An operator, constants being operators without operands. -/
inductive Operator where
  | bool (b : Bool)
  | num (s : NumSort) (q : Rat)
  | not
  | and
  | or
  | implies
  | ite
  | cmp (r : Relation)
  | add (s : NumSort)
  | sub
  | mul (s : NumSort)
  | div
  | neg

namespace Operator

open scoped Classical in
noncomputable def apply : Operator → List Value → Value
  | bool b, _ => .truth (b = true)
  | num _ q, _ => .number q
  | not, [x] => .truth ¬x.Holds
  | and, xs => .truth (∀ x ∈ xs, x.Holds)
  | or, xs => .truth (∃ x ∈ xs, x.Holds)
  | implies, [x, y] => .truth (x.Holds → y.Holds)
  | ite, [z, x, y] => if z.Holds then x else y
  | cmp r, [x, y] => .truth (r.Compares x y)
  | add _, xs => .number (xs.map Value.toReal).sum
  | sub, [x, y] => .number (x.toReal - y.toReal)
  | mul _, xs => .number (xs.map Value.toReal).prod
  | div, [x, y] => .number (x.toReal / y.toReal)
  | neg, [x] => .number (-x.toReal)
  | _, _ => .truth False

/-- The value of an operator on the values of its operands, where a number over zero is what
`overZero` makes of it. -/
noncomputable def applyWith (overZero : ℝ → ℝ) : Operator → List Value → Value
  | div, [x, y] => .number (if y.toReal = 0 then overZero x.toReal else x.toReal / y.toReal)
  | o, xs => o.apply xs

/-- In the meaning of terms a number over zero is zero. -/
theorem applyWith_zero (o : Operator) (xs : List Value) :
    o.applyWith (fun _ => 0) xs = o.apply xs := by
  unfold applyWith
  split
  · next x y =>
    by_cases hy : y.toReal = 0 <;> simp [apply, hy]
  · rfl

def build : Operator → List Term → Attempt Term
  | bool b, _ => .ok (.bool b)
  | num s q, _ => .ok (.num s q)
  | not, [a] => .ok a.mkNot
  | and, as => .ok (.mkAnd as)
  | or, as => .ok (.mkOr as)
  | implies, [a, b] => .ok (.mkImplies a b)
  | ite, [c, a, b] => .ok (.mkIte c a b)
  | cmp r, [a, b] => .ok (.mkCmp r a b)
  | add _, as => Term.mkAdd as
  | sub, [a, b] => Term.mkSub a b
  | mul _, as => Term.mkMul as
  | div, [a, b] => Term.mkDiv a b
  | neg, [a] => Term.mkNeg a
  | _, _ => .error (.fault .missingOperand)

def accepts : Operator → List TermSort → Bool
  | bool _, [] | num .., [] => true
  | not, [s] => s = .bool
  | and, ss | or, ss => ss.all (· = .bool)
  | implies, [s, t] => s = .bool && t = .bool
  | ite, [c, s, t] => c = .bool && s.alike t
  | cmp .eq, [s, t] => s.alike t
  | cmp _, [s, t] | sub, [s, t] | div, [s, t] => s.numeric && t.numeric
  | add _, ss | mul _, ss => ss.all (·.numeric)
  | neg, [s] => s.numeric
  | _, _ => false

def result : Operator → List TermSort → TermSort
  | num s _, _ | add s, _ | mul s, _ => s.toSort
  | ite, [_, s, _] => s
  | sub, [s, t] => if s = .real ∨ t = .real then .real else .int
  | div, _ => .real
  | neg, [s] => s
  | _, _ => .bool

end Operator

namespace Term

def operator? : Term → Option Operator
  | .bool b => some (.bool b)
  | .num s q => some (.num s q)
  | .not _ => some .not
  | .and _ => some .and
  | .or _ => some .or
  | .implies .. => some .implies
  | .ite .. => some .ite
  | .cmp r _ _ => some (.cmp r)
  | .add s _ => some (.add s)
  | .sub .. => some .sub
  | .mul s _ => some (.mul s)
  | .div .. => some .div
  | .neg _ => some .neg
  | .var _ | .next _ | .quant .. | .integral _ | .throughout .. => none

def operands : Term → List Term
  | .not a | .neg a => [a]
  | .and as | .or as | .add _ as | .mul _ as => as
  | .implies a b | .cmp _ a b | .sub a b | .div a b => [a, b]
  | .ite c a b => [c, a, b]
  | .var _ | .next _ | .bool _ | .num .. | .quant .. | .integral _ | .throughout .. => []

theorem sizeOf_operand_lt {t a : Term} (h : a ∈ t.operands) : sizeOf a < sizeOf t := by
  have member {as : List Term} (ha : a ∈ as) := List.sizeOf_lt_of_mem ha
  cases t <;> simp only [operands, List.mem_cons, List.not_mem_nil, or_false] at h
  case and as => have := member h; simp +arith; omega
  case or as => have := member h; simp +arith; omega
  case add s as => have := member h; simp +arith; omega
  case mul s as => have := member h; simp +arith; omega
  case not b => subst h; simp +arith
  case neg b => subst h; simp +arith
  case ite c b d => rcases h with rfl | rfl | rfl <;> simp +arith
  all_goals rcases h with rfl | rfl <;> simp +arith

/-- Induction over terms, all operators together. -/
@[elab_as_elim]
theorem induct {motive : Term → Prop}
    (operator : ∀ t o, t.operator? = some o → (∀ a ∈ t.operands, motive a) → motive t)
    (var : ∀ v, motive (.var v)) (next : ∀ v, motive (.next v))
    (quant : ∀ q v body, motive body → motive (.quant q v body))
    (integral : ∀ seg, motive (.integral seg))
    (throughout : ∀ seg body, motive (.throughout seg body)) (t : Term) : motive t := by
  induction h : sizeOf t using Nat.strongRecOn generalizing t with
  | ind n ih =>
    subst h
    cases ho : t.operator? with
    | some o => exact operator t o ho fun a ha => ih _ (sizeOf_operand_lt ha) a rfl
    | none =>
      cases t with
      | var v => exact var v
      | next v => exact next v
      | quant q v body => exact quant q v body (ih _ (by simp +arith) body rfl)
      | integral seg => exact integral seg
      | throughout seg body => exact throughout seg body
      | _ => cases ho

theorem eval_operator {t : Term} {o : Operator} (h : t.operator? = some o) (ρ : Env) :
    t.eval ρ = o.apply (t.operands.map (·.eval ρ)) := by
  cases t <;> cases h <;> simp [eval, Operator.apply, operands]

theorem sort_operator {t : Term} {o : Operator} (h : t.operator? = some o) :
    t.sort = o.result (t.operands.map sort) := by
  cases t <;> cases h <;> simp [sort, Operator.result, operands]

section Transform

variable (r : Replacement)

private theorem transform_unary (o : Operator) (a : Term) :
    (do rebuild1 (fun a => o.build [a]) (← transform? r a)) =
      (do rebuildAll o.build (← transformAll? r [a])) := by
  cases h : transform? r a with
  | error e => simp [transformAll?, h, bind, Except.bind]
  | ok a' =>
    cases a' <;> simp [transformAll?, h, bind, Except.bind, pure, Except.pure, rebuild1, rebuildAll]

private theorem transform_binary (o : Operator) (a b : Term) :
    (do rebuild2 (fun a b => o.build [a, b])
          (changedPair a b (← transform? r a) (← transform? r b))) =
      (do rebuildAll o.build (← transformAll? r [a, b])) := by
  cases ha : transform? r a with
  | error e => simp [transformAll?, ha, bind, Except.bind]
  | ok a' =>
    cases hb : transform? r b with
    | error e => simp [transformAll?, ha, hb, bind, Except.bind]
    | ok b' =>
      cases a' <;> cases b' <;>
        simp [transformAll?, ha, hb, bind, Except.bind, pure, Except.pure, changedPair, rebuild2,
          rebuildAll]

private theorem transform_ternary (c a b : Term) :
    transform? r (.ite c a b) =
      (do rebuildAll (Operator.build .ite) (← transformAll? r [c, a, b])) := by
  cases hc : transform? r c with
  | error e => simp [transform?, transformAll?, hc, bind, Except.bind]
  | ok c' =>
    cases ha : transform? r a with
    | error e => simp [transform?, transformAll?, hc, ha, bind, Except.bind]
    | ok a' =>
      cases hb : transform? r b with
      | error e => simp [transform?, transformAll?, hc, ha, hb, bind, Except.bind]
      | ok b' =>
        cases c' <;> cases a' <;> cases b' <;>
          simp [transform?, transformAll?, hc, ha, hb, bind, Except.bind, pure, Except.pure,
            changedPair, rebuildAll, Operator.build, Except.map]

/-- An operator is rebuilt by its folding operation if one of its operands changed. -/
theorem transform?_operator {t : Term} {o : Operator} (h : t.operator? = some o) :
    t.transform? r = (do rebuildAll o.build (← transformAll? r t.operands)) := by
  cases t <;> cases h
  case bool | num => simp [transform?, transformAll?, operands, bind, Except.bind, rebuildAll]
  case not a => rw [transform?]; exact transform_unary r .not a
  case neg a => rw [transform?]; exact transform_unary r .neg a
  case and | or => rw [transform?]; rfl
  case add | mul => rw [transform?]; rfl
  case implies a b => rw [transform?]; exact transform_binary r .implies a b
  case cmp rel a b => rw [transform?]; exact transform_binary r (.cmp rel) a b
  case sub a b => rw [transform?]; exact transform_binary r .sub a b
  case div a b => rw [transform?]; exact transform_binary r .div a b
  case ite c a b => exact transform_ternary r c a b

end Transform

end Term
end HybridCheck
