import HybridCheck.Proofs.Folding

/-!
# Folding under every meaning

Two things in the meaning of terms are a matter of choice: what a number over zero is, and what the
flow primitives say. Folding depends on neither. Whatever they are taken to be, a folding operation
gives a term with the value of the operator on the values of the operands, and a folded quantifier
ranges over the values of the sort of its variable.
-/

namespace HybridCheck

/-- What is chosen in the meaning of terms. -/
structure Meaning where
  /-- A number over zero. -/
  overZero : ℝ → ℝ
  /-- The truth of an integral, or of a body that holds throughout a segment. -/
  primitive : Segment → Option Term → Env → Prop

noncomputable abbrev Meaning.apply (m : Meaning) (o : Operator) (xs : List Value) : Value :=
  o.applyWith m.overZero xs

namespace Term

mutual

noncomputable def value (m : Meaning) : Term → Env → Value
  | var v, ρ => ρ.now v
  | next v, ρ => ρ.next v
  | bool b, _ => m.apply (.bool b) []
  | num s q, _ => m.apply (.num s q) []
  | not a, ρ => m.apply .not [value m a ρ]
  | and as, ρ => m.apply .and (valueAll m as ρ)
  | or as, ρ => m.apply .or (valueAll m as ρ)
  | implies a b, ρ => m.apply .implies [value m a ρ, value m b ρ]
  | ite c a b, ρ => m.apply .ite [value m c ρ, value m a ρ, value m b ρ]
  | cmp r a b, ρ => m.apply (.cmp r) [value m a ρ, value m b ρ]
  | add s as, ρ => m.apply (.add s) (valueAll m as ρ)
  | sub a b, ρ => m.apply .sub [value m a ρ, value m b ρ]
  | mul s as, ρ => m.apply (.mul s) (valueAll m as ρ)
  | div a b, ρ => m.apply .div [value m a ρ, value m b ρ]
  | neg a, ρ => m.apply .neg [value m a ρ]
  | quant .all v body, ρ => .truth (∀ x, Value.IsOf v.sort x → (value m body (ρ.set v x)).Holds)
  | quant .any v body, ρ => .truth (∃ x, Value.IsOf v.sort x ∧ (value m body (ρ.set v x)).Holds)
  | integral seg, ρ => .truth (m.primitive seg none ρ)
  | throughout seg body, ρ => .truth (m.primitive seg (some body) ρ)

noncomputable def valueAll (m : Meaning) : List Term → Env → List Value
  | [], _ => []
  | a :: as, ρ => value m a ρ :: valueAll m as ρ

end

variable (m : Meaning)

@[simp] theorem valueAll_eq (as : List Term) (ρ : Env) :
    valueAll m as ρ = as.map (·.value m ρ) := by
  induction as with
  | nil => rfl
  | cons a as ih => rw [valueAll, ih, List.map_cons]

theorem value_operator {t : Term} {o : Operator} (h : t.operator? = some o) (ρ : Env) :
    t.value m ρ = m.apply o (t.operands.map (·.value m ρ)) := by
  cases t <;> cases h <;> simp [value, operands]

@[simp] theorem value_var (v : Var) (ρ : Env) : (var v).value m ρ = ρ.now v := by rw [value]

@[simp] theorem value_bool (b : Bool) (ρ : Env) : (bool b).value m ρ = .truth (b = true) := by
  rw [value]
  rfl

@[simp] theorem value_num (s : NumSort) (q : Rat) (ρ : Env) :
    (num s q).value m ρ = .number q := by
  rw [value]
  rfl

end Term

namespace Meaning

open Term

/-- The meaning in which a number over zero is zero and the flow primitives speak of flows. -/
noncomputable def standard : Meaning where
  overZero _ := 0
  primitive
    | seg, none, ρ => ((integral seg).eval ρ).Holds
    | seg, some body, ρ => ((throughout seg body).eval ρ).Holds

theorem value_standard (t : Term) (ρ : Env) : t.value standard ρ = t.eval ρ := by
  induction t using Term.induct generalizing ρ with
  | operator t o ho ih =>
    rw [value_operator _ ho, eval_operator ho, List.map_congr_left fun a ha => ih a ha ρ]
    exact Operator.applyWith_zero _ _
  | var | next => simp only [value, eval]
  | quant q v body ih => cases q <;> simp only [value, eval, ih]
  | integral seg =>
    rw [value, eval_integral]
    simp only [standard, eval_integral, Value.holds_truth]
  | throughout seg body =>
    rw [value, eval_throughout]
    simp only [standard, eval_throughout, Value.holds_truth]

variable (m : Meaning)

noncomputable def interpretation {judge : Judge} {ρ : Env} (hρ : ρ.Typed) :
    Interpretation judge where
  overZero := m.overZero
  value t := t.value m ρ
  operator t o ho := value_operator m ho ρ
  leaf t ho _ := by
    cases t with
    | var v =>
      rw [value]
      exact hρ.1 v
    | next v =>
      rw [value]
      exact hρ.2 v
    | quant q v body => cases q <;> exact ⟨_, value.eq_def ..⟩
    | integral seg => exact ⟨_, value.eq_def ..⟩
    | throughout seg body => exact ⟨_, value.eq_def ..⟩
    | _ => cases ho

theorem value_mkQuant {q : Quantifier} {v : Var} {body : Term} (hs : body.sort = .bool)
    (ρ : Env) : (mkQuant q v body).value m ρ = (quant q v body).value m ρ := by
  rw [mkQuant]
  split
  · next b hb =>
    obtain rfl := eq_bool_of_truth? hb hs
    cases q
    · rw [value_bool, value]
      simp only [value_bool, Value.holds_truth, Value.forall_isOf_const]
    · rw [value_bool, value]
      simp only [value_bool, Value.holds_truth, Value.exists_isOf_const]
  · rfl

/-- Folding does not show in values: on well-sorted operands every operation has an answer, whose
value is that of the operator on the values of the operands. -/
theorem folding_keeps_values {ρ : Env} (hρ : ρ.Typed) :
    (∀ (o : Operator) (as : List Term), (∀ a ∈ as, a.sorted anyFlow = true) →
      o.accepts (as.map sort) = true →
        ∃ u, o.build as = .ok u ∧ u.value m ρ = m.apply o (as.map (·.value m ρ))) ∧
    ∀ (v : Var) (body : Term), body.sorted anyFlow = true → body.sort = .bool →
      (mkAll v body).value m ρ =
        .truth (∀ x, Value.IsOf v.sort x → (body.value m (ρ.set v x)).Holds) ∧
      (mkAny v body).value m ρ =
        .truth (∃ x, Value.IsOf v.sort x ∧ (body.value m (ρ.set v x)).Holds) := by
  refine ⟨fun o as sorted accepts => ?_, fun v body _ hs => ⟨?_, ?_⟩⟩
  · obtain ⟨u, hu, folds⟩ := folds_build sorted accepts
    exact ⟨u, hu, folds.value (m.interpretation hρ)⟩
  · rw [mkAll, value_mkQuant m hs, value]
  · rw [mkAny, value_mkQuant m hs, value]

noncomputable def shifted : Meaning := ⟨fun x => x + 1, fun _ _ _ => True⟩

def count : Var := ⟨"n", .int, .logical⟩

def level : Var := ⟨"x", .real, .logical⟩

/-- A mixed sum of which the constants cancel, with a quotient by zero, and a quantifier over what
is left of a conjunction. -/
theorem folding_keeps_values_mixed :
    (∃ u, Operator.build (.add .real)
        [var count, num .int 2, div (var level) (num .int 0), num .real (-2)] = .ok u ∧
      u.value shifted .blank = .number 1) ∧
    ((mkAny level (mkAnd [top, cmp .lt (var level) (var count)])).value shifted .blank).Holds := by
  obtain ⟨built, ranges⟩ := folding_keeps_values shifted Env.blank_sorted.typed
  refine ⟨?_, ?_⟩
  · obtain ⟨u, hu, value⟩ := built (.add .real)
      [var count, num .int 2, div (var level) (num .int 0), num .real (-2)] (by decide) (by decide)
    refine ⟨u, hu, value.trans ?_⟩
    simp [Term.value, Meaning.apply, Operator.applyWith, Operator.apply, Env.blank, count, level,
      shifted]
  · rw [(ranges level (mkAnd [top, cmp .lt (var level) (var count)]) (by decide) (by decide)).2]
    refine ⟨.number (-1), ⟨-1, rfl⟩, ?_⟩
    simp [Term.value, mkAnd, collect, truth?, top, Meaning.apply, Operator.applyWith,
      Operator.apply, Env.blank, conjuncts?, count, level, Relation.Compares, Env.set]

end Meaning

end HybridCheck
