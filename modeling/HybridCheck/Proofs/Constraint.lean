import HybridCheck.Proofs.Folding

/-!
# Constraints and amounts

Almost every term of an encoding is one of two: a constraint, which is well-sorted and Boolean, or
an amount, which is well-sorted and a number. The folding operations lead from constraints and
amounts to constraints and amounts, and a folded term says what the operation is named for.
-/

namespace HybridCheck.Term

structure Constraint (judge : Judge) (t : Term) : Prop where
  sorted : t.sorted judge = true
  sort : t.sort = .bool

structure Amount (judge : Judge) (t : Term) : Prop where
  sorted : t.sorted judge = true
  numeric : t.sort.numeric = true

variable {judge : Judge} {a b : Term} {as : List Term} {ρ : Env}

abbrev Holds (t : Term) (ρ : Env) : Prop := (t.eval ρ).Holds

noncomputable abbrev amount (t : Term) (ρ : Env) : ℝ := (t.eval ρ).toReal

theorem Folds.constraint {u : Term} {o : Operator} (h : Folds judge u o as)
    (result : o.result (as.map Term.sort) = .bool) : Constraint judge u :=
  ⟨h.sorted, TermSort.alike_bool.1 (result ▸ h.alike)⟩

theorem Folds.amount {u : Term} {o : Operator} (h : Folds judge u o as)
    (result : (o.result (as.map Term.sort)).numeric = true) : Amount judge u :=
  ⟨h.sorted, TermSort.numeric_of_alike h.alike result⟩

/-! ## Leaves -/

theorem constraint_bool (c : Bool) : Constraint judge (bool c) := ⟨rfl, rfl⟩

theorem amount_num (s : NumSort) (q : Rat) : Amount judge (num s q) := ⟨rfl, s.numeric_toSort⟩

theorem amount_real (q : Rat) : Amount judge (real q) := amount_num .real q

theorem amount_zero : Amount judge zero := amount_num .real 0

theorem amount_var {v : Var} (h : v.sort.numeric = true) : Amount judge (var v) := ⟨rfl, h⟩

theorem constraint_var {v : Var} (h : v.sort = .bool) : Constraint judge (var v) := ⟨rfl, h⟩

@[simp] theorem amount_real_eq (q : Rat) : (real q).amount ρ = q := rfl

@[simp] theorem amount_zero_eq : zero.amount ρ = 0 := by
  simp [amount, zero, real, eval]

@[simp] theorem holds_bool (c : Bool) : (bool c).Holds ρ ↔ c = true := Iff.rfl

/-! ## Connectives -/

theorem constraint_mkAnd (h : ∀ a ∈ as, Constraint judge a) : Constraint judge (mkAnd as) :=
  (folds_mkAnd (fun a ha => (h a ha).sorted) fun a ha => (h a ha).sort).constraint rfl

theorem holds_and : (and as).Holds ρ ↔ ∀ a ∈ as, a.Holds ρ := by
  rw [Holds, eval_operator (o := .and) rfl]
  simp [Operator.apply, operands]

/-- A constant that counts as false does not hold. -/
theorem holds_of_truth? {b : Bool} (h : a.truth? = some b) : a.Holds ρ ↔ b = true := by
  cases a with
  | bool c => cases h; exact holds_bool b
  | num s q => cases h; simp [Holds, eval]
  | _ => cases h

/-- A conjunction of any terms holds if they all do, whatever was flattened or dropped. -/
theorem holds_mkAnd : (mkAnd as).Holds ρ ↔ ∀ a ∈ as, a.Holds ρ := by
  cases h : collect false conjuncts? as with
  | none =>
    obtain ⟨a, ha, ht⟩ := collect_eq_none h
    have fails : ¬a.Holds ρ := by simp [holds_of_truth? ht]
    simp only [mkAnd, h, bot, holds_bool, Bool.false_eq_true, false_iff]
    exact fun all => fails (all a ha)
  | some rest =>
    have same : (∀ a ∈ rest, a.Holds ρ) ↔ ∀ a ∈ as, a.Holds ρ := by
      refine forall_collect h (fun a _ b hb hne => ?_) fun a inner hi => ?_
      · rw [holds_of_truth? hb]
        simpa using hne
      · cases a <;> cases hi
        exact holds_and
    rw [← same]
    rcases rest with _ | ⟨a, _ | ⟨b, rest⟩⟩
    · simp [mkAnd, h, top]
    · simp [mkAnd, h]
    · rw [mkAnd, h, holds_and]

theorem constraint_mkOr (h : ∀ a ∈ as, Constraint judge a) : Constraint judge (mkOr as) :=
  (folds_mkOr (fun a ha => (h a ha).sorted) fun a ha => (h a ha).sort).constraint rfl

theorem holds_mkOr (h : ∀ a ∈ as, Constraint judge a) (hρ : ρ.Typed) :
    (mkOr as).Holds ρ ↔ ∃ a ∈ as, a.Holds ρ := by
  rw [Holds, (folds_mkOr (fun a ha => (h a ha).sorted) fun a ha => (h a ha).sort).eval ρ hρ]
  simp [Operator.apply]

theorem Constraint.not (h : Constraint judge a) : Constraint judge a.mkNot :=
  (folds_mkNot h.sorted h.sort).constraint rfl

/-- Negation is read as such of any term, a number counting as false. -/
theorem holds_mkNot : a.mkNot.Holds ρ ↔ ¬a.Holds ρ := by
  cases a with
  | bool c => cases c <;> simp [mkNot]
  | num => simp [mkNot, top, Holds, eval]
  | _ => simp [mkNot, Holds, eval]

theorem Constraint.implies (ha : Constraint judge a) (hb : Constraint judge b) :
    Constraint judge (mkImplies a b) :=
  (folds_mkImplies ha.sorted hb.sorted ha.sort hb.sort).constraint rfl

theorem holds_mkImplies (ha : Constraint judge a) (hb : Constraint judge b) (hρ : ρ.Typed) :
    (mkImplies a b).Holds ρ ↔ (a.Holds ρ → b.Holds ρ) := by
  rw [Holds, (folds_mkImplies ha.sorted hb.sorted ha.sort hb.sort).eval ρ hρ]
  rfl

theorem Constraint.quant (h : Constraint judge a) (q : Quantifier) (v : Var) :
    Constraint judge (mkQuant q v a) :=
  ⟨sorted_mkQuant h.sorted h.sort, sort_mkQuant h.sort⟩

theorem holds_mkAll (h : Constraint judge a) {v : Var} :
    (mkAll v a).Holds ρ ↔ ∀ x, Value.IsOf v.sort x → a.Holds (ρ.set v x) := by
  rw [Holds, mkAll, eval_mkQuant h.sort]
  rfl

theorem holds_mkAny (h : Constraint judge a) {v : Var} :
    (mkAny v a).Holds ρ ↔ ∃ x, Value.IsOf v.sort x ∧ a.Holds (ρ.set v x) := by
  rw [Holds, mkAny, eval_mkQuant h.sort]
  rfl

/-- A real variable ranges over the numbers. -/
theorem forall_isOf_real {v : Var} (hv : v.sort = .real) {P : Value → Prop} :
    (∀ x, Value.IsOf v.sort x → P x) ↔ ∀ r : ℝ, P (.number r) := by
  rw [hv]
  exact ⟨fun h r => h _ ⟨r, rfl⟩, fun h x ⟨r, hr⟩ => hr ▸ h r⟩

theorem exists_isOf_real {v : Var} (hv : v.sort = .real) {P : Value → Prop} :
    (∃ x, Value.IsOf v.sort x ∧ P x) ↔ ∃ r : ℝ, P (.number r) := by
  rw [hv]
  exact ⟨fun ⟨x, ⟨r, hr⟩, h⟩ => ⟨r, hr ▸ h⟩, fun ⟨r, h⟩ => ⟨_, ⟨r, rfl⟩, h⟩⟩

/-! ## Comparisons -/

theorem constraint_mkEq (ha : a.sorted judge = true) (hb : b.sorted judge = true)
    (hs : a.sort.alike b.sort = true) : Constraint judge (mkEq a b) :=
  (folds_mkCmp (r := .eq) ha hb hs).constraint rfl

theorem holds_mkEq (ha : a.sorted judge = true) (hb : b.sorted judge = true)
    (hs : a.sort.alike b.sort = true) (hρ : ρ.Typed) :
    (mkEq a b).Holds ρ ↔ a.eval ρ = b.eval ρ := by
  rw [Holds, mkEq, (folds_mkCmp (r := .eq) ha hb hs).eval ρ hρ]
  rfl

section Compare

variable (ha : Amount judge a) (hb : Amount judge b)
include ha hb

theorem Amount.accepts_cmp (r : Relation) : (Operator.cmp r).accepts [a.sort, b.sort] = true := by
  have hn : (a.sort.numeric && b.sort.numeric) = true := by rw [ha.numeric, hb.numeric]; rfl
  cases r with
  | eq => exact TermSort.alike_of_numeric ha.numeric hb.numeric
  | _ => exact hn

theorem Amount.cmp (r : Relation) : Constraint judge (mkCmp r a b) :=
  (folds_mkCmp ha.sorted hb.sorted (ha.accepts_cmp hb r)).constraint rfl

theorem holds_mkCmp (r : Relation) (hρ : ρ.Typed) :
    (mkCmp r a b).Holds ρ ↔ r.Compares (.number (a.amount ρ)) (.number (b.amount ρ)) := by
  rw [Holds, (folds_mkCmp ha.sorted hb.sorted (ha.accepts_cmp hb r)).eval ρ hρ,
    ← eval_eq_number ha.sorted ha.numeric hρ, ← eval_eq_number hb.sorted hb.numeric hρ]
  rfl

theorem holds_mkLt (hρ : ρ.Typed) : (mkLt a b).Holds ρ ↔ a.amount ρ < b.amount ρ :=
  holds_mkCmp ha hb .lt hρ

theorem holds_mkLe (hρ : ρ.Typed) : (mkLe a b).Holds ρ ↔ a.amount ρ ≤ b.amount ρ :=
  holds_mkCmp ha hb .le hρ

theorem holds_mkGt (hρ : ρ.Typed) : (mkGt a b).Holds ρ ↔ b.amount ρ < a.amount ρ :=
  holds_mkCmp ha hb .gt hρ

theorem holds_mkGe (hρ : ρ.Typed) : (mkGe a b).Holds ρ ↔ b.amount ρ ≤ a.amount ρ :=
  holds_mkCmp ha hb .ge hρ

/-! ## Arithmetic -/

/-- The sum of two amounts. -/
theorem Amount.add : ∃ u, mkAdd [a, b] = .ok u ∧ Amount judge u ∧
    (∀ H, Hereditary H → H a → H b → H u) ∧
    ∀ ρ : Env, ρ.Typed → u.amount ρ = a.amount ρ + b.amount ρ := by
  obtain ⟨u, hu, h⟩ : ∃ u, mkAdd [a, b] = .ok u ∧ Folds judge u (.add .real) [a, b] :=
    folds_mkAdd (by simp [ha.sorted, hb.sorted]) (by simp [ha.numeric, hb.numeric])
  refine ⟨u, hu, h.amount rfl, fun H hH h1 h2 => h.keeps H hH (by simp [h1, h2]), fun ρ hρ => ?_⟩
  rw [Term.amount, h.eval ρ hρ]
  simp [Operator.apply]

/-- The product of two amounts. -/
theorem Amount.mul : ∃ u, mkMul [a, b] = .ok u ∧ Amount judge u ∧
    (∀ H, Hereditary H → H a → H b → H u) ∧
    ∀ ρ : Env, ρ.Typed → u.amount ρ = a.amount ρ * b.amount ρ := by
  obtain ⟨u, hu, h⟩ : ∃ u, mkMul [a, b] = .ok u ∧ Folds judge u (.mul .real) [a, b] :=
    folds_mkMul (by simp [ha.sorted, hb.sorted]) (by simp [ha.numeric, hb.numeric])
  refine ⟨u, hu, h.amount rfl, fun H hH h1 h2 => h.keeps H hH (by simp [h1, h2]), fun ρ hρ => ?_⟩
  rw [Term.amount, h.eval ρ hρ]
  simp [Operator.apply]

/-- The difference of two amounts. -/
theorem Amount.sub : ∃ u, mkSub a b = .ok u ∧ Amount judge u ∧
    (∀ H, Hereditary H → H a → H b → H u) ∧
    ∀ ρ : Env, ρ.Typed → u.amount ρ = a.amount ρ - b.amount ρ := by
  obtain ⟨u, hu, h⟩ := folds_mkSub ha.sorted hb.sorted ha.numeric hb.numeric
  refine ⟨u, hu, h.amount ?_, fun H hH h1 h2 => h.keeps H hH (by simp [h1, h2]), fun ρ hρ => ?_⟩
  · simp only [Operator.result, List.map_cons, List.map_nil]
    split <;> rfl
  · rw [Term.amount, h.eval ρ hρ]
    simp [Operator.apply]

end Compare

end HybridCheck.Term
