import HybridCheck.Proofs.Subterm
import Mathlib.Data.Rat.BigOperators
import Mathlib.Data.Rat.Cast.Order

/-!
# Folding keeps values

A term is well-sorted if every operator accepts the sorts of its operands and the body of every
quantifier is Boolean; which flow primitives are well-sorted is judged apart. A plain term is
well-sorted and has no flow primitive. On well-sorted operands of accepted sorts every folding
operation has an answer, the answer is well-sorted and of the right kind, and its value is that of
the operator on the values of the operands, whatever was flattened, dropped or collected. It has
every hereditary property that all the operands have.

Of the values only two things are used: that an operator is applied to those of its operands, and
that they are of the kinds of the sorts. Which number a quotient by zero is does not matter.
-/

namespace HybridCheck

namespace Term

/-- Tells which flow primitives are well-sorted: integrals, and bodies that hold throughout. -/
abbrev Judge := Segment → Option Term → Bool

/-- Whether the sorts at one node fit together. -/
def sortedNode (judge : Judge) : Term → Bool
  | .quant _ _ body => body.sort = .bool
  | .integral seg => judge seg none
  | .throughout seg body => judge seg (some body)
  | t => t.operator?.all (·.accepts (t.operands.map sort))

/-- Whether a term is well-sorted, where `judge` tells which flow primitives are. -/
def sorted (judge : Judge) (t : Term) : Bool :=
  t.subterms.all (sortedNode judge)

abbrev noFlow : Judge := fun _ _ => false

abbrev anyFlow : Judge := fun _ _ => true

/-- Whether a term is well-sorted and has no flow primitive. -/
abbrev plain (t : Term) : Bool := t.sorted noFlow

section

variable {judge : Judge}

theorem sortedNode_operator {t : Term} {o : Operator} (h : t.operator? = some o) :
    t.sortedNode judge = o.accepts (t.operands.map sort) := by
  cases t <;> cases h <;> rfl

theorem sorted_operator {t : Term} {o : Operator} (h : t.operator? = some o) :
    t.sorted judge = true ↔
      o.accepts (t.operands.map sort) = true ∧ ∀ a ∈ t.operands, a.sorted judge = true := by
  simp only [sorted, List.all_eq_true, forall_subterms_operator h, sortedNode_operator h]

@[simp] theorem sorted_var (v : Var) : (var v).sorted judge = true := rfl

@[simp] theorem sorted_next (v : Var) : (next v).sorted judge = true := rfl

@[simp] theorem sorted_bool (b : Bool) : (bool b).sorted judge = true := rfl

@[simp] theorem sorted_num (s : NumSort) (q : Rat) : (num s q).sorted judge = true := rfl

@[simp] theorem sorted_quant (q : Quantifier) (v : Var) (body : Term) :
    (quant q v body).sorted judge = true ↔ body.sort = .bool ∧ body.sorted judge = true := by
  simp [sorted, sortedNode]

end

theorem flowFree_of_plain {t : Term} (h : t.plain = true) : t.flowFree = true := by
  simp only [sorted, flowFree, List.all_eq_true] at h ⊢
  intro n hn
  have := h n hn
  cases n <;> first | rfl | cases this

end Term

/-! ## Values of well-sorted terms -/

theorem Value.Fits.eq_truth {x : Value} (h : Value.Fits .bool x) : x = .truth x.Holds := by
  obtain ⟨p, rfl⟩ := h
  rfl

theorem Value.Fits.eq_number {s : TermSort} {x : Value} (h : Value.Fits s x)
    (hs : s.numeric = true) : x = .number x.toReal := by
  cases s <;> cases hs <;> (obtain ⟨r, rfl⟩ := h; rfl)

theorem Value.fits_number {s : TermSort} (hs : s.numeric = true) (x : ℝ) :
    Value.Fits s (.number x) := by
  cases s <;> cases hs <;> exact ⟨x, rfl⟩

theorem Value.exists_isOf (s : TermSort) : ∃ x, Value.IsOf s x := by
  cases s with
  | bool => exact ⟨.truth True, True, rfl⟩
  | real => exact ⟨.number 0, 0, rfl⟩
  | int => exact ⟨.number (0 : ℤ), 0, rfl⟩
  | other n => exact ⟨.truth True, trivial⟩

/-- Every sort has a value, so quantifying over a sort does not change what does not depend on the
value. -/
theorem Value.forall_isOf_const (s : TermSort) {p : Prop} : (∀ x, IsOf s x → p) ↔ p := by
  obtain ⟨x, hx⟩ := exists_isOf s
  exact ⟨fun h => h x hx, fun h _ _ => h⟩

theorem Value.exists_isOf_const (s : TermSort) {p : Prop} : (∃ x, IsOf s x ∧ p) ↔ p := by
  obtain ⟨x, hx⟩ := exists_isOf s
  exact ⟨fun ⟨_, _, h⟩ => h, fun h => ⟨x, hx, h⟩⟩

/-- The value of an operator is of the kind of its result. -/
theorem Operator.fits_apply {o : Operator} {as : List Term} {value : Term → Value}
    (h : o.accepts (as.map Term.sort) = true) (hs : ∀ a ∈ as, Value.Fits a.sort (value a)) :
    Value.Fits (o.result (as.map Term.sort)) (o.apply (as.map value)) := by
  cases o with
  | num s q => cases s <;> exact ⟨_, rfl⟩
  | add s | mul s => exact Value.fits_number s.numeric_toSort _
  | bool | and | or => exact ⟨_, rfl⟩
  | not | implies | cmp =>
    rcases as with _ | ⟨a, _ | ⟨b, _ | ⟨c, as⟩⟩⟩ <;> exact ⟨_, rfl⟩
  | ite =>
    rcases as with _ | ⟨c, _ | ⟨a, _ | ⟨b, _ | ⟨d, as⟩⟩⟩⟩
    case cons.cons.cons.nil =>
      simp only [accepts, List.map_cons, List.map_nil, Bool.and_eq_true] at h
      simp only [result, apply, List.map_cons, List.map_nil]
      split
      · exact hs a (by simp)
      · exact (hs b (by simp)).of_alike (TermSort.alike_symm h.2)
    all_goals exact ⟨_, rfl⟩
  | sub =>
    rcases as with _ | ⟨a, _ | ⟨b, _ | ⟨c, as⟩⟩⟩
    case cons.cons.nil =>
      refine Value.fits_number ?_ _
      simp only [result, List.map_cons, List.map_nil]
      split <;> rfl
    all_goals exact ⟨_, rfl⟩
  | div =>
    rcases as with _ | ⟨a, _ | ⟨b, _ | ⟨c, as⟩⟩⟩
    case cons.cons.nil => exact ⟨_, rfl⟩
    all_goals cases h
  | neg =>
    rcases as with _ | ⟨a, _ | ⟨b, as⟩⟩
    case cons.nil => exact Value.fits_number h _
    all_goals exact ⟨_, rfl⟩

namespace Term

variable {judge : Judge}

/-- Values for the terms, made by the operators from the values of their operands. -/
structure Interpretation (judge : Judge) where
  overZero : ℝ → ℝ
  value : Term → Value
  operator : ∀ t o, t.operator? = some o →
    value t = o.applyWith overZero (t.operands.map value)
  leaf : ∀ t : Term, t.operator? = none → t.sorted judge = true → Value.Fits t.sort (value t)

namespace Interpretation

variable (I : Interpretation judge)

noncomputable abbrev apply (o : Operator) (xs : List Value) : Value := o.applyWith I.overZero xs

@[simp] theorem value_bool (b : Bool) : I.value (bool b) = .truth (b = true) :=
  I.operator (bool b) (.bool b) rfl

@[simp] theorem value_num (s : NumSort) (q : Rat) : I.value (num s q) = .number q :=
  I.operator (num s q) (.num s q) rfl

@[simp] theorem value_not (a : Term) : I.value (not a) = .truth ¬(I.value a).Holds :=
  I.operator (not a) .not rfl

@[simp] theorem value_neg (a : Term) : I.value (neg a) = .number (-(I.value a).toReal) :=
  I.operator (neg a) .neg rfl

/-- The value of a well-sorted term is of the kind of its sort. -/
theorem fits {t : Term} (h : t.sorted judge = true) : Value.Fits t.sort (I.value t) := by
  induction t using induct with
  | operator t o ho ih =>
    obtain ⟨ha, hs⟩ := (sorted_operator ho).1 h
    have fits a m := ih a m (hs a m)
    rw [sort_operator ho, I.operator t o ho]
    unfold Operator.applyWith
    split
    · exact ⟨_, rfl⟩
    · exact Operator.fits_apply ha fits
  | var | next | quant | integral | throughout => exact I.leaf _ rfl h

theorem value_eq_truth {t : Term} (h : t.sorted judge = true) (hs : t.sort = .bool) :
    I.value t = .truth (I.value t).Holds :=
  Value.Fits.eq_truth (hs ▸ I.fits h)

theorem value_eq_number {t : Term} (h : t.sorted judge = true) (hs : t.sort.numeric = true) :
    I.value t = .number (I.value t).toReal :=
  (I.fits h).eq_number hs

noncomputable def ofEval {ρ : Env} (hρ : ρ.Typed) : Interpretation judge where
  overZero _ := 0
  value t := t.eval ρ
  operator t o ho := by rw [eval_operator ho, Operator.applyWith_zero]
  leaf t ho _ := by
    cases t with
    | var v => exact hρ.1 v
    | next v => exact hρ.2 v
    | quant q v body => cases q <;> exact ⟨_, rfl⟩
    | integral seg => exact ⟨_, eval_integral seg ρ⟩
    | throughout seg body => exact ⟨_, eval_throughout seg body ρ⟩
    | _ => cases ho

end Interpretation

theorem fits_eval {t : Term} (h : t.sorted judge = true) {ρ : Env} (hρ : ρ.Typed) :
    Value.Fits t.sort (t.eval ρ) :=
  (Interpretation.ofEval hρ).fits h

theorem eval_eq_truth {t : Term} (h : t.sorted judge = true) (hs : t.sort = .bool) {ρ : Env}
    (hρ : ρ.Typed) : t.eval ρ = .truth (t.eval ρ).Holds :=
  Value.Fits.eq_truth (hs ▸ fits_eval h hρ)

theorem eval_eq_number {t : Term} (h : t.sorted judge = true) (hs : t.sort.numeric = true) {ρ : Env}
    (hρ : ρ.Typed) : t.eval ρ = .number (t.eval ρ).toReal :=
  (fits_eval h hρ).eq_number hs

/-! ## Folding -/

structure Folds (judge : Judge) (u : Term) (o : Operator) (as : List Term) : Prop where
  sorted : u.sorted judge = true
  alike : u.sort.alike (o.result (as.map sort)) = true
  value : ∀ I : Interpretation judge, I.value u = I.apply o (as.map I.value)
  keeps : ∀ H, Hereditary H → (∀ a ∈ as, H a) → H u

theorem Folds.eval {u : Term} {o : Operator} {as : List Term} (h : Folds judge u o as) (ρ : Env)
    (hρ : ρ.Typed) : u.eval ρ = o.apply (as.map (·.eval ρ)) :=
  (h.value (.ofEval hρ)).trans (Operator.applyWith_zero _ _)

/-- An operator applied to its operands is a folded form of itself. -/
theorem folds_self {t : Term} {o : Operator} (ho : t.operator? = some o)
    (h : t.sorted judge = true) : Folds judge t o t.operands where
  sorted := h
  alike := by rw [sort_operator ho]; simp
  value I := I.operator t o ho
  keeps H hH hs := (hH t o ho).2 hs

theorem truth?_eq_some {a : Term} {b : Bool} (h : a.truth? = some b) :
    a = .bool b ∨ (∃ s q, a = .num s q) ∧ b = false := by
  cases a <;> cases h
  · exact Or.inl rfl
  · exact Or.inr ⟨⟨_, _, rfl⟩, rfl⟩

theorem eq_bool_of_truth? {a : Term} {b : Bool} (h : a.truth? = some b) (hs : a.sort = .bool) :
    a = .bool b := by
  rcases truth?_eq_some h with rfl | ⟨⟨s, q, rfl⟩, -⟩
  · rfl
  · cases s <;> cases hs

section Fold

variable {o : Operator} {as : List Term}

theorem folds_bool {b : Bool} (result : o.result (as.map sort) = .bool)
    (value : ∀ I : Interpretation judge, I.apply o (as.map I.value) = .truth (b = true)) :
    Folds judge (bool b) o as where
  sorted := rfl
  alike := by rw [result]; rfl
  value I := by rw [value I, I.value_bool]
  keeps H hH _ := (hH _ _ rfl).2 (by simp [operands])

theorem folds_num {s : NumSort} {q : Rat} (result : (o.result (as.map sort)).numeric = true)
    (value : ∀ I : Interpretation judge, I.apply o (as.map I.value) = .number q) :
    Folds judge (num s q) o as where
  sorted := rfl
  alike := TermSort.alike_of_numeric s.numeric_toSort result
  value I := by rw [value I, I.value_num]
  keeps H hH _ := (hH _ _ rfl).2 (by simp [operands])

theorem folds_operand {a : Term} (ha : a ∈ as) (sorted : a.sorted judge = true)
    (alike : a.sort.alike (o.result (as.map sort)) = true)
    (value : ∀ I : Interpretation judge, I.value a = I.apply o (as.map I.value)) :
    Folds judge a o as where
  sorted := sorted
  alike := alike
  value := value
  keeps _ _ hs := hs a ha

end Fold

section Junction

variable {absorbing : Bool} {spread : Term → Option (List Term)} {as rest : List Term}

/-- Without an answer the absorbing value is among the operands. -/
theorem collect_eq_none (h : collect absorbing spread as = none) :
    ∃ a ∈ as, a.truth? = some absorbing := by
  induction as with
  | nil => cases h
  | cons a as ih =>
    rw [collect] at h
    split at h
    · next b hb =>
      by_cases hab : b = absorbing
      · exact ⟨a, by simp, hab ▸ hb⟩
      · rw [if_neg hab] at h
        obtain ⟨c, hc, ht⟩ := ih h
        exact ⟨c, by simp [hc], ht⟩
    · split at h
      · next hn =>
        obtain ⟨c, hc, ht⟩ := ih hn
        exact ⟨c, by simp [hc], ht⟩
      · split at h <;> cases h

/-- What holds of the other constants and passes between a nested node and its operands passes
between the operands given and those collected. -/
theorem forall_collect {P : Term → Prop} (h : collect absorbing spread as = some rest)
    (constant : ∀ a ∈ as, ∀ b, a.truth? = some b → b ≠ absorbing → P a)
    (nested : ∀ a inner, spread a = some inner → (P a ↔ ∀ i ∈ inner, P i)) :
    (∀ a ∈ rest, P a) ↔ ∀ a ∈ as, P a := by
  induction as generalizing rest with
  | nil => cases h; rfl
  | cons a as ih =>
    have later a' (ha : a' ∈ as) := constant a' (by simp [ha])
    rw [collect] at h
    split at h
    · next b hb =>
      split at h
      · cases h
      · next hne =>
        rw [ih h later, List.forall_mem_cons, and_iff_right (constant a (by simp) b hb hne)]
    · split at h
      · cases h
      · next rest' hr =>
        split at h
        · next inner hi =>
          cases h
          rw [List.forall_mem_append, List.forall_mem_cons, ih hr later, nested a inner hi]
        · cases h
          rw [List.forall_mem_cons, List.forall_mem_cons, ih hr later]

/-- What a conjunction and a disjunction have in common: one truth value among the operands decides
the result. -/
private structure Absorbs (absorbing : Bool) (spread : Term → Option (List Term)) (o : Operator)
    (node : List Term → Term) : Prop where
  operator as : (node as).operator? = some o
  operands as : (node as).operands = as
  spread a inner : spread a = some inner → a = node inner
  accepts ss : o.accepts ss = true ↔ ∀ s ∈ ss, s = .bool
  result ss : o.result ss = .bool
  apply z xs : o.applyWith z xs =
    .truth ((∀ x ∈ xs, (x.Holds ↔ absorbing = false)) ↔ absorbing = false)

private theorem absorbs_and : Absorbs false conjuncts? .and .and where
  operator _ := rfl
  operands _ := rfl
  spread a inner h := by cases a <;> cases h; rfl
  accepts ss := by simp [Operator.accepts]
  result _ := rfl
  apply z xs := by simp [Operator.applyWith, Operator.apply]

private theorem absorbs_or : Absorbs true disjuncts? .or .or where
  operator _ := rfl
  operands _ := rfl
  spread a inner h := by cases a <;> cases h; rfl
  accepts ss := by simp [Operator.accepts]
  result _ := rfl
  apply z xs := by simp [Operator.applyWith, Operator.apply]

private def junction (absorbing : Bool) (spread : Term → Option (List Term))
    (node : List Term → Term) (args : List Term) : Term :=
  match collect absorbing spread args with
  | none => bool absorbing
  | some [] => bool !absorbing
  | some [a] => a
  | some as => node as

section

variable {o : Operator} {node : List Term → Term} (ab : Absorbs absorbing spread o node)
include ab

private theorem Absorbs.sorted_node (as : List Term) :
    (node as).sorted judge = true ↔ ∀ a ∈ as, a.sorted judge = true ∧ a.sort = .bool := by
  rw [sorted_operator (ab.operator as), ab.operands, ab.accepts, List.forall_mem_map]
  exact ⟨fun h a ha => ⟨h.2 a ha, h.1 a ha⟩, fun h => ⟨fun a ha => (h a ha).2,
    fun a ha => (h a ha).1⟩⟩

private theorem Absorbs.value_node (I : Interpretation judge) (as : List Term) :
    I.value (node as) = .truth
      ((∀ a ∈ as, ((I.value a).Holds ↔ absorbing = false)) ↔ absorbing = false) := by
  rw [I.operator _ _ (ab.operator as), ab.operands, ab.apply, List.forall_mem_map]

/-- An absorbing operand decides. -/
private theorem Absorbs.folds_absorbed (ha : bool absorbing ∈ as) :
    Folds judge (bool absorbing) o as := by
  refine folds_bool (ab.result _) fun I => ?_
  rw [Interpretation.apply, ab.apply, List.forall_mem_map]
  congr 1
  refine propext ⟨fun hb => ?_, fun hb => ⟨fun hall => ?_, fun hb' => ?_⟩⟩
  · by_contra hf
    have hf' : absorbing = false := by simpa using hf
    have := hb.2 hf' _ ha
    rw [I.value_bool, Value.holds_truth, hf'] at this
    simp at this
  · have := hall _ ha
    rw [I.value_bool, Value.holds_truth] at this
    exact this.1 hb
  · rw [hb] at hb'
    cases hb'

/-- What was collected can stand for the operands. -/
private theorem Absorbs.folds_collected (hp : ∀ a ∈ as, a.sorted judge = true)
    (hs : ∀ a ∈ as, a.sort = .bool) (h : collect absorbing spread as = some rest) :
    Folds judge (node rest) o as where
  sorted := by
    refine (ab.sorted_node rest).2 ((forall_collect
      (P := fun a => a.sorted judge = true ∧ a.sort = .bool) h
      (fun a ha _ _ _ => ⟨hp a ha, hs a ha⟩) fun a inner hi => ?_).2 fun a ha => ⟨hp a ha, hs a ha⟩)
    rw [ab.spread a inner hi, ab.sorted_node, sort_operator (ab.operator inner), ab.result]
    simp
  alike := by
    rw [sort_operator (ab.operator _), ab.result, ab.result]
    rfl
  value I := by
    rw [ab.value_node, Interpretation.apply, ab.apply, List.forall_mem_map]
    rw [forall_collect (P := fun a => ((I.value a).Holds ↔ absorbing = false)) h]
    · intro a ha b hb hne
      obtain rfl := eq_bool_of_truth? hb (hs a ha)
      rw [I.value_bool, Value.holds_truth]
      cases b <;> cases absorbing <;> simp_all
    · intro a inner hi
      rw [ab.spread a inner hi, ab.value_node, Value.holds_truth]
      cases absorbing <;> simp
  keeps H hH hs := by
    rw [hH _ o (ab.operator _), ab.operands]
    refine (forall_collect (P := H) h (fun a ha _ _ _ => hs a ha) fun a inner hi => ?_).2 hs
    rw [ab.spread a inner hi, hH _ o (ab.operator inner), ab.operands]

private theorem folds_junction (hp : ∀ a ∈ as, a.sorted judge = true)
    (hs : ∀ a ∈ as, a.sort = .bool) : Folds judge (junction absorbing spread node as) o as := by
  rw [junction]
  split
  · next h =>
    obtain ⟨a, ha, ht⟩ := collect_eq_none h
    obtain rfl := eq_bool_of_truth? ht (hs a ha)
    exact ab.folds_absorbed ha
  · next h =>
    have fold := ab.folds_collected hp hs h
    refine folds_bool (ab.result _) fun I => ?_
    rw [← fold.value I, ab.value_node]
    cases absorbing <;> simp
  · next a h =>
    have fold := ab.folds_collected hp hs h
    obtain ⟨ha, hb⟩ := (ab.sorted_node [a]).1 fold.sorted a (by simp)
    refine ⟨ha, by rw [ab.result, hb]; rfl, fun I => ?_, fun H hH hs => ?_⟩
    · rw [← fold.value I, ab.value_node, I.value_eq_truth ha hb]
      cases absorbing <;> simp
    · exact (hH _ o (ab.operator [a])).1 (fold.keeps H hH hs) a (by rw [ab.operands]; simp)
  · next h => exact ab.folds_collected hp hs h

end

theorem folds_mkAnd (hp : ∀ a ∈ as, a.sorted judge = true) (hs : ∀ a ∈ as, a.sort = .bool) :
    Folds judge (mkAnd as) .and as :=
  folds_junction absorbs_and hp hs

theorem folds_mkOr (hp : ∀ a ∈ as, a.sorted judge = true) (hs : ∀ a ∈ as, a.sort = .bool) :
    Folds judge (mkOr as) .or as :=
  folds_junction absorbs_or hp hs

end Junction

theorem folds_mkNot {a : Term} (hp : a.sorted judge = true) (hs : a.sort = .bool) :
    Folds judge a.mkNot .not [a] := by
  have self : Folds judge (not a) .not [a] :=
    folds_self (t := not a) rfl
      ((sorted_operator rfl).2 (by simp [operands, Operator.accepts, hs, hp]))
  cases a with
  | bool b => exact folds_bool rfl fun I => by cases b <;> simp [Operator.applyWith, Operator.apply]
  | num s q => cases s <;> cases hs
  | not b =>
    obtain ⟨hb, hp⟩ := (sorted_operator (t := not b) rfl).1 hp
    have hb : b.sort = .bool := by simpa [operands, Operator.accepts] using hb
    have hp : b.sorted judge = true := hp b (by simp [operands])
    have fold : Folds judge b .not [not b] := by
      refine ⟨hp, by rw [hb]; rfl, fun I => ?_, fun H hH h => ?_⟩
      · rw [I.value_eq_truth hp hb]
        simp [Operator.applyWith, Operator.apply]
      · exact (hH (not b) _ rfl).1 (h _ (by simp)) b (by simp [operands])
    exact fold
  | _ => exact self

theorem folds_mkImplies {a b : Term} (ha : a.sorted judge = true) (hb : b.sorted judge = true)
    (has : a.sort = .bool) (hbs : b.sort = .bool) :
    Folds judge (mkImplies a b) .implies [a, b] := by
  rw [mkImplies]
  split
  · next ht =>
    obtain rfl := eq_bool_of_truth? ht has
    refine folds_operand (by simp) hb (by rw [hbs]; rfl) fun I => ?_
    rw [I.value_eq_truth hb hbs]
    simp [Operator.applyWith, Operator.apply]
  · next ht =>
    obtain rfl := eq_bool_of_truth? ht has
    exact folds_bool rfl fun I => by simp [Operator.applyWith, Operator.apply]
  · split
    · next ht =>
      obtain rfl := eq_bool_of_truth? ht hbs
      exact folds_bool rfl fun I => by simp [Operator.applyWith, Operator.apply]
    · next ht =>
      obtain rfl := eq_bool_of_truth? ht hbs
      have h := folds_mkNot ha has
      refine ⟨h.sorted, h.alike, fun I => ?_, fun H hH hs => h.keeps H hH ?_⟩
      · rw [h.value I]
        simp [Operator.applyWith, Operator.apply]
      · intro c hc
        rw [List.mem_singleton.1 hc]
        exact hs a (by simp)
    · exact folds_self (t := implies a b) rfl
        ((sorted_operator rfl).2 (by simp [operands, Operator.accepts, ha, hb, has, hbs]))

theorem folds_mkIte {c a b : Term} (hc : c.sorted judge = true) (ha : a.sorted judge = true)
    (hb : b.sorted judge = true) (hcs : c.sort = .bool) (hs : a.sort.alike b.sort = true) :
    Folds judge (mkIte c a b) .ite [c, a, b] := by
  rw [mkIte]
  split
  · next ht =>
    obtain rfl := eq_bool_of_truth? ht hcs
    exact folds_operand (by simp) ha (by simp [Operator.result]) fun I => by
      simp [Operator.applyWith, Operator.apply]
  · next ht =>
    obtain rfl := eq_bool_of_truth? ht hcs
    refine folds_operand (by simp) hb ?_ fun I => by simp [Operator.applyWith, Operator.apply]
    exact TermSort.alike_symm hs
  · exact folds_self (t := ite c a b) rfl
      ((sorted_operator rfl).2 (by simp [operands, Operator.accepts, ha, hb, hc, hcs, hs]))

theorem compares_number (r : Relation) (x y : Rat) :
    r.Compares (.number x) (.number y) ↔ r.holds x y = true := by
  cases r <;> simp [Relation.Compares, Relation.holds]

theorem folds_mkCmp {r : Relation} {a b : Term} (ha : a.sorted judge = true)
    (hb : b.sorted judge = true) (hs : (Operator.cmp r).accepts [a.sort, b.sort] = true) :
    Folds judge (mkCmp r a b) (.cmp r) [a, b] := by
  have self : Folds judge (cmp r a b) (.cmp r) [a, b] := folds_self (t := cmp r a b) rfl
    ((sorted_operator rfl).2 ⟨hs, by simp [operands, ha, hb]⟩)
  unfold mkCmp
  split
  · next s x s' y =>
    refine folds_bool rfl fun I => ?_
    simp only [Interpretation.apply, Operator.applyWith, Operator.apply, List.map_cons,
      List.map_nil, I.value_num, compares_number]
  · next hn =>
    split
    · next x y hx hy =>
      rcases truth?_eq_some hx with rfl | ⟨⟨s, q, rfl⟩, rfl⟩ <;>
        rcases truth?_eq_some hy with rfl | ⟨⟨s', q', rfl⟩, rfl⟩
      · cases r with
        | eq =>
          refine folds_bool rfl fun I => ?_
          cases x <;> cases y <;> simp [Operator.applyWith, Operator.apply, Relation.Compares]
        | _ => cases hs
      · cases r <;> cases s' <;> cases hs
      · cases r <;> cases s <;> cases hs
      · exact absurd rfl (hn s q s' q' rfl)
    · exact self

/-! ## Arithmetic -/

/-- The operands of a sum or product are split into its numbers and the others. -/
theorem splitNumbers_perm {as : List Term} (hs : ∀ a ∈ as, a.sort.numeric = true) :
    ∃ qs rest, splitNumbers as = .ok (qs, rest) ∧ (∀ a ∈ rest, a ∈ as) ∧
      ∀ I : Interpretation judge, (as.map fun a => (I.value a).toReal).Perm
        (qs.map (fun q : Rat => (q : ℝ)) ++ rest.map fun a => (I.value a).toReal) := by
  induction as with
  | nil => exact ⟨[], [], rfl, by simp, by simp⟩
  | cons a as ih =>
    obtain ⟨qs, rest, h, hsub, hperm⟩ := ih fun a ha => hs a (by simp [ha])
    have other : splitNumbers (a :: as) = .ok (qs, a :: rest) → ∃ qs rest,
        splitNumbers (a :: as) = .ok (qs, rest) ∧ (∀ b ∈ rest, b ∈ a :: as) ∧
          ∀ I : Interpretation judge, ((a :: as).map fun a => (I.value a).toReal).Perm
            (qs.map (fun q : Rat => (q : ℝ)) ++ rest.map fun a => (I.value a).toReal) := by
      intro h'
      refine ⟨qs, a :: rest, h', ?_, fun I => ?_⟩
      · simp only [List.mem_cons]
        exact fun b hb => hb.imp_right (hsub b)
      · exact ((hperm I).cons _).trans List.perm_middle.symm
    cases a with
    | bool b => exact absurd (hs (bool b) (by simp)) (by simp [sort])
    | num s q =>
      refine ⟨q :: qs, rest, ?_, fun b hb => by simp [hsub b hb], fun I => ?_⟩
      · simp [splitNumbers, h, bind, Except.bind, pure, Except.pure]
      · simpa using hperm I
    | _ => exact other (by simp [splitNumbers, h, bind, Except.bind, pure, Except.pure])

/-- What a sum and a product have in common: operands are numbers and a single one stands for
itself. -/
private structure Accumulates (o : Operator) (node : List Term → Term) : Prop where
  operator as : (node as).operator? = some o
  operands as : (node as).operands = as
  accepts ss : o.accepts ss = ss.all TermSort.numeric
  result ss : (o.result ss).numeric = true
  single z x : o.applyWith z [x] = .number x.toReal

private theorem accumulates_add (s : NumSort) : Accumulates (.add s) (.add s) where
  operator _ := rfl
  operands _ := rfl
  accepts _ := rfl
  result _ := s.numeric_toSort
  single z x := by simp [Operator.applyWith, Operator.apply]

private theorem accumulates_mul (s : NumSort) : Accumulates (.mul s) (.mul s) where
  operator _ := rfl
  operands _ := rfl
  accepts _ := rfl
  result _ := s.numeric_toSort
  single z x := by simp [Operator.applyWith, Operator.apply]

private def collapse (node : List Term → Term) : List Term → Term
  | [b] => b
  | bs => node bs

private theorem folds_collapse {o o' : Operator} {node : List Term → Term} {as bs rest : List Term}
    {s : NumSort} {q : Rat} (ac : Accumulates o' node)
    (result : (o.result (as.map sort)).numeric = true)
    (sorted : ∀ a ∈ as, a.sorted judge = true) (numeric : ∀ a ∈ as, a.sort.numeric = true)
    (subset : ∀ b ∈ rest, b ∈ as) (member : ∀ b ∈ bs, b ∈ rest ∨ b = num s q)
    (value : ∀ I : Interpretation judge,
      I.apply o' (bs.map I.value) = I.apply o (as.map I.value)) :
    Folds judge (collapse node bs) o as := by
  have each : ∀ b ∈ bs, b.sorted judge = true ∧ b.sort.numeric = true := by
    intro b hb
    rcases member b hb with hb | rfl
    · exact ⟨sorted b (subset b hb), numeric b (subset b hb)⟩
    · exact ⟨rfl, s.numeric_toSort⟩
  have keeps (H : Term → Prop) (hH : Hereditary H) (hall : ∀ a ∈ as, H a) : ∀ b ∈ bs, H b := by
    intro b hb
    rcases member b hb with hb | rfl
    · exact hall b (subset b hb)
    · exact (hH _ _ rfl).2 (by simp [Term.operands])
  have whole : Folds judge (node bs) o as := by
    refine ⟨?_, ?_, fun I => ?_, fun H hH h => ?_⟩
    · rw [sorted_operator (ac.operator bs), ac.operands, ac.accepts]
      exact ⟨by simpa using fun b hb => (each b hb).2, fun b hb => (each b hb).1⟩
    · rw [sort_operator (ac.operator bs)]
      exact TermSort.alike_of_numeric (ac.result _) result
    · rw [I.operator _ _ (ac.operator bs), ac.operands, ← value I]
    · rw [hH _ o' (ac.operator bs), ac.operands]
      exact keeps H hH h
  unfold collapse
  split
  · next b =>
    obtain ⟨hp, hb⟩ := each b (by simp)
    refine ⟨hp, TermSort.alike_of_numeric hb result, fun I => ?_, fun H hH h => ?_⟩
    · rw [← value I, List.map_singleton, Interpretation.apply, ac.single,
        ← I.value_eq_number hp hb]
    · exact keeps H hH h b (by simp)
  · exact whole

theorem folds_mkAdd {s : NumSort} {as : List Term} (hp : ∀ a ∈ as, a.sorted judge = true)
    (hs : ∀ a ∈ as, a.sort.numeric = true) : ∃ u, mkAdd as = .ok u ∧ Folds judge u (.add s) as := by
  obtain ⟨qs, rest, h, hsub, hperm⟩ := splitNumbers_perm hs
  obtain ⟨sum, hsum⟩ : ∃ sum : Rat, sum = qs.foldr (· + ·) 0 := ⟨_, rfl⟩
  have total (I : Interpretation judge) : (as.map fun a => (I.value a).toReal).sum =
      sum + (rest.map fun b => (I.value b).toReal).sum := by
    rw [(hperm I).sum_eq, List.sum_append, ← Rat.cast_list_sum, hsum]
    rfl
  obtain ⟨bs, hbs⟩ : ∃ bs, bs =
    if sum ≠ 0 ∨ rest.isEmpty then rest ++ [num (arithSort as) sum] else rest := ⟨_, rfl⟩
  refine ⟨collapse (add (arithSort as)) bs, ?_, ?_⟩
  · simp only [mkAdd, h, bind, Except.bind, ← hsum, ← hbs]
    rcases bs with _ | ⟨b, _ | ⟨c, bs⟩⟩ <;> rfl
  refine folds_collapse (accumulates_add _) s.numeric_toSort hp hs hsub (s := arithSort as)
    (q := sum) ?_ fun I => ?_
  · intro b hb
    rw [hbs] at hb
    split at hb
    · simpa using hb
    · exact Or.inl hb
  · simp only [Interpretation.apply, Operator.applyWith, Operator.apply, List.map_map]
    refine congrArg Value.number ?_
    change (bs.map fun b => (I.value b).toReal).sum = (as.map fun a => (I.value a).toReal).sum
    rw [total, hbs]
    split
    · simp [add_comm]
    · next hc =>
      have hz : sum = 0 := by
        by_contra hne
        exact hc (Or.inl hne)
      rw [hz, Rat.cast_zero, zero_add]

theorem folds_mkMul {s : NumSort} {as : List Term} (hp : ∀ a ∈ as, a.sorted judge = true)
    (hs : ∀ a ∈ as, a.sort.numeric = true) : ∃ u, mkMul as = .ok u ∧ Folds judge u (.mul s) as := by
  obtain ⟨qs, rest, h, hsub, hperm⟩ := splitNumbers_perm hs
  obtain ⟨product, hproduct⟩ : ∃ product : Rat, product = qs.foldr (· * ·) 1 := ⟨_, rfl⟩
  have total (I : Interpretation judge) : (as.map fun a => (I.value a).toReal).prod =
      product * (rest.map fun b => (I.value b).toReal).prod := by
    rw [(hperm I).prod_eq, List.prod_append, ← Rat.cast_list_prod, hproduct]
    rfl
  by_cases hz : product = 0
  · refine ⟨num (arithSort as) 0, ?_, folds_num s.numeric_toSort fun I => ?_⟩
    · simp only [mkMul, h, bind, Except.bind, ← hproduct, if_pos hz]
      rfl
    · simp only [Interpretation.apply, Operator.applyWith, Operator.apply, List.map_map]
      refine congrArg Value.number ((total I).trans ?_)
      rw [hz, Rat.cast_zero, zero_mul]
  obtain ⟨bs, hbs⟩ : ∃ bs, bs =
    if product ≠ 1 ∨ rest.isEmpty then num (arithSort as) product :: rest else rest := ⟨_, rfl⟩
  refine ⟨collapse (mul (arithSort as)) bs, ?_, ?_⟩
  · simp only [mkMul, h, bind, Except.bind, ← hproduct, if_neg hz, ← hbs]
    rcases bs with _ | ⟨b, _ | ⟨c, bs⟩⟩ <;> rfl
  refine folds_collapse (accumulates_mul _) s.numeric_toSort hp hs hsub (s := arithSort as)
    (q := product) ?_ fun I => ?_
  · intro b hb
    rw [hbs] at hb
    split at hb
    · exact (List.mem_cons.1 hb).symm
    · exact Or.inl hb
  · simp only [Interpretation.apply, Operator.applyWith, Operator.apply, List.map_map]
    refine congrArg Value.number ?_
    change (bs.map fun b => (I.value b).toReal).prod = (as.map fun a => (I.value a).toReal).prod
    rw [total, hbs]
    split
    · simp
    · next hc =>
      have hone : product = 1 := by
        by_contra hne
        exact hc (Or.inl hne)
      rw [hone, Rat.cast_one, one_mul]

theorem folds_mkSub {a b : Term} (ha : a.sorted judge = true) (hb : b.sorted judge = true)
    (has : a.sort.numeric = true) (hbs : b.sort.numeric = true) :
    ∃ u, mkSub a b = .ok u ∧ Folds judge u .sub [a, b] := by
  have self : Folds judge (sub a b) .sub [a, b] := folds_self (t := sub a b) rfl
    ((sorted_operator rfl).2 (by simp [operands, Operator.accepts, ha, hb, has, hbs]))
  have result : (Operator.result .sub ([a, b].map sort)).numeric = true := by
    simp only [Operator.result, List.map_cons, List.map_nil]
    split <;> rfl
  unfold mkSub
  split
  · cases hbs
  · next s y =>
    split
    · next hy =>
      refine ⟨a, rfl, folds_operand (by simp) ha (TermSort.alike_of_numeric has result) ?_⟩
      intro I
      rw [I.value_eq_number ha has]
      simp [Operator.applyWith, Operator.apply, hy]
    · split
      · cases has
      · next s' x _ =>
        exact ⟨_, rfl, folds_num result fun I => by simp [Operator.applyWith, Operator.apply]⟩
      · exact ⟨_, rfl, self⟩
  · exact ⟨_, rfl, self⟩

theorem folds_mkDiv {a b : Term} (ha : a.sorted judge = true) (hb : b.sorted judge = true)
    (has : a.sort.numeric = true) (hbs : b.sort.numeric = true) :
    ∃ u, mkDiv a b = .ok u ∧ Folds judge u .div [a, b] := by
  have self : Folds judge (div a b) .div [a, b] := folds_self (t := div a b) rfl
    ((sorted_operator rfl).2 (by simp [operands, Operator.accepts, ha, hb, has, hbs]))
  unfold mkDiv
  split
  · cases hbs
  · next s y =>
    split
    · exact ⟨_, rfl, self⟩
    · next hy =>
      split
      · cases has
      · next s' x _ => exact ⟨_, rfl, folds_num rfl fun I => by simp [Operator.applyWith, hy]⟩
      · split
        · next h =>
          refine ⟨a, rfl, folds_operand (by simp) ha (TermSort.alike_of_numeric has rfl) ?_⟩
          intro I
          rw [I.value_eq_number ha has]
          simp [Operator.applyWith, h.1]
        · exact ⟨_, rfl, self⟩
  · exact ⟨_, rfl, self⟩

theorem folds_mkNeg {a : Term} (ha : a.sorted judge = true) (has : a.sort.numeric = true) :
    ∃ u, mkNeg a = .ok u ∧ Folds judge u .neg [a] := by
  have self : Folds judge (neg a) .neg [a] := folds_self (t := neg a) rfl
    ((sorted_operator rfl).2 (by simp [operands, Operator.accepts, ha, has]))
  cases a with
  | bool b => cases has
  | num s q => exact ⟨_, rfl, folds_num has fun I => by simp [Operator.applyWith, Operator.apply]⟩
  | neg b =>
    obtain ⟨hb, hp⟩ := (sorted_operator (t := neg b) rfl).1 ha
    have hb : b.sort.numeric = true := hb
    have hp : b.sorted judge = true := hp b (by simp [operands])
    refine ⟨b, rfl, hp, TermSort.alike_of_numeric hb hb, fun I => ?_, fun H hH h => ?_⟩
    · rw [I.value_eq_number hp hb]
      simp [Operator.applyWith, Operator.apply]
    · exact (hH (neg b) _ rfl).1 (h _ (by simp)) b (by simp [operands])
  | _ => exact ⟨_, rfl, self⟩

/-! ## All operators -/

/-- An operator that accepts the sorts of its operands has a folded form. -/
theorem folds_build {o : Operator} {as : List Term} (hp : ∀ a ∈ as, a.sorted judge = true)
    (hs : o.accepts (as.map sort) = true) : ∃ u, o.build as = .ok u ∧ Folds judge u o as := by
  cases o with
  | bool b => exact ⟨_, rfl, folds_bool rfl fun I => rfl⟩
  | num s q => exact ⟨_, rfl, folds_num s.numeric_toSort fun I => rfl⟩
  | and => exact ⟨_, rfl, folds_mkAnd hp (by simpa [Operator.accepts] using hs)⟩
  | or => exact ⟨_, rfl, folds_mkOr hp (by simpa [Operator.accepts] using hs)⟩
  | add s => exact folds_mkAdd hp (by simpa [Operator.accepts] using hs)
  | mul s => exact folds_mkMul hp (by simpa [Operator.accepts] using hs)
  | not | neg =>
    rcases as with _ | ⟨a, _ | ⟨b, as⟩⟩
    case cons.nil =>
      have ha := hp a (by simp)
      first
      | exact ⟨_, rfl, folds_mkNot ha (by simpa [Operator.accepts] using hs)⟩
      | exact folds_mkNeg ha hs
    all_goals cases hs
  | implies | cmp | sub | div =>
    rcases as with _ | ⟨a, _ | ⟨b, _ | ⟨c, as⟩⟩⟩
    case cons.cons.nil =>
      have ha := hp a (by simp)
      have hb := hp b (by simp)
      first
      | exact ⟨_, rfl, folds_mkCmp ha hb hs⟩
      | simp only [Operator.accepts, List.map_cons, List.map_nil, Bool.and_eq_true,
          decide_eq_true_eq] at hs
        first
        | exact ⟨_, rfl, folds_mkImplies ha hb hs.1 hs.2⟩
        | exact folds_mkSub ha hb hs.1 hs.2
        | exact folds_mkDiv ha hb hs.1 hs.2
    all_goals first | cases hs | (rename_i r; cases r <;> cases hs)
  | ite =>
    rcases as with _ | ⟨c, _ | ⟨a, _ | ⟨b, _ | ⟨d, as⟩⟩⟩⟩
    case cons.cons.cons.nil =>
      simp only [Operator.accepts, List.map_cons, List.map_nil, Bool.and_eq_true,
        decide_eq_true_eq] at hs
      exact ⟨_, rfl, folds_mkIte (hp c (by simp)) (hp a (by simp)) (hp b (by simp)) hs.1 hs.2⟩
    all_goals cases hs

/-- A quantifier over a constant body is not needed, since every sort has a value. -/
theorem eval_mkQuant {q : Quantifier} {v : Var} {body : Term} (hs : body.sort = .bool) (ρ : Env) :
    (mkQuant q v body).eval ρ = (quant q v body).eval ρ := by
  rw [mkQuant]
  split
  · next b hb =>
    obtain rfl := eq_bool_of_truth? hb hs
    cases q <;> simp only [eval, Value.holds_truth, Value.forall_isOf_const,
      Value.exists_isOf_const]
  · rfl

theorem sort_mkQuant {q : Quantifier} {v : Var} {body : Term} (hs : body.sort = .bool) :
    (mkQuant q v body).sort = .bool := by
  rw [mkQuant]
  split
  · exact hs
  · rfl

theorem sorted_mkQuant {q : Quantifier} {v : Var} {body : Term} (hp : body.sorted judge = true)
    (hs : body.sort = .bool) : (mkQuant q v body).sorted judge = true := by
  rw [mkQuant]
  split
  · exact hp
  · exact (sorted_quant q v body).2 ⟨hs, hp⟩

end Term

end HybridCheck
