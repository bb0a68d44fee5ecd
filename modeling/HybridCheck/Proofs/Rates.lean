import Mathlib.Data.List.Permutation
import HybridCheck.Proofs.Interpretation
import HybridCheck.Proofs.Sorting
import HybridCheck.Symbol

/-!
# Flows with rates

A rate reads nothing that the flow changes, so it is the same term after any stretch of the flow.
A state on the way is told by how much time has passed: every identifier with a rate has its value
at the start plus the rate times that time, and all others keep their terms. So flowing for one
duration and then for another leads where flowing for their sum does.

Identifiers are replaced wherever they stand in a rate, under quantifiers as well. A quantifier that
binds an identifier which the flow changes hides it from the check of the flow and not from the
replacement, so the rates are taken to have none.
-/

namespace HybridCheck

open Term

/-! ## Where a substitution looks -/

namespace Term

/-- What two substitutions have in common for the identifiers of a term, they make of the term. -/
theorem transform?_congr {s s' : Subst} {t : Term}
    (same : ∀ v, var v ∈ t.subterms → v.role = .logical → s.get? v.name = s'.get? v.name) :
    t.transform? (.ofSubst s) = t.transform? (.ofSubst s') := by
  revert same
  apply transform?.induct (.ofSubst s)
    (fun t => (∀ v, var v ∈ t.subterms → v.role = .logical → s.get? v.name = s'.get? v.name) →
      t.transform? (.ofSubst s) = t.transform? (.ofSubst s'))
    (fun es => (∀ v, var v ∈ nodesTable (fun _ => true) es → v.role = .logical →
      s.get? v.name = s'.get? v.name) →
        transformTable (.ofSubst s) es = transformTable (.ofSubst s') es)
    (fun as => (∀ v, var v ∈ nodesAll (fun _ => true) as → v.role = .logical →
      s.get? v.name = s'.get? v.name) →
        transformAll? (.ofSubst s) as = transformAll? (.ofSubst s') as)
  all_goals simp only [transform?, transformAll?, transformTable, subterms, nodes, nodesAll,
    nodesTable]
  all_goals grind

theorem substitute_congr {s s' : Subst} (empty : s.isEmpty = s'.isEmpty) {t : Term}
    (same : ∀ v, var v ∈ t.subterms → v.role = .logical → s.get? v.name = s'.get? v.name) :
    t.substitute s = t.substitute s' := by
  rw [substitute, substitute, empty]
  split
  · rfl
  · exact congrArg (fun x : Attempt (Option Term) => do return (← x).getD t)
      (transform?_congr same)

/-- Terms of their kinds for its identifiers leave a term well-sorted and of its kind. -/
theorem WellSorted.exists_substitute {t : Term} (h : t.WellSorted) {s : Subst}
    (respects : ∀ v, Term.var v ∈ t.subterms → v.role = .logical → ∀ u, s.get? v.name = some u →
      u.WellSorted ∧ u.sort.alike v.sort = true) :
    ∃ u, t.substitute s = .ok u ∧ u.WellSorted ∧ u.sort.alike t.sort = true := by
  rw [Term.substitute]
  split
  · exact ⟨t, rfl, h, TermSort.alike_refl _⟩
  · exact h.transform rfl (respected_ofSubst respects)

/-! ## Numbers -/

theorem amount_deep {t : Term} : t.Amount deep ↔ t.WellSorted ∧ t.sort.numeric = true :=
  ⟨fun h => ⟨sorted_deep.1 h.sorted, h.numeric⟩, fun h => ⟨sorted_deep.2 h.1, h.2⟩⟩

section

variable {a b : Term} (ha : a.Amount deep) (hb : b.Amount deep)
include ha hb

theorem Amount.exists_sum : ∃ u, mkAdd [a, b] = .ok u ∧ u.Amount deep ∧
    ∀ (m : Meaning) (ρ : Env), ρ.Typed →
      u.value m ρ = .number ((a.value m ρ).toReal + (b.value m ρ).toReal) := by
  obtain ⟨u, hu, folds⟩ : ∃ u, mkAdd [a, b] = .ok u ∧ Folds deep u (.add .real) [a, b] :=
    folds_mkAdd (by simp [ha.sorted, hb.sorted]) (by simp [ha.numeric, hb.numeric])
  refine ⟨u, hu, folds.amount rfl, fun m ρ hρ => (folds.value (m.interpretation hρ)).trans ?_⟩
  simp [Interpretation.apply, Operator.applyWith, Operator.apply, Meaning.interpretation]

theorem Amount.exists_product : ∃ u, mkMul [a, b] = .ok u ∧ u.Amount deep ∧
    ∀ (m : Meaning) (ρ : Env), ρ.Typed →
      u.value m ρ = .number ((a.value m ρ).toReal * (b.value m ρ).toReal) := by
  obtain ⟨u, hu, folds⟩ : ∃ u, mkMul [a, b] = .ok u ∧ Folds deep u (.mul .real) [a, b] :=
    folds_mkMul (by simp [ha.sorted, hb.sorted]) (by simp [ha.numeric, hb.numeric])
  refine ⟨u, hu, folds.amount rfl, fun m ρ hρ => (folds.value (m.interpretation hρ)).trans ?_⟩
  simp [Interpretation.apply, Operator.applyWith, Operator.apply, Meaning.interpretation]

end

theorem Amount.value_eq {a : Term} (ha : a.Amount deep) (m : Meaning) {ρ : Env} (hρ : ρ.Typed) :
    a.value m ρ = .number (a.value m ρ).toReal :=
  (m.interpretation hρ).value_eq_number ha.sorted ha.numeric

end Term

/-! ## On the way -/

noncomputable abbrev Table.values (s : Subst) (m : Meaning) (ρ : Env) : Table Value :=
  Table.mapValues (·.value m ρ) s

namespace FlowOf

/-- A flow has rates only, each a well-sorted number, and no quantifier in a rate binds an
identifier that the flow changes. -/
structure Steady (f : Flow) : Prop where
  solution : f.solution = []
  sorted : ∀ e ∈ f.rates, e.2.WellSorted
  numeric : ∀ e ∈ f.rates, e.2.sort.numeric = true
  unbound : ∀ e ∈ f.rates, ∀ q v body, quant q v body ∈ e.2.subterms → v.role = .logical →
    f.moves v.name = false

/-- What a flow changes starts with well-sorted numbers, and what its rates read has well-sorted
terms of its kind. -/
structure Starts (f : Flow) (entry mode : Subst) : Prop where
  moving : ∀ e ∈ entry, f.moves e.1 = true → e.2.WellSorted ∧ e.2.sort.numeric = true
  read : ∀ e ∈ f.rates, ∀ v, var v ∈ e.2.subterms → v.role = .logical →
    ∀ u, (mode.merge entry).get? v.name = some u → u.WellSorted ∧ u.sort.alike v.sort = true

/-- The value of an identifier on the way: the rate has been at work for the time `x`. -/
structure Passed (f : Flow) (speed : String → Term) (x : Meaning → Env → ℝ) (e : String × Term)
    (u : Term) : Prop where
  kept : Table.get? f.rates e.1 = none → u = e.2
  amount : f.moves e.1 = true → u.Amount deep
  value : f.moves e.1 = true → ∀ (m : Meaning) (ρ : Env), ρ.Typed →
    u.value m ρ = .number ((e.2.value m ρ).toReal + ((speed e.1).value m ρ).toReal * x m ρ)

/-- A state is on the way from an entry state: it has been flowing for the time `x`. -/
def OnWay (f : Flow) (speed : String → Term) (entry : Subst) (x : Meaning → Env → ℝ)
    (s : Subst) : Prop :=
  ∃ g : String × Term → Term, s = entry.map (fun e => (e.1, g e)) ∧
    ∀ e ∈ entry, f.Passed speed x e (g e)

variable {f : Flow} {speed : String → Term} {entry mode s s' : Subst} {x y : Meaning → Env → ℝ}

theorem rate_of_still {id : String} (h : f.moves id = false) : Table.get? f.rates id = none := by
  simpa [moves, Table.has] using (Bool.or_eq_false_iff.1 h).1

/-- States that have been on the way for the same time have the same values. -/
theorem OnWay.values_eq (h : f.OnWay speed entry x s) (h' : f.OnWay speed entry y s') {m : Meaning}
    {ρ : Env} (hρ : ρ.Typed) (same : x m ρ = y m ρ) : s.values m ρ = s'.values m ρ := by
  obtain ⟨g, rfl, hg⟩ := h
  obtain ⟨g', rfl, hg'⟩ := h'
  simp only [Table.values, Table.mapValues, List.map_map]
  refine List.map_congr_left fun e he => Prod.ext rfl ?_
  change (g e).value m ρ = (g' e).value m ρ
  cases hm : f.moves e.1 with
  | true => rw [(hg e he).value hm m ρ hρ, (hg' e he).value hm m ρ hρ, same]
  | false => rw [(hg e he).kept (rate_of_still hm), (hg' e he).kept (rate_of_still hm)]

/-- What has no rate keeps its term. -/
theorem OnWay.get?_eq (h : f.OnWay speed entry x s) {id : String}
    (still : Table.get? f.rates id = none) : s.get? id = entry.get? id := by
  obtain ⟨g, rfl, hg⟩ := h
  rw [Table.get?_map]
  cases hid : entry.get? id with
  | none => rfl
  | some v => exact congrArg some ((hg _ (Table.mem_of_get? hid)).kept still)

section

variable (steady : f.Steady)
include steady

/-- A checked rate reads nothing that the flow changes, under quantifiers either. -/
theorem Steady.unread {state : Table TermSort} (valid : f.problem? state = none)
    {e : String × Term} (he : e ∈ f.rates) {v : Var} (hv : var v ∈ e.2.subterms)
    (hr : v.role = .logical) : f.moves v.name = false := by
  obtain free | ⟨q, body, bound⟩ := mentions_of_mem_subterms hv
  · have fixed := (of_checkRate ((of_valid valid).2.2 e he)).1
    have := List.find?_eq_none.1 fixed v (mem_freeVars.2 free)
    simpa [hr] using this
  · exact steady.unbound e he q v body bound hr

theorem Steady.exists_speed (starts : f.Starts entry mode) : ∃ speed : String → Term,
    ∀ id rate, Table.get? f.rates id = some rate →
      rate.substitute (mode.merge entry) = .ok (speed id) ∧ (speed id).Amount deep := by
  have : Nonempty Term := ⟨bot⟩
  have each (id : String) (h : (Table.get? f.rates id).isSome = true) :
      ∃ u, ∀ rate, Table.get? f.rates id = some rate →
        rate.substitute (mode.merge entry) = .ok u ∧ u.Amount deep := by
    obtain ⟨rate, hrate⟩ := Option.isSome_iff_exists.1 h
    have he := Table.mem_of_get? hrate
    obtain ⟨u, hu, sorted, alike⟩ := (steady.sorted _ he).exists_substitute (starts.read _ he)
    refine ⟨u, fun rate' h' => ?_⟩
    cases hrate.symm.trans h'
    exact ⟨hu, amount_deep.2 ⟨sorted, TermSort.numeric_of_alike alike (steady.numeric _ he)⟩⟩
  choose! speed hspeed using each
  exact ⟨speed, fun id rate h => hspeed id (by simp [h]) rate h⟩

section

variable {state : Table TermSort} (valid : f.problem? state = none)
include valid

/-- On the way every rate becomes the term that it is at the start. -/
theorem Steady.substitute_eq (g : String × Term → Term)
    (kept : ∀ e ∈ entry, f.moves e.1 = false → g e = e.2) {e : String × Term} (he : e ∈ f.rates) :
    e.2.substitute (mode.merge (entry.map fun e => (e.1, g e))) =
      e.2.substitute (mode.merge entry) := by
  refine substitute_congr ?_ fun v hv hr => ?_
  · refine Table.isEmpty_eq_of_names fun name => ?_
    rw [Table.mem_names_merge, Table.mem_names_merge]
    simp [Table.names]
  · have unmoved := steady.unread valid he hv hr
    rcases Table.get?_merge_map mode entry g v.name with ⟨same, -⟩ | ⟨w, hw, here, there⟩
    · exact same
    · rw [here, there, kept _ hw unmoved]

/-- Flowing on leads to a state on the way. -/
theorem Steady.flow (speeds : ∀ id rate, Table.get? f.rates id = some rate →
      rate.substitute (mode.merge entry) = .ok (speed id) ∧ (speed id).Amount deep)
    {d : Term} (hd : d.Amount deep) (h : f.OnWay speed entry x s) :
    ∃ s', f.after s mode d = .ok s' ∧
      f.OnWay speed entry (fun m ρ => x m ρ + (d.value m ρ).toReal) s' := by
  have : Nonempty Term := ⟨bot⟩
  obtain ⟨g, rfl, hg⟩ := h
  have kept (e : String × Term) (he : e ∈ entry) (hm : f.moves e.1 = false) : g e = e.2 :=
    (hg e he).kept (rate_of_still hm)
  have each (e : String × Term) (he : e ∈ entry) :
      ∃ u, f.valueAt (mode.merge (entry.map fun e => (e.1, g e))) d e.1 (g e) = .ok u ∧
        f.Passed speed (fun m ρ => x m ρ + (d.value m ρ).toReal) e u := by
    have passed := hg e he
    rw [valueAt, steady.solution]
    cases hr : Table.get? f.rates e.1 with
    | none =>
      have still : f.moves e.1 = false := by simp [moves, Table.has, hr, steady.solution]
      refine ⟨g e, rfl, fun _ => passed.kept hr, fun hm => ?_, fun hm => ?_⟩ <;>
      · rw [still] at hm
        cases hm
    | some rate =>
      have moving : f.moves e.1 = true := by simp [moves, Table.has, hr]
      have mem := Table.mem_of_get? hr
      have fixed := (of_checkRate ((of_valid valid).2.2 _ mem)).1
      obtain ⟨hspeed, amount⟩ := speeds e.1 rate hr
      obtain ⟨way, hway, wayAmount, wayValue⟩ := amount.exists_product hd
      obtain ⟨u, hu, sumAmount, sumValue⟩ := (passed.amount moving).exists_sum wayAmount
      have same := (steady.substitute_eq valid g kept mem).trans hspeed
      have rated : Table.get? f.rates e.1 ≠ none := by simp [hr]
      refine ⟨u, by simp [Table.get?, fixed, same, hway, hu], fun h => absurd h rated,
        fun _ => sumAmount, fun _ m ρ hρ => ?_⟩
      rw [sumValue m ρ hρ, wayValue m ρ hρ, passed.value moving m ρ hρ]
      simp only [Value.toReal_number, mul_add, add_assoc]
  choose! g' hg' passed using each
  refine ⟨entry.map fun e => (e.1, g' e), ?_, g', rfl, passed⟩
  rw [after, List.mapM_map]
  exact Attempt.mapM_eq_map fun e he => by simp [hg' e he]

end

omit steady in
theorem Starts.onWay (starts : f.Starts entry mode) :
    f.OnWay speed entry (fun _ _ => 0) entry := by
  refine ⟨fun e => e.2, (List.map_id entry).symm, fun e he =>
    ⟨fun _ => rfl, fun hm => ?_, fun hm m ρ hρ => ?_⟩⟩
  · exact amount_deep.2 (starts.moving e he hm)
  · rw [(amount_deep.2 (starts.moving e he hm)).value_eq m hρ]
    simp

end

/-- A valid flow with rates only leaves the values of a state as they are when no time passes, and
flowing for one duration and then for another leads to the values to which flowing for their sum
does. What has no rate keeps its term. -/
theorem rates_compose {state : Table TermSort} (valid : f.problem? state = none)
    (steady : f.Steady) (starts : f.Starts entry mode) {d₁ d₂ : Term}
    (h₁ : d₁.WellSorted ∧ d₁.sort.numeric = true) (h₂ : d₂.WellSorted ∧ d₂.sort.numeric = true) :
    (∀ z : NumSort, ∃ s₀, f.after entry mode (.num z 0) = .ok s₀ ∧
      (∀ (m : Meaning) (ρ : Env), ρ.Typed → s₀.values m ρ = entry.values m ρ) ∧
      ∀ id, Table.get? f.rates id = none → s₀.get? id = entry.get? id) ∧
    ∃ s₁ s₂ d s, f.after entry mode d₁ = .ok s₁ ∧ f.after s₁ mode d₂ = .ok s₂ ∧
      Term.mkAdd [d₁, d₂] = .ok d ∧ f.after entry mode d = .ok s ∧
      (∀ (m : Meaning) (ρ : Env), ρ.Typed → s₂.values m ρ = s.values m ρ) ∧
      ∀ id, Table.get? f.rates id = none →
        s₁.get? id = entry.get? id ∧ s₂.get? id = entry.get? id ∧ s.get? id = entry.get? id := by
  obtain ⟨speed, speeds⟩ := steady.exists_speed starts
  have begins : f.OnWay speed entry (fun _ _ => 0) entry := starts.onWay
  refine ⟨fun z => ?_, ?_⟩
  · obtain ⟨s₀, h₀, stays⟩ := steady.flow valid speeds (amount_num z 0) begins
    exact ⟨s₀, h₀, fun m ρ hρ => stays.values_eq begins hρ (by simp), fun id => stays.get?_eq⟩
  · obtain ⟨d, hd, sum, value⟩ := (amount_deep.2 h₁).exists_sum (amount_deep.2 h₂)
    obtain ⟨s₁, hs₁, first⟩ := steady.flow valid speeds (amount_deep.2 h₁) begins
    obtain ⟨s₂, hs₂, second⟩ := steady.flow valid speeds (amount_deep.2 h₂) first
    obtain ⟨s, hs, whole⟩ := steady.flow valid speeds sum begins
    refine ⟨s₁, s₂, d, s, hs₁, hs₂, hd, hs, fun m ρ hρ => second.values_eq whole hρ ?_,
      fun id still => ⟨first.get?_eq still, second.get?_eq still, whole.get?_eq still⟩⟩
    simp [value m ρ hρ]

theorem wellSorted_real (q : Rat) : (real q).WellSorted :=
  .operator rfl rfl (by simp [real, operands])

/-! ## A tank -/

def tankValve : Var := ⟨"valve", .real, .logical⟩

def tankPosition : Var := ⟨"p", .real, .bound⟩

/-- The tank fills twice as fast as its valve is open if no position is above the valve's. -/
def tank : Flow where
  clock := ⟨"c", .real, .bound⟩
  rates := [("level", .ite
    (.quant .all tankPosition (.cmp .le (.var tankPosition) (.var tankValve)))
    (.mul .real [.real 2, .var tankValve]) .zero)]
  solution := []

/-- The tank at the start, with the valve in the position of the step. -/
def tankEntry : Subst :=
  [("level", .var (Symbol.state "level" .real 0 .entry)),
    ("valve", .var (Symbol.state "valve" .real 0 .entry))]

theorem problem?_tank : tank.problem? [("level", .real), ("valve", .real)] = none := by cbv

theorem steady_tank : tank.Steady := by
  refine ⟨rfl, ?_, by simp [tank, sort, NumSort.toSort, TermSort.numeric], ?_⟩
  · simp only [tank, List.mem_singleton, forall_eq]
    refine .operator rfl rfl ?_
    simp only [operands, List.mem_cons, List.not_mem_nil, or_false, forall_eq_or_imp, forall_eq]
    refine ⟨.quant rfl (.operator rfl rfl ?_), .operator rfl rfl ?_, wellSorted_real 0⟩
    · simpa [operands] using ⟨.var _, .var _⟩
    · simpa [operands] using ⟨wellSorted_real 2, .var _⟩
  · simp only [tank, List.mem_singleton, forall_eq]
    intro q v body hv hr
    obtain rfl : v = tankPosition := by
      simp only [subterms, nodes, nodesAll, real, zero, ↓reduceIte, List.append_nil,
        List.cons_append, List.nil_append, List.mem_cons, List.not_mem_nil, or_false, reduceCtorEq,
        false_or, quant.injEq] at hv
      exact hv.2.1
    cases hr

theorem starts_tank : tank.Starts tankEntry [] := by
  refine ⟨?_, ?_⟩
  · simp only [tankEntry, List.mem_cons, List.not_mem_nil, or_false]
    rintro e (rfl | rfl) - <;> exact ⟨.var _, rfl⟩
  · simp only [tank, List.mem_singleton, forall_eq]
    intro v hv hr u hu
    obtain rfl | rfl : v = tankPosition ∨ v = tankValve := by
      simpa [subterms, nodes, nodesAll, real, zero, or_assoc] using hv
    · cases hr
    · have read : (Table.merge [] tankEntry).get? tankValve.name =
          some (.var (Symbol.state "valve" .real 0 .entry)) := by cbv
      obtain rfl := Option.some.inj (read.symm.trans hu)
      exact ⟨.var _, rfl⟩

/-- The tank fills for the duration of a step and then for three more units of time. -/
theorem rates_compose_tank : ∃ s₁ s₂ d s,
    tank.after tankEntry [] (.var (Symbol.time 0)) = .ok s₁ ∧ tank.after s₁ [] (real 3) = .ok s₂ ∧
      Term.mkAdd [.var (Symbol.time 0), real 3] = .ok d ∧ tank.after tankEntry [] d = .ok s ∧
      ∀ (m : Meaning) (ρ : Env), ρ.Typed → s₂.values m ρ = s.values m ρ := by
  have elapsed : (Term.var (Symbol.time 0)).WellSorted ∧
      (Term.var (Symbol.time 0)).sort.numeric = true := ⟨.var _, rfl⟩
  obtain ⟨-, s₁, s₂, d, s, hs₁, hs₂, hd, hs, same, -⟩ := rates_compose problem?_tank steady_tank
    starts_tank elapsed ⟨wellSorted_real 3, rfl⟩
  exact ⟨s₁, s₂, d, s, hs₁, hs₂, hd, hs, same⟩

/-! ## A hidden variable -/

def veiled : Var := ⟨"x", .real, .logical⟩

/-- A flow whose rate binds the variable that it changes. -/
def veiling : Flow where
  clock := ⟨"c", .real, .bound⟩
  rates := [("x", .ite (.quant .all veiled (.cmp .gt (.var veiled) .zero)) (.real 1) (.real 2))]
  solution := []

theorem problem?_veiling : veiling.problem? [("x", .real)] = none := by cbv

theorem after_veiling : veiling.after [("x", zero)] [] (real 1) = .ok [("x", real 2)] ∧
    veiling.after [("x", real 2)] [] (real 1) = .ok [("x", real 3)] ∧
    veiling.after [("x", zero)] [] (real 2) = .ok [("x", real 4)] := by
  refine ⟨?_, ?_, ?_⟩ <;> cbv

def metered : Flow where
  clock := ⟨"c", .real, .bound⟩
  rates := [("x", .var ⟨"k", .real, .logical⟩)]
  solution := []

theorem problem?_metered : metered.problem? [("x", .real)] = none := by cbv

theorem steady_metered : metered.Steady :=
  ⟨rfl, by simpa [metered] using .var _, by simp [metered, sort, TermSort.numeric],
    by simp [metered]⟩

theorem after_metered : metered.after [("x", zero)] [("k", top)] zero =
      .error (.fault .booleanOperand) ∧
    metered.after [("x", top)] [("k", zero)] zero = .error (.fault .booleanOperand) := by
  constructor <;> cbv

theorem rate_veiling : (Term.ite (.quant .all veiled (.cmp .gt (.var veiled) .zero)) (.real 1)
    (.real 2)).WellSorted := by
  refine .operator rfl rfl ?_
  simp only [operands, List.mem_cons, List.not_mem_nil, or_false, forall_eq_or_imp, forall_eq]
  refine ⟨.quant rfl (.operator rfl rfl ?_), wellSorted_real 1, wellSorted_real 2⟩
  simpa [operands] using ⟨.var _, wellSorted_real 0⟩

theorem starts_veiling : veiling.Starts [("x", zero)] [] := by
  refine ⟨by simpa using fun _ => ⟨wellSorted_real 0, rfl⟩, ?_⟩
  simp only [veiling, List.mem_singleton, forall_eq]
  intro v hv _ u hu
  obtain rfl : v = veiled := by simpa [subterms, nodes, real, zero] using hv
  obtain rfl : zero = u := by
    simpa [Table.merge, Table.putAll, Table.put, veiled, Table.get?] using hu
  exact ⟨wellSorted_real 0, rfl⟩

/-- A rate that binds what the flow changes is another one on the way. And a truth value for a
parameter, or for what flows, has no state reached. -/
theorem rates_hidden :
    (¬ ∀ (f : Flow) (state : Table TermSort), f.problem? state = none → f.solution = [] →
      (∀ e ∈ f.rates, e.2.WellSorted ∧ e.2.sort.numeric = true) →
      ∀ entry mode : Subst, f.Starts entry mode → ∀ d₁ d₂ : Term,
      d₁.WellSorted ∧ d₁.sort.numeric = true → d₂.WellSorted ∧ d₂.sort.numeric = true →
      ∃ s₁ s₂ d s, f.after entry mode d₁ = .ok s₁ ∧ f.after s₁ mode d₂ = .ok s₂ ∧
        Term.mkAdd [d₁, d₂] = .ok d ∧ f.after entry mode d = .ok s ∧
        ∀ ρ : Env, ρ.Typed → s₂.values .standard ρ = s.values .standard ρ) ∧
    ∃ (f : Flow) (state : Table TermSort), f.problem? state = none ∧ f.Steady ∧
      (∀ s, f.after [("x", zero)] [("k", top)] zero ≠ .ok s) ∧
      ∀ s, f.after [("x", top)] [("k", zero)] zero ≠ .ok s := by
  refine ⟨fun h => ?_, metered, _, problem?_metered, steady_metered, ?_, ?_⟩
  rotate_left
  · simp [after_metered]
  · simp [after_metered]
  obtain ⟨s₁, s₂, d, s, hs₁, hs₂, hd, hs, same⟩ := h veiling _ problem?_veiling rfl
    (by simpa [veiling] using ⟨rate_veiling, rfl⟩) _ _ starts_veiling (real 1) (real 1)
    ⟨wellSorted_real 1, rfl⟩ ⟨wellSorted_real 1, rfl⟩
  obtain ⟨first, second, whole⟩ := after_veiling
  obtain rfl : real 2 = d := by
    have sum : Term.mkAdd [real 1, real 1] = .ok (real 2) := by cbv
    exact Except.ok.inj (sum.symm.trans hd)
  cases first.symm.trans hs₁
  cases second.symm.trans hs₂
  cases whole.symm.trans hs
  have values := same .blank Env.blank_sorted.typed
  norm_num [Table.values, Table.mapValues, real] at values

end FlowOf

end HybridCheck
