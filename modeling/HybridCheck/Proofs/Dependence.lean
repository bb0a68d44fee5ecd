import HybridCheck.Proofs.Sorting

/-!
# What a value depends on, flow primitives included

The flow and the body of a flow primitive read the identifiers that the segment has values for, its
clock and, in a body that holds throughout, the references that its exit resolves. These are given
by the segment. Whatever else they read comes from outside, as do the clock in a rate and the
references in the flow of an integral. A term that reads only certain variables and references from
outside has a value that depends on these alone.
-/

namespace HybridCheck

namespace Env

/-- Two environments agree on the variables `P` and on the references after a jump `Q`. -/
structure AgreeOn (P Q : Var → Prop) (ρ ρ' : Env) : Prop where
  now : ∀ v, P v → ρ.now v = ρ'.now v
  next : ∀ v, Q v → ρ.next v = ρ'.next v

variable {P P' Q Q' R : Var → Prop} {ρ ρ' : Env}

theorem AgreeOn.mono (h : AgreeOn P Q ρ ρ') (hP : ∀ v, P' v → P v) (hQ : ∀ v, Q' v → Q v) :
    AgreeOn P' Q' ρ ρ' :=
  ⟨fun v hv => h.now v (hP v hv), fun v hv => h.next v (hQ v hv)⟩

theorem AgreeOn.set (h : AgreeOn P Q ρ ρ') (v : Var) (x : Value) :
    AgreeOn (fun w => P w ∨ w = v) Q (ρ.set v x) (ρ'.set v x) := by
  refine ⟨fun w hw => ?_, h.next⟩
  by_cases hwv : w = v
  · simp [hwv]
  · rw [set_now_of_ne _ _ hwv, set_now_of_ne _ _ hwv]
    exact h.now w (hw.resolve_right hwv)

/-- Reading identifiers from one table makes environments agree on those that have a value. -/
theorem AgreeOn.bind (h : AgreeOn P Q ρ ρ') {t : Table Value}
    (read : ∀ v, R v → v.role = .logical ∧ ∃ x, t.get? v.name = some x ∧ Value.Fits v.sort x) :
    AgreeOn (fun v => P v ∨ R v) Q (ρ.bind t) (ρ'.bind t) := by
  refine ⟨fun v hv => ?_, h.next⟩
  simp only [Env.bind]
  rcases hv with hv | hv
  · rw [h.now v hv]
  · obtain ⟨role, x, hx, fits⟩ := read v hv
    rw [if_pos role, if_pos role, hx, Value.found_some fits, Value.found_some fits]

theorem AgreeOn.bindNext (h : AgreeOn P Q ρ ρ') {t : Table Value}
    (read : ∀ v, R v → ∃ x, t.get? v.name = some x ∧ Value.Fits v.sort x) :
    AgreeOn P (fun v => Q v ∨ R v) (ρ.bindNext t) (ρ'.bindNext t) := by
  refine ⟨h.now, fun v hv => ?_⟩
  simp only [Env.bindNext]
  rcases hv with hv | hv
  · rw [h.next v hv]
  · obtain ⟨x, hx, fits⟩ := read v hv
    rw [hx, Value.found_some fits, Value.found_some fits]

end Env

open Env

/-- The value of a term depends on the variables `P` and the references after a jump `Q` only. -/
def Term.DependsOn (P Q : Var → Prop) (t : Term) : Prop :=
  ∀ ρ ρ' : Env, ρ.Typed → ρ'.Typed → AgreeOn P Q ρ ρ' → t.eval ρ = t.eval ρ'

namespace SegmentOf

/-- A variable is an identifier with a value of its kind at the start of a segment. -/
def Maps (seg : Segment) (v : Var) : Prop :=
  v.role = .logical ∧ ∃ u, seg.context.get? v.name = some u ∧ u.sort.alike v.sort = true

theorem mem_terms {seg : Segment} {e : String × Term}
    (h : e ∈ seg.flow.rates ∨ e ∈ seg.flow.solution) : e.2 ∈ seg.flow.terms :=
  List.mem_map_of_mem (List.mem_append.2 h)

/-- What is known along a flow is mapped at its start or the clock. -/
theorem knows_or_outside {seg : Segment} {P : Var → Prop} {v : Var} (h : P v ∨ seg.Knows v) :
    (P v ∨ seg.Maps v) ∨ v = seg.flow.clock := by
  rcases h with h | h | h
  · exact Or.inl (Or.inl h)
  · exact Or.inr h
  · exact Or.inl (Or.inr h)

/-! ## Along a flow -/

section Along

variable {seg : Segment} {inner : List Term} {P Q : Var → Prop} {value : Term → Value} {σ σ' : Env}

variable (fits : ∀ a ∈ seg.parts, Value.Fits a.sort (value a))
include fits

/-- What an identifier is read from at the start of a segment is of its kind. -/
theorem Maps.start {v : Var} (h : seg.Maps v) : v.role = .logical ∧ ∃ x,
    (Table.merge (Table.mapValues value seg.mode) (Table.mapValues value seg.entry)).get? v.name =
      some x ∧ Value.Fits v.sort x := by
  obtain ⟨role, u, hu, alike⟩ := h
  have part : u ∈ seg.parts := of_context (H := (· ∈ seg.parts))
    (fun e he => mem_parts ((List.mem_append.1 he).imp_right Or.inr)) hu
  refine ⟨role, value u, ?_, (fits u part).of_alike alike⟩
  rw [← Table.mapValues_merge, Table.get?_mapValues, ← context, hu]
  rfl

/-- A reference that the exit resolves is read from a value of its kind. -/
theorem Resolves.exit {v : Var} (h : seg.Resolves v) :
    ∃ x, (Table.mapValues value seg.exit).get? v.name = some x ∧ Value.Fits v.sort x := by
  obtain ⟨u, hu, alike⟩ := h
  have part : u ∈ seg.parts := mem_parts (Or.inr (Or.inl (Table.mem_of_get? hu)))
  exact ⟨value u, by rw [Table.get?_mapValues, hu]; rfl, (fits u part).of_alike alike⟩

variable (fitting : seg.Fitting inner)
include fitting

omit fits in
theorem Fitting.typed_clock (h : σ.Typed) (d : ℝ) : (σ.set seg.flow.clock (.number d)).Typed :=
  h.set (Value.fits_number fitting.clock d)

omit fits in
/-- An identifier that flows is a number. -/
theorem Fitting.numeric_of_moves {v : Var} (h : seg.Maps v)
    (entered : v.name ∈ Table.names seg.entry) (moves : seg.flow.moves v.name = true) :
    v.sort.numeric = true := by
  obtain ⟨-, u, hu, alike⟩ := h
  obtain ⟨w, hw, hget⟩ := Table.get?_putAll_of_mem (t := seg.mode) entered
  obtain rfl : w = u := by
    rw [context, Table.merge, hget] at hu
    exact Option.some.inj hu
  exact TermSort.numeric_of_alike (TermSort.alike_symm alike) (fitting.moving _ hw moves)

variable (flow : ∀ a ∈ seg.flow.terms, a.WellSorted)
include flow

/-- What an identifier is read from in the state reached is of its kind. -/
theorem Maps.reached {v : Var} (h : seg.Maps v) (hσ : σ.Typed) (d : ℝ) : v.role = .logical ∧ ∃ x,
    (Table.merge (Table.mapValues value seg.mode) (seg.flow.stateAt σ
      (Table.mapValues value seg.mode) (Table.mapValues value seg.entry) d)).get? v.name = some x ∧
        Value.Fits v.sort x := by
  obtain ⟨role, x, hx, fitsx⟩ := h.start fits
  simp only [FlowOf.stateAt, FlowOf.reach]
  generalize hrates : Term.evalTable seg.flow.rates _ = rates
  generalize hsolution : Term.evalTable seg.flow.solution _ = solution
  rcases Table.get?_merge_map (Table.mapValues value seg.mode) (Table.mapValues value seg.entry)
    (fun e => FlowOf.moved rates solution d e.1 e.2) v.name with ⟨same, -⟩ | ⟨y, hy, before, after⟩
  · exact ⟨role, x, same.trans hx, fitsx⟩
  refine ⟨role, _, after, ?_⟩
  obtain rfl : y = x := Option.some.inj (before.symm.trans hx)
  have entered : v.name ∈ Table.names seg.entry := by
    obtain ⟨e, he, heq⟩ := List.mem_map.1 hy
    exact List.mem_map.2 ⟨e, he, congrArg Prod.fst heq⟩
  have numeric := fitting.numeric_of_moves h entered
  unfold FlowOf.moved
  split
  · next z hz =>
    rw [← hsolution, Term.evalTable_eq, Table.get?_mapValues, Option.map_eq_some_iff] at hz
    obtain ⟨a, ha, rfl⟩ := hz
    have mem : a ∈ seg.flow.terms :=
      List.mem_map.2 ⟨_, List.mem_append.2 (Or.inr (Table.mem_of_get? ha)), rfl⟩
    rw [Term.eval_eq_number (Term.sorted_deep.2 (flow a mem)) (fitting.flow a mem)
      (fitting.typed_clock (hσ.bind _) d)]
    exact Value.fits_number (numeric (by simp [FlowOf.moves, Table.has, ha])) _
  · split
    · next r hr =>
      rw [← hrates, Term.evalTable_eq, Table.get?_mapValues, Option.map_eq_some_iff] at hr
      obtain ⟨a, ha, -⟩ := hr
      exact Value.fits_number (numeric (by simp [FlowOf.moves, Table.has, ha])) _
    · exact fitsx

variable
  (rates : ∀ e ∈ seg.flow.rates, e.2.DependsOn (fun v => P v ∨ seg.Maps v) Q)
  (solution : ∀ e ∈ seg.flow.solution, e.2.DependsOn (fun v => P v ∨ seg.Knows v) Q)
  (hσ : σ.Typed) (hσ' : σ'.Typed) (agree : AgreeOn P Q σ σ')
include rates solution hσ hσ' agree

omit flow in
/-- The state reached depends on what the flow reads from outside. -/
theorem Fitting.stateAt_agree (d : ℝ) :
    seg.flow.stateAt σ (Table.mapValues value seg.mode) (Table.mapValues value seg.entry) d =
      seg.flow.stateAt σ' (Table.mapValues value seg.mode) (Table.mapValues value seg.entry) d := by
  have start := agree.bind fun v (hv : seg.Maps v) => hv.start fits
  have clocked :=
    (start.set seg.flow.clock (.number d)).mono (fun _ => knows_or_outside) fun _ h => h
  simp only [FlowOf.stateAt, Term.evalTable_eq]
  congr 1
  · exact Table.mapValues_congr fun e he => rates e he _ _ (hσ.bind _) (hσ'.bind _) start
  · exact Table.mapValues_congr fun e he => solution e he _ _ (fitting.typed_clock (hσ.bind _) d)
      (fitting.typed_clock (hσ'.bind _) d) clocked

/-- What is read at an instant of a flow depends on what is read from outside. -/
theorem Fitting.instant_agree (d : ℝ) : AgreeOn (fun v => P v ∨ seg.Knows v) Q
    (seg.flow.instant σ (Table.mapValues value seg.mode) (Table.mapValues value seg.entry) d)
    (seg.flow.instant σ' (Table.mapValues value seg.mode) (Table.mapValues value seg.entry) d) := by
  simp only [FlowOf.instant]
  rw [fitting.stateAt_agree fits rates solution hσ hσ' agree]
  have reached := agree.bind fun v (hv : seg.Maps v) => hv.reached fits fitting flow hσ' d
  exact (reached.set seg.flow.clock (.number d)).mono (fun _ => knows_or_outside) fun _ h => h

end Along

/-! ## Flow primitives -/

section Primitive

open Term

variable {seg : Segment} {inner : List Term} {P Q : Var → Prop} {f : Term → Term} {ρ ρ' : Env}

theorem mapParts_id (seg : Segment) : seg.mapParts id = seg := by
  simp [mapParts, Table.mapValues]

variable (fitting : seg.Fitting inner) (parts : ∀ a ∈ seg.parts, a.WellSorted)
  (same : ∀ a ∈ seg.parts, (f a).eval ρ = a.eval ρ')
  (hρ : ρ.Typed) (hρ' : ρ'.Typed) (agree : AgreeOn P Q ρ ρ')
include fitting parts same hρ hρ' agree

omit fitting parts hρ hρ' agree in
/-- The values of the parts of a segment in another environment. -/
theorem evalTable_mapParts :
    evalTable (seg.mapParts f).entry ρ = Table.mapValues (·.eval ρ') seg.entry ∧
    evalTable (seg.mapParts f).exit ρ = Table.mapValues (·.eval ρ') seg.exit ∧
    evalTable (seg.mapParts f).mode ρ = Table.mapValues (·.eval ρ') seg.mode := by
  have table (es : Table Term) (h : ∀ e ∈ es, e ∈ seg.entry ∨ e ∈ seg.exit ∨ e ∈ seg.mode) :
      evalTable (Table.mapValues f es) ρ = Table.mapValues (·.eval ρ') es := by
    rw [evalTable_eq, Table.mapValues, Table.mapValues, List.map_map]
    exact List.map_congr_left fun e he => by simp [same e.2 (mem_parts (h e he))]
  exact ⟨table _ fun _ => Or.inl, table _ fun _ he => Or.inr (Or.inl he),
    table _ fun _ he => Or.inr (Or.inr he)⟩

/-- An integral whose parts have their values from another environment has its value from it. -/
theorem Fitting.eval_integral
    (rates : ∀ e ∈ seg.flow.rates, e.2.DependsOn (fun v => P v ∨ seg.Maps v) Q)
    (solution : ∀ e ∈ seg.flow.solution, e.2.DependsOn (fun v => P v ∨ seg.Knows v) Q) :
    (integral (seg.mapParts f)).eval ρ = (integral seg).eval ρ' := by
  obtain ⟨entry, exit, mode⟩ := evalTable_mapParts same
  have fits a ha := fits_eval (sorted_deep.2 (parts a ha)) hρ'
  have time : (seg.mapParts f).time.eval ρ = seg.time.eval ρ' := same _ (List.mem_cons_self ..)
  have reached d := fitting.stateAt_agree fits rates solution hρ hρ' agree d
  rw [Term.eval_integral, Term.eval_integral, time, entry, exit, mode]
  simp only [evalTable_eq]
  rw [← reached]
  rfl

/-- A body that holds throughout a segment whose parts have their values from another environment
has its value from it. -/
theorem Fitting.eval_throughout {body : Term} (flow : ∀ a ∈ seg.flow.terms, a.WellSorted)
    (rates : ∀ e ∈ seg.flow.rates,
      e.2.DependsOn (fun v => P v ∨ seg.Maps v) fun v => Q v ∨ seg.Resolves v)
    (solution : ∀ e ∈ seg.flow.solution,
      e.2.DependsOn (fun v => P v ∨ seg.Knows v) fun v => Q v ∨ seg.Resolves v)
    (reads : body.DependsOn (fun v => P v ∨ seg.Knows v) fun v => Q v ∨ seg.Resolves v) :
    (throughout (seg.mapParts f) body).eval ρ = (throughout seg body).eval ρ' := by
  obtain ⟨entry, exit, mode⟩ := evalTable_mapParts same
  have fits a ha := fits_eval (sorted_deep.2 (parts a ha)) hρ'
  have time : (seg.mapParts f).time.eval ρ = seg.time.eval ρ' := same _ (List.mem_cons_self ..)
  have resolved := agree.bindNext fun v (hv : seg.Resolves v) => hv.exit fits
  have typed {σ : Env} (hσ : σ.Typed) (mode entry : Table Value) (d : ℝ) :
      (seg.flow.instant σ mode entry d).Typed := fitting.typed_clock (hσ.bind _) d
  have instants d := reads _ _ (typed (hρ.bindNext _) _ _ d) (typed (hρ'.bindNext _) _ _ d)
    (fitting.instant_agree fits flow rates solution (hρ.bindNext _) (hρ'.bindNext _) resolved d)
  rw [Term.eval_throughout, Term.eval_throughout, time, entry, exit, mode]
  simp only [evalTable_eq, ← instants]
  rfl

end Primitive

end SegmentOf

namespace Term

/-- A term reads from outside, apart from what it binds itself, only the variables `P` and the
references after a jump `Q`. -/
inductive ReadsOnly : (Var → Prop) → (Var → Prop) → Term → Prop where
  | var {P Q : Var → Prop} {v : Var} : P v → ReadsOnly P Q (var v)
  | next {P Q : Var → Prop} {v : Var} : Q v → ReadsOnly P Q (next v)
  | operator {P Q : Var → Prop} {t : Term} {o : Operator} : t.operator? = some o →
      (∀ a ∈ t.operands, ReadsOnly P Q a) → ReadsOnly P Q t
  | quant {P Q : Var → Prop} {q : Quantifier} {v : Var} {body : Term} :
      ReadsOnly (fun w => P w ∨ w = v) Q body → ReadsOnly P Q (quant q v body)
  | integral {P Q : Var → Prop} {seg : Segment} : (∀ a ∈ seg.parts, ReadsOnly P Q a) →
      (∀ e ∈ seg.flow.rates, ReadsOnly (fun v => P v ∨ seg.Maps v) Q e.2) →
      (∀ e ∈ seg.flow.solution, ReadsOnly (fun v => P v ∨ seg.Knows v) Q e.2) →
      ReadsOnly P Q (integral seg)
  | throughout {P Q : Var → Prop} {seg : Segment} {body : Term} :
      (∀ a ∈ seg.parts, ReadsOnly P Q a) →
      (∀ e ∈ seg.flow.rates,
        ReadsOnly (fun v => P v ∨ seg.Maps v) (fun v => Q v ∨ seg.Resolves v) e.2) →
      (∀ e ∈ seg.flow.solution,
        ReadsOnly (fun v => P v ∨ seg.Knows v) (fun v => Q v ∨ seg.Resolves v) e.2) →
      ReadsOnly (fun v => P v ∨ seg.Knows v) (fun v => Q v ∨ seg.Resolves v) body →
      ReadsOnly P Q (throughout seg body)

variable {P Q : Var → Prop} {t : Term}

/-- The value of a well-sorted term depends on what it reads. -/
theorem ReadsOnly.dependsOn (h : t.ReadsOnly P Q) (sorted : t.WellSorted) : t.DependsOn P Q := by
  induction h with
  | var hv => exact fun ρ ρ' _ _ agree => agree.now _ hv
  | next hv => exact fun ρ ρ' _ _ agree => agree.next _ hv
  | operator ho _ ih =>
    intro ρ ρ' hρ hρ' agree
    rw [eval_operator ho, eval_operator ho]
    exact congrArg _ (List.map_congr_left fun a ha =>
      ih a ha ((sorted.of_operator ho).2 a ha) ρ ρ' hρ hρ' agree)
  | @quant _ _ q v body _ ih =>
    intro ρ ρ' hρ hρ' agree
    cases sorted with
    | operator ho => cases ho
    | quant hs sorted =>
      have each x (hx : Value.IsOf v.sort x) : body.eval (ρ.set v x) = body.eval (ρ'.set v x) :=
        ih sorted _ _ (hρ.set hx.fits) (hρ'.set hx.fits) (agree.set v x)
      exact eval_quant_congr each
  | @integral _ _ seg _ _ _ ihParts ihRates ihSolution =>
    intro ρ ρ' hρ hρ' agree
    cases sorted with
    | operator ho => cases ho
    | integral fits parts flow =>
      have rate e he := ihRates e he (flow _ (SegmentOf.mem_terms (Or.inl he)))
      have solved e he := ihSolution e he (flow _ (SegmentOf.mem_terms (Or.inr he)))
      have same a ha := ihParts a ha (parts a ha) ρ ρ' hρ hρ' agree
      have := fits.eval_integral (f := id) parts same hρ hρ' agree rate solved
      rwa [SegmentOf.mapParts_id] at this
  | @throughout _ _ seg body _ _ _ _ ihParts ihRates ihSolution ihBody =>
    intro ρ ρ' hρ hρ' agree
    cases sorted with
    | operator ho => cases ho
    | throughout fits hs parts inner =>
      have flow a (ha : a ∈ seg.flow.terms) := inner a (List.mem_cons_of_mem _ ha)
      have rate e he := ihRates e he (flow _ (SegmentOf.mem_terms (Or.inl he)))
      have solved e he := ihSolution e he (flow _ (SegmentOf.mem_terms (Or.inr he)))
      have same a ha := ihParts a ha (parts a ha) ρ ρ' hρ hρ' agree
      have := fits.eval_throughout (f := id) parts same hρ hρ' agree flow rate solved
        (ihBody (inner body (List.mem_cons_self ..)))
      rwa [SegmentOf.mapParts_id] at this

end Term

end HybridCheck
