import HybridCheck.Proofs.Runs

/-!
# Reading terms along a step

The terms of a well-sorted automaton read declared variables only, so their values depend on nothing
but the values of these: not on the propositions that share a table with the mode variables, nor on
the environment a flow is followed in. The segment that a mode spends in a step is well-formed, and
so is every constraint of the automaton along it.
-/

namespace HybridCheck

/-- A table has a value of the kind of its sort for every declared variable. -/
structure Table.Suits (sorts : Table TermSort) (t : Table Value) : Prop where
  names : t.names = sorts.names
  value : ∀ name s, sorts.get? name = some s → ∃ x, t.get? name = some x ∧ Value.Fits s x

theorem Table.Fills.suits {sorts : Table TermSort} {t : Table Value} (h : sorts.Fills t) :
    sorts.Suits t := by
  refine ⟨h.names, fun name s hs => ?_⟩
  obtain ⟨x, hx, hvalue⟩ := h.get? hs
  exact ⟨x, hx, hvalue.fits⟩

theorem FlowOf.mem_flowing {f : Flow} {id : String} (h : f.moves id = true) : id ∈ f.flowing := by
  have hsome : (Table.get? (Table.merge f.rates f.solution) id).isSome = true := by
    refine Table.isSome_get?_merge.2 ?_
    simp only [moves, Table.has, Bool.or_eq_true] at h
    refine h.imp (fun h => ?_) fun h => ?_
    all_goals
      obtain ⟨x, hx⟩ := Option.isSome_iff_exists.1 h
      exact List.mem_map_of_mem (Table.mem_of_get? hx)
  obtain ⟨x, hx⟩ := Option.isSome_iff_exists.1 hsome
  exact List.mem_map_of_mem (Table.mem_of_get? hx)

/-- A valid flow changes real variables only, each by a rate or by a solution but not by both. -/
theorem FlowOf.of_moves {f : Flow} {state : Table TermSort} (h : f.problem? state = none)
    {id : String} (hm : f.moves id = true) : state.get? id = some .real ∧
      (Table.get? f.rates id = none ∨ Table.get? f.solution id = none) := by
  rw [problem?] at h
  split at h
  · cases h
  · split at h
    · cases h
    · rw [Option.or_eq_none_iff, List.findSome?_eq_none_iff] at h
      have hc := h.1 id (mem_flowing hm)
      rw [checkFlowing] at hc
      split at hc
      · cases hc
      · next s hs =>
        split at hc
        · cases hc
        · next hreal =>
          split at hc
          · cases hc
          · next hboth =>
            refine ⟨by rw [hs, not_not.1 hreal], ?_⟩
            cases hr : Table.get? f.rates id with
            | none => exact Or.inl rfl
            | some rate => exact Or.inr (by simpa [Table.has, hr] using hboth)

namespace Automaton

variable {m : Automaton}

def SameMode (m : Automaton) (t t' : Table Value) : Prop :=
  ∀ v, m.IsMode v → t.get? v.name = t'.get? v.name

section

variable (accepted : m.Accepted) {t t' state : Table Value}
include accepted

theorem Accepted.sameMode (ρ : Env) (k : Nat) :
    m.SameMode (Term.evalTable (m.discreteSubst k) ρ) (Trajectory.ofEnv m ρ k).mode := by
  intro v hv
  have h : Table.get? (m.modeVars.map fun e => (e.1, ρ.now (Symbol.discrete e.1 e.2 k))) v.name =
      some (ρ.now (Symbol.discrete v.name v.sort k)) := by
    rw [Table.get?_map, hv]
    rfl
  rw [Term.evalTable_eq, Table.get?_mapValues, accepted.get?_discreteSubst hv]
  exact h.symm

/-- The value of a declared variable is found in both tables. -/
theorem Accepted.lookup (same : m.SameMode t t') (hmode : m.modeVars.Fills t')
    (hstate : m.stateVars.Suits state) {v : Var} (hv : m.IsState v ∨ m.IsMode v) :
    ∃ x, Value.Fits v.sort x ∧ (t.merge state).get? v.name = some x ∧
      (t'.merge state).get? v.name = some x := by
  have distinct : state.names.Nodup := hstate.names ▸ accepted.distinct_state
  rw [Table.get?_merge distinct, Table.get?_merge distinct]
  rcases hv with hv | hv
  · obtain ⟨x, hx, fits⟩ := hstate.value _ _ hv
    exact ⟨x, fits, by rw [hx]; rfl, by rw [hx]; rfl⟩
  · have hnone : state.get? v.name = none :=
      Table.get?_eq_none.2 (hstate.names ▸ accepted.state_none hv)
    obtain ⟨x, hx, value⟩ := hmode.get? hv
    exact ⟨x, value.fits, by rw [hnone, same v hv, hx]; rfl, by rw [hnone, hx]; rfl⟩

theorem Accepted.now_eq (same : m.SameMode t t') (hmode : m.modeVars.Fills t')
    (hstate : m.stateVars.Suits state) (ρ ρ' : Env) {v : Var} (hv : m.Declares v) :
    (ρ.bind (t.merge state)).now v = (ρ'.bind (t'.merge state)).now v := by
  obtain ⟨x, fits, h, h'⟩ := accepted.lookup same hmode hstate hv.2
  rw [Env.bind_now hv.1 h fits, Env.bind_now hv.1 h' fits]

theorem Accepted.next_eq (same : m.SameMode t t') (hmode : m.modeVars.Fills t')
    (hstate : m.stateVars.Suits state) (ρ ρ' : Env) {v : Var} (hv : m.IsState v ∨ m.IsMode v) :
    (ρ.bindNext (t.merge state)).next v = (ρ'.bindNext (t'.merge state)).next v := by
  obtain ⟨x, fits, h, h'⟩ := accepted.lookup same hmode hstate hv
  rw [Env.bindNext_next h fits, Env.bindNext_next h' fits]

omit accepted in
theorem located_eq (same : m.SameMode t t') (hmode : m.modeVars.Fills t') (ρ ρ' : Env) {v : Var}
    (hv : v.role = .logical ∧ m.IsMode v) : (ρ.bind t).now v = (ρ'.bind t').now v := by
  obtain ⟨x, hx, value⟩ := hmode.get? hv.2
  rw [Env.bind_now hv.1 ((same v hv.2).trans hx) value.fits, Env.bind_now hv.1 hx value.fits]

end

/-! ## Flows -/

section

open Term

variable (accepted : m.Accepted) (wellSorted : m.WellSorted) {md : Mode} (hmd : md ∈ m.modes)
  {t t' entry : Table Value}
include accepted hmd

theorem Accepted.clock_ne {v : Var} (hv : m.Declares v) : v ≠ md.flow.clock := by
  rintro rfl
  have := (FlowOf.of_valid (accepted.modes md hmd).flow).1
  rw [hv.1] at this
  cases this

include wellSorted

/-- A flow leads to the same state in every environment. -/
theorem WellSorted.stateAt_eq (same : m.SameMode t t') (hmode : m.modeVars.Fills t')
    (hentry : m.stateVars.Suits entry) (ρ ρ' : Env) (d : ℝ) :
    md.flow.stateAt ρ t entry d = md.flow.stateAt ρ' t' entry d := by
  have now {v : Var} (hv : m.Declares v) := accepted.now_eq same hmode hentry ρ ρ' hv
  have rates : evalTable md.flow.rates (ρ.bind (t.merge entry)) =
      evalTable md.flow.rates (ρ'.bind (t'.merge entry)) := by
    rw [evalTable_eq, evalTable_eq]
    refine Table.mapValues_congr fun e he => ?_
    obtain ⟨-, inScope⟩ := wellSorted.flow md hmd e.2
      (List.mem_map.2 ⟨e, List.mem_append.2 (Or.inl he), rfl⟩)
    have unclocked := (FlowOf.of_checkRate
      ((FlowOf.of_valid (accepted.modes md hmd).flow).2.2 e he)).2
    refine eval_congr (flowFree_of_plain inScope.sorted)
      ⟨fun v hv => ?_, fun v hv => (inScope.next v hv).elim⟩
    rcases inScope.now v hv with hd | rfl
    · exact now hd
    · rw [unclocked] at hv
      cases hv
  have solution : evalTable md.flow.solution
        ((ρ.bind (t.merge entry)).set md.flow.clock (.number d)) =
      evalTable md.flow.solution
        ((ρ'.bind (t'.merge entry)).set md.flow.clock (.number d)) := by
    rw [evalTable_eq, evalTable_eq]
    refine Table.mapValues_congr fun e he => ?_
    obtain ⟨-, inScope⟩ := wellSorted.flow md hmd e.2
      (List.mem_map.2 ⟨e, List.mem_append.2 (Or.inr he), rfl⟩)
    refine eval_congr (flowFree_of_plain inScope.sorted)
      ⟨fun v hv => ?_, fun v hv => (inScope.next v hv).elim⟩
    rcases inScope.now v hv with hd | rfl
    · have hne := accepted.clock_ne hmd hd
      rw [Env.set_now_of_ne _ _ hne, Env.set_now_of_ne _ _ hne]
      exact now hd
    · simp
  simp only [FlowOf.stateAt, rates, solution]

/-- The state that a flow leads to has values for all state variables. -/
theorem WellSorted.suits_stateAt {ρ : Env} (hρ : ρ.Typed) (hentry : m.stateVars.Suits entry)
    (d : ℝ) : m.stateVars.Suits (md.flow.stateAt ρ t entry d) := by
  obtain ⟨-, clock, -⟩ := FlowOf.of_valid (accepted.modes md hmd).flow
  refine ⟨?_, fun name s hs => ?_⟩
  · rw [← hentry.names]
    simp [FlowOf.stateAt, FlowOf.reach, Table.names, Function.comp_def]
  · obtain ⟨x, hx, fits⟩ := hentry.value name s hs
    rw [FlowOf.stateAt, FlowOf.reach, Table.get?_map, hx]
    refine ⟨_, rfl, ?_⟩
    have real (hm : md.flow.moves name = true) : s = .real := by
      have := (FlowOf.of_moves (accepted.modes md hmd).flow hm).1
      rw [hs] at this
      exact Option.some.inj this
    simp only [FlowOf.moved, evalTable_eq, Table.get?_mapValues]
    cases hsol : Table.get? md.flow.solution name with
    | some sol =>
      obtain ⟨numeric, inScope⟩ := wellSorted.flow md hmd sol
        (List.mem_map.2 ⟨_, List.mem_append.2 (Or.inr (Table.mem_of_get? hsol)), rfl⟩)
      have typed : ((ρ.bind (t.merge entry)).set md.flow.clock (.number d)).Typed :=
        (hρ.bind _).set (by rw [clock]; exact ⟨d, rfl⟩)
      rw [real (by simp [FlowOf.moves, Table.has, hsol])]
      exact ⟨_, eval_eq_number inScope.sorted numeric typed⟩
    | none =>
      cases hrate : Table.get? md.flow.rates name with
      | some rate =>
        rw [real (by simp [FlowOf.moves, Table.has, hrate])]
        exact ⟨_, rfl⟩
      | none => exact fits

/-- What a term says some time into a flow does not depend on the environment. -/
theorem WellSorted.eval_instant {a : Term} {next : Var → Prop}
    (ha : a.Scoped (fun v => m.Declares v ∨ v = md.flow.clock) next)
    (same : m.SameMode t t') (hmode : m.modeVars.Fills t') (hentry : m.stateVars.Suits entry)
    {ρ ρ' : Env} (hρ : ρ.Typed) (hnext : ∀ v, next v → ρ.next v = ρ'.next v) (c : ℝ) :
    a.eval (md.flow.instant ρ t entry c) = a.eval (md.flow.instant ρ' t' entry c) := by
  refine eval_congr (flowFree_of_plain ha.sorted) ⟨fun v hv => ?_, fun v hv => ?_⟩
  · rw [FlowOf.instant, FlowOf.instant]
    rcases ha.now v hv with hd | rfl
    · have hne := accepted.clock_ne hmd hd
      rw [Env.set_now_of_ne _ _ hne, Env.set_now_of_ne _ _ hne,
        ← wellSorted.stateAt_eq accepted hmd same hmode hentry ρ ρ' c]
      exact accepted.now_eq same hmode (wellSorted.suits_stateAt accepted hmd hρ hentry c) ρ ρ' hd
    · simp
  · exact hnext v (ha.next v hv)

end

/-! ## Segments -/

section

open Term

variable {md : Mode} {k : Nat} {time : Term}

/-- A term can be the duration of a step: it is a number and mentions no mode's clock. -/
structure Lasts (m : Automaton) (time : Term) : Prop where
  amount : time.Amount noFlow
  unclocked : ∀ md ∈ m.modes, time.mentions md.flow.clock = false

/-- A symbol of a step, which is neither an identifier nor a clock. -/
structure IsSymbol (t : Term) : Prop where
  var : ∃ v, t = .var v ∧ v.role ≠ .logical ∧ v.role ≠ .bound

/-- The symbols of mode variables and of propositions. -/
theorem mem_discreteSubst {k : Int} {e : String × Term} (h : e ∈ m.discreteSubst k) :
    (∃ d ∈ m.modeVars, e = (d.1, .var (Symbol.discrete d.1 d.2 k))) ∨
      ∃ d ∈ m.props, e = (d.1, .var (Symbol.discrete d.1 .bool k)) := by
  rcases Table.mem_of_mem_putAll h with h | h
  · simpa only [List.mem_append, List.mem_map, eq_comm] using h
  · cases h

theorem isSymbol_discrete {k : Int} {e : String × Term} (h : e ∈ m.discreteSubst k) :
    IsSymbol e.2 := by
  obtain ⟨x, -, rfl⟩ | ⟨x, -, rfl⟩ := mem_discreteSubst h
  · exact ⟨_, rfl, by simp [Symbol.discrete], by simp [Symbol.discrete]⟩
  · exact ⟨_, rfl, by simp [Symbol.discrete], by simp [Symbol.discrete]⟩

theorem isSymbol_state {k : Int} {p : Phase} {e : String × Term} (h : e ∈ m.stateSubst k p) :
    IsSymbol e.2 := by
  obtain ⟨x, -, rfl⟩ := List.mem_map.1 h
  exact ⟨_, rfl, by simp [Symbol.state], by simp [Symbol.state]⟩

theorem isSymbol_parts {a : Term} (h : a ∈ (m.segment md time k).parts) :
    a = time ∨ IsSymbol a := by
  simp only [SegmentOf.parts, segment, List.mem_cons, List.mem_map, List.mem_append] at h
  refine h.imp_right ?_
  rintro ⟨e, (he | he) | he, rfl⟩
  · exact isSymbol_state he
  · exact isSymbol_state he
  · exact isSymbol_discrete he

variable (accepted : m.Accepted)
include accepted

theorem Accepted.lasts (k : Int) : m.Lasts (.var (Symbol.time k)) := by
  refine ⟨amount_var rfl, fun md hmd => mentions_var_of_ne fun h => ?_⟩
  have := (FlowOf.of_valid (accepted.modes md hmd).flow).1
  rw [h] at this
  cases this

theorem Accepted.get?_allSubst {v : Var} (hv : m.IsState v ∨ m.IsMode v) (p : Phase) :
    ∃ w : Var, (m.allSubst k p).get? v.name = some (.var w) ∧ w.sort = v.sort ∧
      w.role ≠ .logical ∧ w.role ≠ .bound := by
  have distinct : (Table.names (m.stateSubst k p)).Nodup :=
    names_stateSubst (m := m) k p ▸ accepted.distinct_state
  rw [allSubst, Table.get?_merge distinct]
  rcases hv with hv | hv
  · rw [get?_stateSubst hv]
    exact ⟨_, rfl, rfl, by simp [Symbol.state]⟩
  · have hnone : (m.stateSubst k p).get? v.name = none :=
      Table.get?_eq_none.2 (names_stateSubst (m := m) k p ▸ accepted.state_none hv)
    rw [hnone, accepted.get?_discreteSubst hv]
    exact ⟨_, rfl, rfl, by simp [Symbol.discrete]⟩

theorem Accepted.reads {a : Term} {next : Var → Prop}
    (ha : a.Scoped (fun v => m.Declares v ∨ v = md.flow.clock) next)
    (hnext : ∀ v, next v → m.IsState v) : (m.segment md time k).Reads a := by
  refine ⟨ha.quantFree, fun v hv => ?_, fun v hv => ?_⟩
  · rcases ha.now v hv with hd | rfl
    · obtain ⟨w, hw, hsort, -⟩ := accepted.get?_allSubst (k := k) hd.2 .entry
      exact Or.inr ⟨hd.1, _, hw, by rw [Term.sort, hsort]; exact TermSort.alike_refl _⟩
    · exact Or.inl rfl
  · exact ⟨_, get?_stateSubst (hnext v (ha.next v hv)), TermSort.alike_refl _⟩

/-- The segment that a mode spends in a step is well-formed. -/
theorem WellSorted.proper (wellSorted : m.WellSorted) (lasts : m.Lasts time)
    (hmd : md ∈ m.modes) : (m.segment md time k).Proper where
  valid := ⟨m.stateVars, (accepted.modes md hmd).flow⟩
  exits id hid := by
    simp only [segment, names_stateSubst] at hid ⊢
    exact hid
  sorted a ha := by
    rcases isSymbol_parts ha with rfl | symbol
    · exact (plain_iff.1 lasts.amount.sorted).1
    · obtain ⟨v, rfl, -⟩ := symbol.var
      rfl
  unclocked a ha := by
    rcases isSymbol_parts ha with rfl | symbol
    · exact lasts.unclocked md hmd
    · obtain ⟨v, rfl, -, hbound⟩ := symbol.var
      refine mentions_var_of_ne ?_
      rintro rfl
      exact hbound (FlowOf.of_valid (accepted.modes md hmd).flow).1
  time := lasts.amount.numeric
  moving e he hm := by
    obtain ⟨x, hx, rfl⟩ := List.mem_map.1 he
    have hreal := (FlowOf.of_moves (accepted.modes md hmd).flow hm).1
    rw [Table.get?_of_mem accepted.distinct_state hx] at hreal
    simp only [Term.sort, Symbol.state]
    rw [Option.some.inj hreal]
    rfl
  ends e he v hv := by
    obtain ⟨x, hx, rfl⟩ := List.mem_map.1 he
    obtain ⟨s, hs, rfl⟩ := eq_state hv
    rw [Table.get?_of_mem accepted.distinct_state hx] at hs
    cases hs
    exact TermSort.alike_refl _
  flow a ha := by
    obtain ⟨numeric, inScope⟩ := wellSorted.flow md hmd a ha
    exact ⟨⟨inScope.sorted, numeric⟩, accepted.reads inScope fun _ h => h.elim⟩

omit accepted in
theorem Lasts.flowFree_parts (lasts : m.Lasts time) :
    ∀ a ∈ (m.segment md time k).parts, a.flowFree = true := by
  intro a ha
  rcases isSymbol_parts ha with rfl | symbol
  · exact (plain_iff.1 lasts.amount.sorted).2
  · obtain ⟨v, rfl, -⟩ := symbol.var
    rfl

omit accepted in
theorem Lasts.separate_throughout (lasts : m.Lasts time) (body : Term) :
    (throughout (m.segment md time k) body).Separate := by
  refine ⟨lasts.flowFree_parts, fun e he v hv => ?_⟩
  have symbol : IsSymbol e.2 := by
    rcases List.mem_append.1 he with he | he
    · exact isSymbol_state he
    · exact isSymbol_discrete he
  obtain ⟨w, hw, -⟩ := symbol.var
  rw [hw] at hv
  simp at hv

end

end Automaton

end HybridCheck
