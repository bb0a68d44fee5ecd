import HybridCheck.Proofs.BoundedEncoding
import HybridCheck.Proofs.SignInvariance
import HybridCheck.Proofs.Translation

/-!
# The active mode

A step is spent in one mode, but the signal of an automaton knows modes by their guards only: a
constraint some time into a step is true if it holds in the state that the flow of some active mode
has reached by then. As long as no two modes are active at once this is the state of the mode that
the step is spent in, and at the end of the step it is the state in which the step ends.
-/

namespace HybridCheck

/-! ## Conjunctions are transformed part by part -/

namespace Term

variable {r : Replacement} {as : List Term} {ρ : Env}

/-- A term can be transformed, and then it holds. -/
def HoldsAfter (r : Replacement) (ρ : Env) (t : Term) : Prop :=
  ∃ u, t.transform r = .ok u ∧ u.Holds ρ

theorem Says.holdsAfter {t : Term} {Q : Env → Prop} (h : t.Says Q) (hρ : ρ.Sorted) :
    HoldsAfter expander ρ t ↔ Q ρ := by
  obtain ⟨u, hu, value⟩ := h.ready.expand
  rw [← h.holds ρ hρ, Holds, ← value ρ hρ.typed]
  constructor
  · rintro ⟨u', hu', holds⟩
    cases hu.symm.trans (expand_eq_ok.2 hu')
    exact holds
  · exact fun holds => ⟨u, expand_eq_ok.1 hu, holds⟩

theorem mapM_of_transformAll? {us : Option (List Term)} (h : transformAll? r as = .ok us) :
    as.mapM (transform r) = .ok (us.getD as) := by
  rw [Attempt.mapM_eq_ok]
  induction as generalizing us with
  | nil =>
    cases h
    exact .nil
  | cons a as ih =>
    rw [transformAll?] at h
    obtain ⟨a', ha, h⟩ := Attempt.bind_eq_ok.1 h
    obtain ⟨us', hus, h⟩ := Attempt.bind_eq_ok.1 h
    have first : a.transform r = .ok (a'.getD a) := transform_eq_ok.2 ⟨a', ha, rfl⟩
    cases a' <;> cases us' <;> cases h <;> exact .cons first (ih hus)

theorem transform_and {u : Term} : (and as).transform r = .ok u ↔
    ∃ us, transformAll? r as = .ok us ∧ (us.map mkAnd).getD (and as) = u := by
  rw [transform_eq_ok]
  constructor
  · rintro ⟨u', hu, rfl⟩
    rw [transform?] at hu
    obtain ⟨us, hus, hu⟩ := Attempt.bind_eq_ok.1 hu
    refine ⟨us, hus, ?_⟩
    cases us <;> cases hu <;> rfl
  · rintro ⟨us, hus, rfl⟩
    refine ⟨us.map mkAnd, ?_, rfl⟩
    rw [transform?, hus]
    cases us <;> rfl

/-- A transformed conjunction holds if its transformed parts do. -/
theorem holdsAfter_and : HoldsAfter r ρ (and as) ↔ ∀ a ∈ as, HoldsAfter r ρ a := by
  have whole (us : Option (List Term)) :
      ((us.map mkAnd).getD (and as)).Holds ρ ↔ ∀ u ∈ us.getD as, u.Holds ρ := by
    cases us with
    | none => exact holds_and
    | some us => exact holds_mkAnd
  constructor
  · rintro ⟨u, hu, holds⟩ a ha
    obtain ⟨us, hus, rfl⟩ := transform_and.1 hu
    obtain ⟨b, hb, hab⟩ := Attempt.exists_of_mapM (mapM_of_transformAll? hus) ha
    exact ⟨b, hab, (whole us).1 holds b hb⟩
  · intro h
    have : Nonempty Term := ⟨bot⟩
    choose! f hf using h
    obtain ⟨us, hus, hmap⟩ := transformAll?_eq fun a ha => (hf a ha).1
    refine ⟨_, transform_and.2 ⟨us, hus, rfl⟩, (whole us).2 ?_⟩
    rw [hmap]
    simpa using fun a ha => (hf a ha).2

theorem holdsAfter_constant {a : Term} {b : Bool} (h : a.truth? = some b) :
    HoldsAfter r ρ a ↔ b = true := by
  have unchanged : a.transform r = .ok a := by cases a <;> cases h <;> rfl
  simp [HoldsAfter, unchanged, holds_of_truth? h]

/-- The same of a conjunction that was flattened when it was built. -/
theorem holdsAfter_mkAnd : HoldsAfter r ρ (mkAnd as) ↔ ∀ a ∈ as, HoldsAfter r ρ a := by
  cases h : collect false conjuncts? as with
  | none =>
    obtain ⟨a, ha, ht⟩ := collect_eq_none h
    have fails : ¬HoldsAfter r ρ a := by simp [holdsAfter_constant ht]
    have built : ¬HoldsAfter r ρ (mkAnd as) := by
      rw [mkAnd, h, holdsAfter_constant (b := false) rfl]
      decide
    exact iff_of_false built fun all => fails (all a ha)
  | some rest =>
    have same : (∀ a ∈ rest, HoldsAfter r ρ a) ↔ ∀ a ∈ as, HoldsAfter r ρ a := by
      refine forall_collect h (fun a _ b hb hne => ?_) fun a inner hi => ?_
      · rw [holdsAfter_constant hb]
        simpa using hne
      · cases a <;> cases hi
        exact holdsAfter_and
    rw [← same]
    rcases rest with _ | ⟨a, _ | ⟨b, rest⟩⟩
    · simp [mkAnd, h, holdsAfter_constant (a := top) (b := true) rfl]
    · simp [mkAnd, h]
    · rw [mkAnd, h, holdsAfter_and]

end Term

namespace Automaton

open Term HybridCheck.Symbol

variable {m : Automaton} {k : Nat} {c r : Term}

theorem constraintAt_relaxed (c : Term) (k : Int) (r : Term) :
    m.relaxed.constraintAt c k r = m.constraintAt c k r := by
  simp only [constraintAt, Automaton.relaxed, List.mapM_map]
  rfl

theorem IsGoal.relaxed (isGoal : m.IsGoal c) : m.relaxed.IsGoal c :=
  ⟨isGoal.constraint, isGoal.now, isGoal.next, isGoal.bound⟩

/-- An offset into a step can be put into a constraint: it is a number, and the constraint binds
none of its variables. -/
structure Fits (r c : Term) : Prop where
  amount : r.Amount noFlow
  apart : ∀ q v body, quant q v body ∈ c.subterms → r.mentions v = false

section

variable (accepted : m.Accepted) (wellSorted : m.WellSorted) (isGoal : m.IsGoal c)
  (fits : Fits r c)
include accepted wellSorted isGoal fits

/-- The state that a flow reaches some time into a step: every state variable has a term of its
kind that mentions nothing bound by the constraint. -/
theorem WellSorted.reached_state {md : Mode} (hmd : md ∈ m.modes) :
    ∃ state, md.flow.after (m.stateSubst k .entry) (m.discreteSubst k) r = .ok state ∧
      Table.names state = Table.names m.stateVars ∧
      (∀ v, m.IsState v → ∃ u, state.get? v.name = some u ∧ u.plain = true ∧
        u.sort.alike v.sort = true ∧ ∀ w, u.mentions w = true →
          ∀ q body, quant q w body ∉ c.subterms) ∧
      ∀ ρ : Env, ρ.Typed → evalTable state ρ = md.flow.stateAt ρ (evalTable (m.discreteSubst k) ρ)
        (Trajectory.ofEnv m ρ k).entry (r.amount ρ) := by
  have lasts := accepted.lasts k
  have proper := wellSorted.proper accepted (k := k) lasts hmd
  have start (e) (he : e ∈ m.stateSubst k .entry ++ m.discreteSubst k) (v : Var)
      (hv : e.2.mentions v = true) q body : quant q v body ∉ c.subterms := by
    obtain ⟨w, hw, hrole, -⟩ := symbol_of_mem he
    rw [hw, mentions_var] at hv
    exact fun h => hrole (hv ▸ isGoal.bound q v body h)
  have duration (v : Var) (hv : r.mentions v = true) q body : quant q v body ∉ c.subterms := by
    intro hq
    rw [fits.apart q v body hq] at hv
    cases hv
  obtain ⟨g, hafter, each, value⟩ := proper.after lasts.flowFree_parts fits.amount
    (hereditary_mentions fun v => ∀ q body, quant q v body ∉ c.subterms) start duration
    (fun v _ w hw => by simp at hw)
  refine ⟨_, hafter, ?_, fun v hv => ?_, fun ρ hρ => ?_⟩
  · simp [segment, Table.names, stateSubst, Function.comp_def]
  · have entry := get?_stateSubst (k := k) (p := .entry) hv
    obtain ⟨plain, alike, unread⟩ := each _ (Table.mem_of_get? entry)
    exact ⟨_, by simp only [segment, Table.get?_map, entry, Option.map_some], plain, alike, unread⟩
  · rw [value ρ hρ]
    simp only [segment, Trajectory.evalTable_entry]

/-- The value of a constraint some time into a step, as far as one mode is concerned. -/
theorem WellSorted.reached_spec {md : Mode} (hmd : md ∈ m.modes) :
    ∃ state guard u, md.flow.after (m.stateSubst k .entry) (m.discreteSubst k) r = .ok state ∧
      md.guard.substitute (m.discreteSubst k) = .ok guard ∧
      c.substitute ((m.discreteSubst k).merge state) = .ok u ∧
      (mkAnd [guard, u]).Says fun ρ => md.guard.Holds (Trajectory.ofEnv m ρ k).located ∧
        c.Holds ((Trajectory.ofEnv m ρ k).after md (r.amount ρ)) := by
  obtain ⟨state, hafter, names, reaches, value⟩ :=
    wellSorted.reached_state accepted isGoal fits (k := k) hmd
  have distinct : (Table.names state).Nodup := names ▸ accepted.distinct_state
  have fit v u (hv : var v ∈ c.subterms) (hlogical : v.role = .logical)
      (hu : ((m.discreteSubst k).merge state).get? v.name = some u) :
      u.plain = true ∧ u.sort.alike v.sort = true ∧
        ∀ q w body, quant q w body ∈ c.subterms → u.mentions w = false := by
    rw [Table.get?_merge distinct] at hu
    have declared : m.Declares v := by
      refine (isGoal.occurs hv).resolve_right fun hrole => ?_
      rw [hlogical] at hrole
      cases hrole
    rcases declared.2 with hstate | hmode
    · obtain ⟨u', hu', plain, alike, unread⟩ := reaches v hstate
      rw [hu'] at hu
      cases hu
      refine ⟨plain, alike, fun q w body hq => ?_⟩
      rw [← Bool.not_eq_true]
      exact fun hw => unread w hw q body hq
    · have hnone : state.get? v.name = none :=
        Table.get?_eq_none.2 (names ▸ accepted.state_none hmode)
      rw [hnone, accepted.get?_discreteSubst hmode] at hu
      cases hu
      refine ⟨rfl, TermSort.alike_refl _, fun q w body hq => mentions_var_of_ne ?_⟩
      rintro rfl
      cases isGoal.bound q _ body hq
  obtain ⟨u, hu, becomes⟩ := substitute_quantified isGoal.constraint.sorted isGoal.bound fit
  obtain ⟨guard, hguard, active⟩ := wellSorted.encodes_guard accepted (k := k) hmd
  have reached : u.Says fun ρ => c.Holds ((Trajectory.ofEnv m ρ k).after md (r.amount ρ)) := by
    refine ⟨(becomes.constraint isGoal.constraint.sort).ready, fun ρ hρ => ?_⟩
    have sorted := Trajectory.sorted_ofEnv (m := m) hρ k
    have same := accepted.sameMode ρ k
    rw [Term.Holds, Term.Holds, becomes.eval ρ hρ.typed, Table.mapValues_merge, ← evalTable_eq,
      ← evalTable_eq, value ρ hρ.typed]
    -- the clock is not mentioned, so it may show the time since the step began
    refine iff_of_eq (congrArg Value.Holds (eval_congr (flowFree_of_plain isGoal.constraint.sorted)
      ⟨fun v hv => ?_, fun v hv => (isGoal.next v hv).elim⟩))
    have declared := isGoal.now v hv
    rw [Step.after, FlowOf.instant, Env.set_now_of_ne _ _ (accepted.clock_ne hmd declared),
      ← wellSorted.stateAt_eq accepted hmd same sorted.mode sorted.entry.suits ρ]
    exact accepted.now_eq same sorted.mode
      (wellSorted.suits_stateAt accepted hmd hρ.typed sorted.entry.suits _) ρ _ declared
  exact ⟨state, guard, u, hafter, hguard, hu, active.and reached⟩

/-- The signal says that a constraint holds in the state that some active mode has reached. -/
theorem WellSorted.constraintAt_reaches : ∃ u, m.constraintAt c k r = .ok u ∧ u.Says fun ρ =>
    ∃ md ∈ m.modes, md.guard.Holds (Trajectory.ofEnv m ρ k).located ∧
      c.Holds ((Trajectory.ofEnv m ρ k).after md (r.amount ρ)) := by
  obtain ⟨us, hus, all⟩ := Attempt.exists_mapM
    (f := fun md : Mode => do
      let state ← Attempt.within (.inMode md.name)
        (md.flow.after (m.stateSubst k .entry) (m.discreteSubst k) r)
      return mkAnd [← md.guard.substitute (m.discreteSubst k),
        ← c.substitute ((m.discreteSubst k).merge state)])
    (P := fun md u => u.Says fun ρ => md.guard.Holds (Trajectory.ofEnv m ρ k).located ∧
      c.Holds ((Trajectory.ofEnv m ρ k).after md (r.amount ρ))) fun md hmd => by
      obtain ⟨state, guard, u, hstate, hguard, hu, spec⟩ :=
        wellSorted.reached_spec accepted isGoal fits (k := k) hmd
      exact ⟨_, by rw [hstate, Attempt.within_ok]; simp [hguard, hu], spec⟩
  refine ⟨mkOr us, ?_, says_mkOr all⟩
  exact Attempt.bind_eq_ok.2 ⟨(), isGoal.checked accepted _, Attempt.bind_eq_ok.2 ⟨us, hus, rfl⟩⟩

end

/-! ## The mode that a step is spent in -/

section

variable (accepted : m.Accepted) (wellSorted : m.relaxed.WellSorted) {md : Mode}
  (hmd : md ∈ m.modes) {ρ : Env} (hρ : ρ.Sorted)
include accepted wellSorted hmd hρ

/-- In a step whose segment holds, whatever the invariant says, the guard of its mode holds and the
flow leads to the exit values. -/
theorem spent_of_expand {t u : Term} (ht : m.flows md (.var (time k)) k = .ok t)
    (hu : t.expand = .ok u) (holds : u.Holds ρ) :
    md.guard.Holds (Trajectory.ofEnv m ρ k).located ∧
      ∀ e ∈ (Trajectory.ofEnv m ρ k).exit,
        (md.flow.stateAt Env.blank (Trajectory.ofEnv m ρ k).mode (Trajectory.ofEnv m ρ k).entry
          (Trajectory.ofEnv m ρ k).duration).get? e.1 = some e.2 := by
  obtain ⟨guard, hguard, active⟩ :=
    wellSorted.encodes_guard accepted.relaxed (k := k) (mem_relaxed hmd)
  have integral := wellSorted.says_integral accepted.relaxed (k := k) (mem_relaxed hmd)
  obtain ⟨guard', hguard', ht⟩ := Attempt.bind_eq_ok.1 ht
  cases hguard.symm.trans hguard'
  cases ht
  have parts := holdsAfter_mkAnd.1 ⟨u, expand_eq_ok.1 hu, holds⟩
  simp only [List.mem_cons, List.not_mem_nil, or_false, forall_eq_or_imp, forall_eq] at parts
  exact ⟨(active.holdsAfter hρ).1 parts.1, ((integral.holdsAfter hρ).1 parts.2.1).2⟩

/-- At the end of a step that is spent in a mode its flow has reached the exit values. -/
theorem holds_atExit (isGoal : m.IsGoal c)
    (flow : ∀ e ∈ (Trajectory.ofEnv m ρ k).exit,
      (md.flow.stateAt Env.blank (Trajectory.ofEnv m ρ k).mode (Trajectory.ofEnv m ρ k).entry
        (Trajectory.ofEnv m ρ k).duration).get? e.1 = some e.2) :
    c.Holds ((Trajectory.ofEnv m ρ k).after md (Trajectory.ofEnv m ρ k).duration) ↔
      c.Holds (Trajectory.ofEnv m ρ k).atExit := by
  have sorted := Trajectory.sorted_ofEnv (m := m) hρ k
  have suits := wellSorted.suits_stateAt accepted.relaxed (mem_relaxed hmd)
    (t := (Trajectory.ofEnv m ρ k).mode) Env.blank_sorted.typed sorted.entry.suits
    (Trajectory.ofEnv m ρ k).duration
  have ends (name : String) :
      (md.flow.stateAt Env.blank (Trajectory.ofEnv m ρ k).mode (Trajectory.ofEnv m ρ k).entry
        (Trajectory.ofEnv m ρ k).duration).get? name =
          (Trajectory.ofEnv m ρ k).exit.get? name := by
    cases h : (Trajectory.ofEnv m ρ k).exit.get? name with
    | none =>
      rw [Table.get?_eq_none, suits.names]
      exact sorted.exit.names ▸ Table.get?_eq_none.1 h
    | some x => exact flow _ (Table.mem_of_get? h)
  refine iff_of_eq (congrArg Value.Holds (eval_congr (flowFree_of_plain isGoal.constraint.sorted)
    ⟨fun v hv => ?_, fun v hv => (isGoal.next v hv).elim⟩))
  have declared := isGoal.now v hv
  have same : m.SameMode (Trajectory.ofEnv m ρ k).mode (Trajectory.ofEnv m ρ k).mode :=
    fun _ _ => rfl
  obtain ⟨x, fits, hx, -⟩ := accepted.lookup same sorted.mode suits declared.2
  have hx' : ((Trajectory.ofEnv m ρ k).mode.merge (Trajectory.ofEnv m ρ k).exit).get? v.name =
      some x := by
    rw [Table.get?_merge (sorted.exit.names ▸ accepted.distinct_state), ← ends, ← hx,
      Table.get?_merge (suits.names ▸ accepted.distinct_state)]
  rw [Step.after, FlowOf.instant, Env.set_now_of_ne _ _ (accepted.clock_ne hmd declared),
    Step.atExit, wellSorted.stateAt_eq accepted.relaxed (mem_relaxed hmd) same sorted.mode
      sorted.entry.suits _ Env.blank]
  rw [Env.bind_now declared.1 hx fits, Env.bind_now declared.1 hx' fits]

end

theorem arithmetical_of_relaxed (wellSorted : m.relaxed.WellSorted)
    (invariants : ∀ md ∈ m.modes, md.invariant.plain = true) : m.Arithmetical := by
  have relaxed := wellSorted.arithmetical
  refine ⟨fun t ht => ?_, fun md hmd a ha => relaxed.flows _ (mem_relaxed hmd) a ha⟩
  rcases mem_terms.1 ht with h | h | ⟨md, hmd, ht⟩ | h
  · exact relaxed.terms t (mem_terms.2 (Or.inl h))
  · exact relaxed.terms t (mem_terms.2 (Or.inr (Or.inl h)))
  · have kept (h : t ∈ md.guard :: .top :: md.flow.terms) : t.arithmetical = true :=
      relaxed.terms t (mem_terms.2 (Or.inr (Or.inr (Or.inl ⟨_, mem_relaxed hmd, h⟩))))
    simp only [List.mem_cons] at ht
    obtain rfl | rfl | ha := ht
    · exact kept (by simp)
    · exact List.all_eq_true.2 fun n hn => (safe_of_plain (invariants md hmd) n hn).1
    · exact kept (by simp [ha])
  · exact relaxed.terms t (mem_terms.2 (Or.inr (Or.inr (Or.inr h))))

/-- The signal follows the modes that are active: a constraint some time into a step holds exactly
if it holds in the state that the flow of an active mode has reached. In a step whose segment holds
for some mode, that mode is one of them; if it is the only one, the constraint holds exactly if it
holds in the state that its flow has reached, which at the end of the step is the exit state. -/
theorem constraintAt_active {d : Definition} (made : ofDefinition d = .ok m)
    (wellSorted : m.relaxed.WellSorted) (invariants : ∀ md ∈ m.modes, md.invariant.plain = true)
    (isGoal : m.IsGoal c) (fits : Fits r c) (k : Nat) :
    ∃ u, m.constraintAt c k r = .ok u ∧
      (∀ ρ : Env, ρ.Sorted → (u.Holds ρ ↔ ∃ md ∈ m.modes,
        md.guard.Holds (Trajectory.ofEnv m ρ k).located ∧
          c.Holds ((Trajectory.ofEnv m ρ k).after md (r.amount ρ)))) ∧
      ∀ md ∈ m.modes, ∃ t v, m.flows md (.var (time k)) k = .ok t ∧ t.expand = .ok v ∧
        ∀ ρ : Env, ρ.Sorted → v.Holds ρ →
          (c.Holds ((Trajectory.ofEnv m ρ k).after md (r.amount ρ)) → u.Holds ρ) ∧
          ((∀ md' ∈ m.modes, md'.guard.Holds (Trajectory.ofEnv m ρ k).located → md' = md) →
            (u.Holds ρ ↔ c.Holds ((Trajectory.ofEnv m ρ k).after md (r.amount ρ))) ∧
            (r.amount ρ = (Trajectory.ofEnv m ρ k).duration →
              (u.Holds ρ ↔ c.Holds (Trajectory.ofEnv m ρ k).atExit))) := by
  have accepted := accepted_of_ofDefinition made
  obtain ⟨u, hu, spec⟩ :=
    wellSorted.constraintAt_reaches accepted.relaxed isGoal.relaxed fits (k := k)
  rw [constraintAt_relaxed] at hu
  have active ρ (hρ : ρ.Sorted) : u.Holds ρ ↔ ∃ md ∈ m.modes,
      md.guard.Holds (Trajectory.ofEnv m ρ k).located ∧
        c.Holds ((Trajectory.ofEnv m ρ k).after md (r.amount ρ)) := by
    rw [spec.holds ρ hρ, Automaton.relaxed]
    simp only [List.mem_map, exists_exists_and_eq_and]
    rfl
  refine ⟨u, hu, active, fun md hmd => ?_⟩
  have translatable := (arithmetical_of_relaxed wellSorted invariants).translatable made
  obtain ⟨t, ht, safe⟩ : ∃ t, m.flows md (.var (time k)) k = .ok t ∧ t.Safe Expands :=
    translatable.flows hmd quantity_var
  obtain ⟨v, hv, -⟩ := safe.expand
  refine ⟨t, v, ht, hv, fun ρ hρ holds => ?_⟩
  obtain ⟨guard, flow⟩ := spent_of_expand accepted wellSorted hmd hρ ht hv holds
  refine ⟨fun h => (active ρ hρ).2 ⟨md, hmd, guard, h⟩, fun only => ?_⟩
  have follows : u.Holds ρ ↔ c.Holds ((Trajectory.ofEnv m ρ k).after md (r.amount ρ)) := by
    rw [active ρ hρ]
    constructor
    · rintro ⟨md', hmd', guard', h⟩
      rwa [only md' hmd' guard'] at h
    · exact fun h => ⟨md, hmd, guard, h⟩
  refine ⟨follows, fun ends => follows.trans ?_⟩
  rw [ends]
  exact holds_atExit accepted wellSorted hmd hρ isGoal flow

theorem warm_warming : warm.Holds (warming 1).atExit := by
  have off : (warming 1).atExit.now ⟨"on", .bool, .logical⟩ = .truth (false = true) :=
    Env.bind_now rfl rfl ⟨_, rfl⟩
  have x : (warming 1).atExit.now ⟨"x", .real, .logical⟩ = .number (23 + slope false * 1) :=
    Env.bind_now rfl rfl ⟨_, rfl⟩
  have above (y : ℝ) : ((warming 1).atExit.set ⟨"y", .real, .bound⟩ (.number y)).now
      ⟨"x", .real, .logical⟩ = .number (23 + slope false * 1) :=
    (Env.set_now_of_ne _ _ (by decide)).trans x
  simp only [warm, holds_and, List.mem_cons, List.not_mem_nil, or_false, forall_eq_or_imp,
    forall_eq]
  constructor
  · rw [Term.Holds, eval, heating, eval, off]
    simp
  · rw [Term.Holds, eval, Value.holds_truth]
    refine ⟨.number 21, ⟨21, rfl⟩, ?_⟩
    simp [eval, evalAll, temperature, above, Relation.Compares, slope]
    norm_num

/-- While the room cools down, a constraint with a quantifier at the end of the second step of the
thermostat is read in the state in which the step ends. -/
theorem constraintAt_thermostat :
    ∃ u t v, thermostat.constraintAt warm (1 : Nat) (.var (time 1)) = .ok u ∧
      thermostat.flows thermostat.modes[1] (.var (time 1)) (1 : Nat) = .ok t ∧ t.expand = .ok v ∧
      (∀ ρ : Env, ρ.Sorted → (u.Holds ρ ↔ ∃ md ∈ thermostat.modes,
        md.guard.Holds (Trajectory.ofEnv thermostat ρ 1).located ∧
          warm.Holds ((Trajectory.ofEnv thermostat ρ 1).after md (ρ.now (time 1)).toReal))) ∧
      ∃ ρ : Env, ρ.Sorted ∧ v.Holds ρ ∧ warm.Holds (Trajectory.ofEnv thermostat ρ 1).atExit ∧
        u.Holds ρ := by
  have accepted := accepted_of_ofDefinition ofDefinition_heater
  have fits : Fits (.var (time 1)) warm := by
    refine ⟨amount_var rfl, fun q v body h => mentions_var_of_ne ?_⟩
    rintro rfl
    cases isGoal_warm.bound q _ body h
  have cools : thermostat.modes[1] ∈ thermostat.modes := List.getElem_mem _
  obtain ⟨u, hu, spec, segment⟩ := constraintAt_active ofDefinition_heater
    wellSorted_thermostat.relaxed (by decide) isGoal_warm fits 1
  obtain ⟨t, v, ht, hv, follows⟩ := segment _ cools
  have run := warming_of_thermostat
  let ρ := warming.assignment thermostat 1 (warming.Lasts thermostat)
  have hρ : ρ.Sorted := Trajectory.assignment_sorted accepted _ run.sorted
  have step : Trajectory.ofEnv thermostat ρ 1 = warming 1 :=
    Trajectory.ofEnv_assignment accepted _ run.sorted le_rfl
  have only (md : Mode) (hmd : md ∈ thermostat.modes)
      (active : md.guard.Holds (warming 1).located) : md = thermostat.modes[1] :=
    exclusive_thermostat _ (run.sorted 1 le_rfl).mode md hmd _ cools active
      (not_heating_phase.2 rfl)
  have holds : v.Holds ρ := by
    obtain ⟨md, hmd, duration, spent⟩ := run.follows.step 1 le_rfl
    obtain ⟨t', ht', said⟩ := wellSorted_thermostat.encodes_flows accepted (k := 1) cools
    cases ht.symm.trans ht'
    obtain ⟨v', hv', value⟩ := said.ready.expand
    cases hv.symm.trans hv'
    rw [Term.Holds, value ρ hρ.typed, ← Term.Holds, said.holds ρ hρ, step]
    exact ⟨duration, only md hmd spent.guard ▸ spent⟩
  have exit : warm.Holds (Trajectory.ofEnv thermostat ρ 1).atExit := by
    rw [step]
    exact warm_warming
  refine ⟨u, t, v, hu, ht, hv, spec, ρ, hρ, holds, exit, ?_⟩
  refine (((follows ρ hρ holds).2 ?_).2 rfl).2 exit
  rw [step]
  exact only

/-! ## Two active modes -/

def tall : Term := .cmp .gt (.var ⟨"x", .real, .logical⟩) (.num .real 3)

/-- While the quantity rests it is zero. -/
theorem not_tall_resting (ρ : Env) (k : Nat) (d : ℝ) :
    ¬tall.Holds ((Trajectory.ofEnv fork ρ k).after resting d) := by
  have zero : ((Trajectory.ofEnv fork ρ k).after resting d).now ⟨"x", .real, .logical⟩ =
      .number 0 := by
    rw [Step.after, FlowOf.instant, Env.set_now_of_ne _ _ (by decide)]
    refine Env.bind_now rfl ?_ ⟨0, rfl⟩
    have reached : resting.flow.stateAt (Env.blank.bindNext (Trajectory.ofEnv fork ρ k).exit)
        (Trajectory.ofEnv fork ρ k).mode (Trajectory.ofEnv fork ρ k).entry d =
          [("x", .number 0)] := by
      simp [FlowOf.stateAt, FlowOf.reach, Trajectory.ofEnv, Step.ofEnv, fork, forking,
        FlowOf.moved, evalTable_eq, resting, Table.get?, eval]
    rw [reached, Table.get?_merge (by decide)]
    rfl
  simp [tall, Term.Holds, eval, Relation.Compares, zero]

/-- If two modes are active, a constraint can be true though it does not hold in the state of the
mode that the step is spent in: the other mode, in which no step can be spent, makes it true. -/
theorem constraintAt_fork : ofDefinition forking = .ok fork ∧ fork.WellSorted ∧
    ∃ u t v, fork.constraintAt tall (0 : Nat) (.var (time 0)) = .ok u ∧
      fork.flows resting (.var (time 0)) (0 : Nat) = .ok t ∧ t.expand = .ok v ∧
      ∃ ρ : Env, ρ.Sorted ∧ v.Holds ρ ∧ 0 ≤ (var (time 0)).amount ρ ∧ u.Holds ρ ∧
        ¬tall.Holds ((Trajectory.ofEnv fork ρ 0).after resting ((var (time 0)).amount ρ)) := by
  have always : fork.constraintAt tall (0 : Nat) (.var (time 0)) = .ok .top := by cbv
  have segment : fork.flows resting (.var (time 0)) (0 : Nat) =
      .ok (.and [.integral (fork.segment resting (.var (time 0)) 0),
        .throughout (fork.segment resting (.var (time 0)) 0) .top]) := rfl
  have expanded : (Term.and [.integral (fork.segment resting (.var (time 0)) 0),
        .throughout (fork.segment resting (.var (time 0)) 0) .top]).expand =
      .ok (.and [.cmp .ge (.var (time 0)) .zero,
        .cmp .eq (.var (state "x" .real 0 .exit)) (.num .real 0)]) := by cbv
  refine ⟨ofDefinition_forking, wellSorted_fork, _, _, _, always, segment, expanded, Env.blank,
    Env.blank_sorted, ?_, ?_, rfl, not_tall_resting _ 0 _⟩
  · simp [Term.Holds, eval, Relation.Compares, Env.blank, time, state, Term.zero, real]
  · simp [amount, eval, Env.blank, time]

end Automaton

end HybridCheck
