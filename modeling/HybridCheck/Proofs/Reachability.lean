import HybridCheck.Automaton.Reach
import HybridCheck.Proofs.Realization
import HybridCheck.Proofs.Unrolling

/-!
# Adequacy of unrolling

An assignment satisfies an unrolled automaton exactly if the run in it follows the automaton: the
first step begins in an initial state, each step is spent in a single mode, and some jump leads from
each step to the next. So the constraints for a goal can be satisfied exactly if some run with the
given number of jumps ends in a state that satisfies the goal. A goal may have quantifiers, as long
as these bind variables of their own.
-/

namespace HybridCheck

namespace Term

/-! ## Substitution under quantifiers -/

/-- Identifiers are read from a substitution also under quantifiers, if these bind variables that
the substituted terms do not read. -/
theorem substitute_quantified {s : Subst} {t : Term} (sorted : t.plain = true)
    (bound : ∀ q v body, quant q v body ∈ t.subterms → v.role = .bound)
    (fit : ∀ v u, var v ∈ t.subterms → v.role = .logical → s.get? v.name = some u →
      u.plain = true ∧ u.sort.alike v.sort = true ∧
        ∀ q w body, quant q w body ∈ t.subterms → u.mentions w = false) :
    ∃ u, t.substitute s = .ok u ∧
      Becomes noFlow (fun ρ => ρ.bind (s.mapValues (·.eval ρ))) t u := by
  let r : Replacement := { onVar := fun v => if v.role = .logical then s.get? v.name else none }
  have flowFree := flowFree_of_plain sorted
  rw [substitute_eq_transform flowFree]
  change ∃ u, t.transform r = .ok u ∧ _
  induction t, flowFree using flowFree_induct with
  | operator t o ho _ _ ih =>
    obtain ⟨accepts, sorted⟩ := (sorted_operator ho).1 sorted
    have below {a n : Term} (ha : a ∈ t.operands) (hn : n ∈ a.subterms) : n ∈ t.subterms :=
      (mem_subterms_operator ho).2 (Or.inr ⟨a, ha, hn⟩)
    obtain ⟨u, hu, becomes, -⟩ := transform_operator (r := r) ho accepts fun a ha =>
      ih a ha (sorted a ha) (fun q v body hq => bound q v body (below ha hq))
        fun v u hv hlogical h => by
          obtain ⟨hu, alike, apart⟩ := fit v u (below ha hv) hlogical h
          exact ⟨hu, alike, fun q w body hq => apart q w body (below ha hq)⟩
    exact ⟨u, hu, becomes⟩
  | var v =>
    refine ⟨_, transform_var v, ?_⟩
    by_cases hlogical : v.role = .logical
    · cases h : s.get? v.name with
      | none =>
        simp only [r, hlogical, if_true, h, Option.getD_none]
        refine ⟨rfl, TermSort.alike_refl _, fun ρ _ => ?_⟩
        simp [eval, Env.bind, hlogical, h]
      | some u =>
        obtain ⟨hu, alike, -⟩ := fit v u (by simp) hlogical h
        simp only [r, hlogical, if_true, h, Option.getD_some]
        refine ⟨hu, alike, fun ρ hρ => ?_⟩
        rw [eval, Env.bind_now hlogical (by rw [Table.get?_mapValues, h]; rfl)
          ((fits_eval hu hρ).of_alike alike)]
    · simp only [r, hlogical, if_false, Option.getD_none]
      refine ⟨rfl, TermSort.alike_refl _, fun ρ _ => ?_⟩
      rw [eval, eval, Env.bind_now_of_role hlogical]
  | next v =>
    exact ⟨next v, transform_next v, rfl, TermSort.alike_refl _, fun ρ _ => rfl⟩
  | quant q v body hbody _ ih =>
    obtain ⟨hbool, hplain⟩ := (sorted_quant q v body).1 sorted
    have below {n : Term} (hn : n ∈ body.subterms) : n ∈ (quant q v body).subterms := by simp [hn]
    obtain ⟨u, hu, becomes⟩ := ih hplain (fun q w b hq => bound q w b (below hq))
      fun w u hw hlogical h => by
        obtain ⟨hu, alike, apart⟩ := fit w u (below hw) hlogical h
        exact ⟨hu, alike, fun q x b hq => apart q x b (below hq)⟩
    have hv := bound q v body (by simp)
    refine transform_quant rfl hbool hu becomes fun ρ _ x _ => ?_
    -- the substituted terms do not read the bound variable
    refine eval_congr hbody ⟨fun w hw => ?_, fun w _ => rfl⟩
    rw [← Env.bind_set (by rw [hv]; decide)]
    by_cases hlogical : w.role = .logical
    · simp only [Env.bind, hlogical, if_true, Table.get?_mapValues]
      cases h : s.get? w.name with
      | none => rfl
      | some u =>
        obtain ⟨hu, -, apart⟩ :=
          fit w u (below (mem_subterms_of_mentions hw)) hlogical h
        simp [eval_set (flowFree_of_plain hu) (apart q v body (by simp))]
    · rw [Env.bind_now_of_role hlogical, Env.bind_now_of_role hlogical]

end Term

namespace Trajectory

variable {m : Automaton} {N : Nat} {r r' : Trajectory}

/-- Following an automaton is a matter of the first steps. -/
theorem Follows.congr (h : r.Follows m N) (same : ∀ k ≤ N, r k = r' k) : r'.Follows m N where
  init := same 0 (Nat.zero_le N) ▸ h.init
  step k hk := same k hk ▸ h.step k hk
  jump k hk := same k hk.le ▸ same (k + 1) hk ▸ h.jump k hk

end Trajectory

namespace Solver

/-- Terms that can be expanded are expanded one by one into terms that hold when they do. -/
theorem expandAll_spec {ts : List Term} (h : ∀ t ∈ ts, ∃ u, t.expand = .ok u ∧
      ∀ ρ : Env, ρ.Typed → u.eval ρ = t.eval ρ) (i : Nat) :
    ∃ us, expandAll i ts = .ok us ∧
      ∀ ρ : Env, ρ.Typed → ((∀ u ∈ us, u.Holds ρ) ↔ ∀ t ∈ ts, t.Holds ρ) := by
  induction ts generalizing i with
  | nil => exact ⟨[], rfl, fun _ _ => by simp⟩
  | cons t ts ih =>
    obtain ⟨u, hu, value⟩ := h t (by simp)
    obtain ⟨us, hus, values⟩ := ih (fun t ht => h t (by simp [ht])) (i + 1)
    refine ⟨u :: us, ?_, fun ρ hρ => ?_⟩
    · rw [expandAll, hu, Attempt.within_ok, Attempt.bind_ok, hus]
      rfl
    · simp only [List.mem_cons, forall_eq_or_imp, values ρ hρ, Term.Holds, value ρ hρ]

theorem expandAll_ready {ts : List Term} (h : ∀ t ∈ ts, t.Ready) (i : Nat) :
    ∃ us, expandAll i ts = .ok us ∧
      ∀ ρ : Env, ρ.Typed → ((∀ u ∈ us, u.Holds ρ) ↔ ∀ t ∈ ts, t.Holds ρ) :=
  expandAll_spec (fun t ht => (h t ht).expand) i

end Solver

namespace Automaton

open Term

variable {m : Automaton} {N : Nat} {goal : Term}

/-- A goal: a well-sorted constraint on declared variables, whose quantifiers bind variables of
their own. -/
structure IsGoal (m : Automaton) (goal : Term) : Prop where
  constraint : goal.Constraint noFlow
  now : ∀ v, goal.mentions v = true → m.Declares v
  next : ∀ v, Term.next v ∉ goal.subterms
  bound : ∀ q v body, Term.quant q v body ∈ goal.subterms → v.role = .bound

theorem IsGoal.occurs (h : m.IsGoal goal) {v : Var} (hv : Term.var v ∈ goal.subterms) :
    m.Declares v ∨ v.role = .bound := by
  refine (mentions_of_mem_subterms hv).imp (h.now v) ?_
  rintro ⟨q, body, hq⟩
  exact h.bound q v body hq

/-- A constraint on declared and quantified variables passes the check of its references. -/
theorem Accepted.checked (accepted : m.Accepted) {t : Term} (hbool : t.sort = .bool)
    (flowFree : t.flowFree = true)
    (occurs : ∀ v, Term.var v ∈ t.subterms → m.Declares v ∨ v.role = .bound)
    (next : ∀ v, Term.next v ∉ t.subterms) (place : String) :
    m.declared.checkConstraint place { state := true, mode := true } t = .ok () := by
  have node (n : Term) (hn : n ∈ t.subterms) :
      m.declared.nodeProblem? place { state := true, mode := true } n = none := by
    have flow := List.all_eq_true.1 flowFree n hn
    cases n with
    | var v =>
      rcases occurs v hn with ⟨hrole, hv⟩ | hrole
      · have sort : m.declared.sort? { state := true, mode := true } v.name = some v.sort := by
          rw [Definition.sort?, if_pos rfl, if_pos rfl]
          rcases hv with hv | hv
          · rw [declared, hv]
            rfl
          · rw [declared, Table.get?_eq_none.2 (accepted.state_none hv)]
            exact hv
        simp [Definition.nodeProblem?, hrole, sort]
      · simp [Definition.nodeProblem?, hrole]
    | next v => exact (next v hn).elim
    | integral | throughout => cases flow
    | _ => rfl
  have nodes : (t.nodes fun _ => true).findSome?
      (m.declared.nodeProblem? place { state := true, mode := true }) = none :=
    List.findSome?_eq_none_iff.2 node
  rw [Definition.checkConstraint, if_neg (by simp [hbool]), Definition.checkReferences, nodes]

theorem IsGoal.checked (accepted : m.Accepted) (h : m.IsGoal goal) (place : String) :
    m.declared.checkConstraint place { state := true, mode := true } goal = .ok () :=
  accepted.checked h.constraint.sort (flowFree_of_plain h.constraint.sorted) (fun _ => h.occurs)
    h.next place

/-- The goal at the end of a trace says that the last step ends in it. -/
theorem IsGoal.encodes (accepted : m.Accepted) (h : m.IsGoal goal) :
    Encodes (goal.substitute (m.allSubst N .exit)) fun ρ =>
      goal.Holds (Trajectory.ofEnv m ρ N).atExit := by
  obtain ⟨u, hu, becomes⟩ := substitute_quantified h.constraint.sorted h.bound
    (s := m.allSubst N .exit) fun v u hv hlogical hu => by
      have declared : m.Declares v := by
        rcases h.occurs hv with hv | hrole
        · exact hv
        · rw [hlogical] at hrole
          cases hrole
      obtain ⟨w, hw, hsort, -, hrole⟩ := accepted.get?_allSubst (k := N) declared.2 .exit
      cases hw.symm.trans hu
      refine ⟨rfl, by rw [Term.sort, hsort]; exact TermSort.alike_refl _, fun q w' body hq => ?_⟩
      refine mentions_var_of_ne ?_
      rintro rfl
      exact hrole (h.bound q w' body hq)
  have constraint := becomes.constraint h.constraint.sort
  refine ⟨u, hu, constraint.ready, fun ρ hρ => ?_⟩
  have sorted := Trajectory.sorted_ofEnv (m := m) hρ N
  rw [Term.Holds, becomes.eval ρ hρ.typed, eval_allSubst, Trajectory.evalTable_exit, Term.Holds,
    Step.atExit]
  rw [eval_congr (flowFree_of_plain h.constraint.sorted) ⟨fun v hv => accepted.now_eq
    (accepted.sameMode ρ N) sorted.mode sorted.exit.suits ρ Env.blank (h.now v hv),
    fun v hv => (h.next v hv).elim⟩]

/-- The constraints for a goal say that the run in an assignment follows the automaton and ends in
the goal. -/
theorem WellSorted.reach_spec (accepted : m.Accepted) (wellSorted : m.WellSorted)
    (h : m.IsGoal goal) (N : Nat) : ∃ ts, m.reachConstraints N goal = .ok ts ∧
      SayAll ts fun ρ => (Trajectory.ofEnv m ρ).Follows m N ∧
        goal.Holds (Trajectory.ofEnv m ρ N).atExit := by
  obtain ⟨ts, hts, follows⟩ := wellSorted.unroll_spec accepted N
  obtain ⟨u, hu, ends⟩ := h.encodes accepted (N := N)
  refine ⟨ts ++ [u], ?_, follows.append (sayAll_singleton ends)⟩
  rw [reachConstraints, h.checked accepted]
  simp only [Attempt.bind_ok]
  rw [hts, Attempt.bind_ok, hu]
  rfl

/-- The unrolled automaton is true in an assignment exactly if the run in it follows the automaton,
and a goal can be reached by the constraints exactly if it can be reached by a run. -/
theorem unroll_adequate {d : Definition} (made : ofDefinition d = .ok m)
    (wellSorted : m.WellSorted) (N : Nat) :
    (∃ ts us, m.unroll N = .ok ts ∧ Solver.expandAll 0 ts = .ok us ∧
      ∀ ρ : Env, ρ.Sorted →
        ((∀ u ∈ us, u.Holds ρ) ↔ (Trajectory.ofEnv m ρ).Follows m N)) ∧
    ∀ goal, m.IsGoal goal → ∃ ts us,
      (∀ solver : Solver, m.reach solver N goal =
        (Attempt.within (.reach N) (solver ts m.logic)).map (·.answer)) ∧
      Solver.expandAll 0 ts = .ok us ∧
      ((∃ ρ : Env, ρ.Sorted ∧ ∀ u ∈ us, u.Holds ρ) ↔
        ∃ r : Trajectory, (∀ k ≤ N, (r k).Sorted m) ∧ r.Follows m N ∧
          goal.Holds (r N).atExit) := by
  have accepted := accepted_of_ofDefinition made
  constructor
  · obtain ⟨ts, hts, spec⟩ := wellSorted.unroll_spec accepted N
    obtain ⟨us, hus, expanded⟩ := Solver.expandAll_ready spec.ready 0
    refine ⟨ts, us, hts, hus, fun ρ hρ => ?_⟩
    rw [expanded ρ hρ.typed, spec.holds ρ hρ]
  · intro goal isGoal
    obtain ⟨ts, hts, spec⟩ := wellSorted.reach_spec accepted isGoal N
    obtain ⟨us, hus, expanded⟩ := Solver.expandAll_ready spec.ready 0
    refine ⟨ts, us, fun solver => ?_, hus, ?_, ?_⟩
    · rw [reach, hts]
      rfl
    · rintro ⟨ρ, hρ, holds⟩
      obtain ⟨follows, ends⟩ := (spec.holds ρ hρ).1 ((expanded ρ hρ.typed).1 holds)
      exact ⟨Trajectory.ofEnv m ρ, fun k _ => Trajectory.sorted_ofEnv hρ k, follows, ends⟩
    · rintro ⟨r, sorted, follows, ends⟩
      let ρ := r.assignment m N fun _ _ => True
      have hρ : ρ.Sorted := Trajectory.assignment_sorted accepted _ sorted
      have same k (hk : k ≤ N) : Trajectory.ofEnv m ρ k = r k :=
        Trajectory.ofEnv_assignment accepted _ sorted hk
      refine ⟨ρ, hρ, (expanded ρ hρ.typed).2 ((spec.holds ρ hρ).2 ⟨?_, ?_⟩)⟩
      · exact follows.congr fun k hk => (same k hk).symm
      · rw [same N le_rfl]
        exact ends

/-! ## A thermostat -/

def temperature : Term := .var ⟨"x", .real, .logical⟩

def heating : Term := .var ⟨"on", .bool, .logical⟩

/-- A heater that warms a room until it is warm enough and then lets it cool down. -/
def heater : Definition where
  stateVars := [("x", .real)]
  modeVars := [("on", .bool)]
  props := [("hot", .cmp .gt temperature (.num .real 23))]
  init := some (.and [heating, .cmp .eq temperature (.num .real 20)])
  modes := [
    { id := 1
      guard := some (.not heating)
      flow := ⟨⟨"t", .real, .bound⟩, [("x", .num .real (-1))], []⟩
      invariant := some (.cmp .ge temperature (.num .real 18)) },
    { id := 0
      guard := some heating
      flow := ⟨⟨"t", .real, .bound⟩, [("x", .num .real 3)], []⟩
      invariant := some (.cmp .le temperature (.num .real 24)) }]
  jumps := [
    { guard := some (.and [heating, .cmp .ge temperature (.num .real 23)])
      reset := some (.and [.not (.next ⟨"on", .bool, .logical⟩),
        .cmp .eq (.next ⟨"x", .real, .logical⟩) temperature]) }]

def thermostat : Automaton where
  stateVars := heater.stateVars
  modeVars := heater.modeVars
  props := heater.props
  init := .and [heating, .cmp .eq temperature (.num .real 20)]
  modes := [
    ⟨0, "mode0", heating, ⟨⟨"t", .real, .bound⟩, [("x", .num .real 3)], []⟩,
      .cmp .le temperature (.num .real 24)⟩,
    ⟨1, "mode1", .not heating, ⟨⟨"t", .real, .bound⟩, [("x", .num .real (-1))], []⟩,
      .cmp .ge temperature (.num .real 18)⟩]
  jumps := [
    ⟨.and [heating, .cmp .ge temperature (.num .real 23)],
      .and [.not (.next ⟨"on", .bool, .logical⟩),
        .cmp .eq (.next ⟨"x", .real, .logical⟩) temperature]⟩]
  logic := ""

theorem ofDefinition_heater : ofDefinition heater = .ok thermostat := by cbv

theorem wellSorted_thermostat : thermostat.WellSorted := by decide

/-- The heater is off and the room is warmer than some temperature above twenty. -/
def warm : Term :=
  .and [.not heating, .quant .any ⟨"y", .real, .bound⟩
    (.and [.cmp .gt (.var ⟨"y", .real, .bound⟩) (.num .real 20),
      .cmp .gt temperature (.var ⟨"y", .real, .bound⟩)])]

theorem isGoal_warm : thermostat.IsGoal warm where
  constraint := ⟨by decide, rfl⟩
  now v hv := by
    have all : ∀ v ∈ warm.occurrences [], thermostat.Declares v := by decide
    exact all v (by simpa [mentions] using hv)
  next v hv := by simp [warm, heating, temperature, subterms, nodes, nodesAll] at hv
  bound q v body h := by
    simp [warm, heating, temperature, subterms, nodes, nodesAll] at h
    obtain ⟨rfl, rfl, rfl⟩ := h
    rfl

theorem reach_warm : ∃ ts us,
    (∀ solver : Solver, thermostat.reach solver (1 : Nat) warm =
      (Attempt.within (.reach (1 : Nat)) (solver ts thermostat.logic)).map (·.answer)) ∧
    Solver.expandAll 0 ts = .ok us ∧
    ((∃ ρ : Env, ρ.Sorted ∧ ∀ u ∈ us, u.Holds ρ) ↔
      ∃ r : Trajectory, (∀ k ≤ 1, (r k).Sorted thermostat) ∧ r.Follows thermostat 1 ∧
        warm.Holds (r 1).atExit) :=
  (unroll_adequate ofDefinition_heater wellSorted_thermostat 1).2 warm isGoal_warm

end Automaton

end HybridCheck
