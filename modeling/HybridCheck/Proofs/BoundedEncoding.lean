import HybridCheck.Proofs.RunTrace
import HybridCheck.Search.Basic

/-!
# The bounded encoding is exact

The constraints for a bound say that there is a run with that many jumps on which the negated
property holds now. Whatever assignment satisfies them, the run in it is a counterexample. In the
other direction, a run on which the negated property holds can be made into an assignment that
satisfies them, provided that every proposition of the property keeps its truth value during each
step: symbols of propositions get that value, and instants are guessed for the existential
operators.
-/

namespace HybridCheck

open Term HybridCheck.Symbol

/-! ## Encoding a formula -/

open scoped Classical in
/-- There are assignments in which time moves on. -/
theorem Timeline.exists_increasing (N : Nat) : ∃ ρ : Env, ρ.Sorted ∧ Increasing ρ N := by
  let ρ : Env := { Env.blank with
    now := fun v => if h : ∃ k : Nat, v = tau k then .number h.choose else Env.blank.now v }
  have stop (k : Nat) : (Timeline.stop k).amount ρ = k := by
    have exists_tau : ∃ j : Nat, tau k = tau j := ⟨k, rfl⟩
    have same : (k : Int) = exists_tau.choose := tau_inj.1 exists_tau.choose_spec
    have value : ρ.now (tau k) = .number (exists_tau.choose : Nat) := dif_pos exists_tau
    rw [Timeline.stop, Term.amount, eval, value, Value.toReal_number]
    exact_mod_cast same.symm
  refine ⟨ρ, ⟨fun v => ?_, Env.blank_sorted.2⟩, ?_, fun k _ => ?_⟩
  · by_cases h : ∃ k : Nat, v = tau k
    · obtain ⟨k, rfl⟩ := h
      exact ⟨_, dif_pos ⟨k, rfl⟩⟩
    · have value : ρ.now v = Env.blank.now v := dif_neg h
      rw [value]
      exact Env.blank_sorted.1 v
  · exact (stop 0).symm ▸ (by simp)
  · have next := stop (k + 1)
    rw [Nat.cast_succ] at next
    rw [stop k, next]
    simp

theorem Trajectory.ofEnv_guess (m : Automaton) (ρ : Env) (x : Var → ℝ) :
    ofEnv m (ρ.guess x) = ofEnv m ρ := by
  refine ofEnv_congr (fun k => Env.guess_now (time_ne_witness k))
    (fun k => Env.guess_now (tau_ne_witness k)) fun v hv => Env.guess_now ?_
  rintro n rfl
  rcases hv with hv | hv <;> cases hv

/-- Guessed instants do not matter for the run in an assignment. -/
theorem Env.Traces.guess {m : Automaton} {ρ : Env} {N : Nat} {props : List String}
    (h : ρ.Traces m N props) (x : Var → ℝ) : (ρ.guess x).Traces m N props := by
  have same := Trajectory.ofEnv_guess m ρ x
  refine ⟨same ▸ h.follows, same ▸ h.elapses, fun k hk name hname t ht md hmd => ?_⟩
  rw [same, Env.guess_now fun n hn => by cases congrArg Var.role hn]
  exact h.keeps k hk name hname t ht md hmd

namespace Automaton

variable {m : Automaton} {g : Formula} {N : Nat} {gs : Formula.Guessed} {bv : BaseValuation}
  {u : Term} {trace : List Term} {ρ : Env}

theorem isPart_nnf (formed : g.Over m.scope.Declares m.scope.Proposes)
    (sorted : g.WellSorted) : g.nnf.Every m.IsPart fun w => 0 ≤ w.lower := by
  have leaves : g.nnf.Every (fun f => f.Over m.scope.Declares m.scope.Proposes)
      fun w => 0 ≤ w.lower :=
    (formed.normal false).every (fun _ => trivial) (fun _ h => h) fun _ h => h
  have constraints : g.nnf.Every (fun f => ∀ c, f = .atom c → c.Constraint noFlow) fun _ => True :=
    sorted.normal (fun _ => nofun) (fun c hc c' h => Formula.atom.inj h ▸ (hc c rfl).not) false
  exact (leaves.and constraints).mono (fun _ h => ⟨h.1, h.2⟩) fun _ h => h.1

/-- What a formula over an automaton is encoded into for a number of jumps. -/
structure Encoded (m : Automaton) (g : Formula) (N : Nat) (gs : Formula.Guessed)
    (bv : BaseValuation) (u : Term) (trace : List Term) : Prop where
  guessed : g.guess ⟨N⟩ = .ok gs
  tabulates : m.Tabulates N gs.partition bv
  tabulated : g.nnf.Every (Formula.Tabulated bv fun _ => False) fun w => 0 ≤ w.lower
  valued : (g.separate gs.guesses).valuation (Window.point 0) bv = .ok u
  constraint : u.Constraint noFlow
  ends : ∃ t ∈ trace, t.mentions (tau N) = true
  traces : SayAll trace fun ρ => ρ.Traces m N gs.partition.propositions

def bounded (gs : Formula.Guessed) (u : Term) (trace : List Term) (T : Option Rat) : List Term :=
  trace ++ T.elim [] (timeBoundConstraints (trace ++ gs.constraints ++ [u])) ++ gs.constraints ++
    [u]

section

variable (accepted : m.Accepted) (wellSorted : m.WellSorted)
include accepted wellSorted

theorem Tabulates.reading (h : m.Tabulates N gs.partition bv) {e : String × Atomic}
    (he : e ∈ gs.partition) {k : Int} (hk : k ∈ steps (N + 1)) {c : Term}
    (hc : BaseValuation.cell m.signal e.2 k = .ok c) : Reading c := by
  obtain ⟨n, -, rfl⟩ : ∃ n : Nat, n < N + 1 ∧ k = n := mem_steps.1 hk
  obtain ⟨c', hc', reading, -⟩ := wellSorted.cell_spec accepted (h.entries e he).part n
  cases hc.symm.trans hc'
  exact reading

theorem Tabulates.describes (h : m.Tabulates N gs.partition bv)
    (inc : Timeline.Increasing ρ N) : bv.Describes N ρ (bv.trace N ρ) :=
  BaseValuation.describes_trace h.made
    (fun _ he _ hk _ hc => (h.reading accepted wellSorted he hk hc).isCell) inc

/-- What the table of atoms says does not depend on the guessed instants. -/
theorem Tabulates.trace_guess (h : m.Tabulates N gs.partition bv) (x : Var → ℝ) :
    bv.trace N (ρ.guess x) = bv.trace N ρ := by
  refine BaseValuation.trace_guess x (BaseValuation.forall_cells h.made fun e he k hk c hc => ?_)
  have reading := h.reading accepted wellSorted he hk hc
  exact ⟨flowFree_of_plain reading.constraint.sorted, reading.not_witness⟩

/-- Every well-sorted formula over an automaton can be encoded. -/
theorem WellSorted.exists_encoded (formed : g.Over m.scope.Declares m.scope.Proposes)
    (sorted : g.WellSorted) (N : Nat) : ∃ gs bv u trace, m.Encoded g N gs bv u trace ∧
      ∀ T, Search.encode m m.encoder T g N =
        .ok ⟨bounded gs u trace T, (g.separate gs.guesses).size⟩ := by
  have parts := isPart_nnf formed sorted
  obtain ⟨gs, hgs, collects⟩ := formed.guess parts N
  have cells : ∀ e ∈ gs.partition, ∀ k ∈ steps (N + 1), ∃ c,
      BaseValuation.cell m.signal e.2 k = .ok c := by
    intro e he k hk
    obtain ⟨n, -, rfl⟩ : ∃ n : Nat, n < N + 1 ∧ k = n := mem_steps.1 hk
    obtain ⟨c, hc, -⟩ := wellSorted.cell_spec accepted (collects.entries e he).part n
    exact ⟨c, hc⟩
  obtain ⟨bv, made, rows⟩ := BaseValuation.exists_tabulate cells
  have tabulates : m.Tabulates N gs.partition bv := ⟨collects.entries, made⟩
  have tabulated := Formula.tabulated_of_listed rows collects.listed
  -- whether a formula can be valued does not depend on the assignment, so any one will do
  obtain ⟨ρ, hρ, inc⟩ := Timeline.exists_increasing N
  have stop : 0 ≤ (Timeline.stop N).amount ρ := by
    rcases N.eq_zero_or_pos with rfl | hN
    · exact inc.1
    · exact inc.1.trans (inc.stop_lt hN le_rfl).le
  obtain ⟨u, hu, constraint, -⟩ := Formula.valuation_separated
    (tabulates.describes accepted wellSorted inc) hρ.typed hgs tabulated le_rfl
    (by exact_mod_cast stop)
  have known : ∀ name ∈ gs.partition.propositions, ∃ t, m.props.get? name = some t := by
    intro name hname
    obtain ⟨key, he⟩ := Partition.mem_propositions.1 hname
    exact definition_of_scope (collects.entries _ he).part.formed
  obtain ⟨trace, ends, traces, hconstraints⟩ := wellSorted.constraints_spec accepted N known
  refine ⟨gs, bv, u, trace, ⟨hgs, tabulates, tabulated, hu, constraint, ends, traces⟩, fun T => ?_⟩
  have list := hconstraints T gs.constraints [u]
  simp only [Search.encode, encoder, hgs, Attempt.within_ok, Attempt.bind_ok, made, hu, list,
    bounded, Attempt.pure_eq_ok]

end

/-! ## What the constraints say -/

theorem Encoded.numbered (h : m.Encoded g N gs bv u trace) :
    Numbered ⟨N⟩ (gs.guesses, gs.constraints) :=
  (Formula.skolemized_of_guess (Q := fun _ => True) h.guessed (fun _ _ _ _ => trivial)
    (fun _ _ _ _ => trivial) trivial).numbered

/-- The constraints for a bound say that there is a run in an assignment, that points in time keep
to the bound on time, that guessed instants lie in the trace, and that the formula is satisfied. -/
theorem Encoded.holds_bounded (h : m.Encoded g N gs bv u trace) (T : Option Rat) (hρ : ρ.Sorted) :
    (∀ t ∈ bounded gs u trace T, t.Holds ρ) ↔ ρ.Traces m N gs.partition.propositions ∧
      (∀ b ∈ T, ∀ t ∈ trace ++ gs.constraints ++ [u], ∀ v, t.mentions v = true →
        v.role = .timestamp → 0 ≤ (ρ.now v).toReal ∧ (ρ.now v).toReal ≤ b) ∧
      (∀ c ∈ gs.constraints, c.Holds ρ) ∧ u.Holds ρ := by
  rw [bounded, List.forall_mem_append, List.forall_mem_append, List.forall_mem_append,
    h.traces.holds ρ hρ, List.forall_mem_singleton, and_assoc, and_assoc]
  refine and_congr_right fun _ => and_congr_left fun _ => ?_
  cases T with
  | none => simp
  | some b =>
    simp only [Option.mem_some_iff, forall_eq', Option.elim_some]
    exact timeBound_spec.2 ρ

/-- The constraints for a bound can be expanded. -/
theorem Encoded.exists_expanded (h : m.Encoded g N gs bv u trace) (T : Option Rat) :
    ∃ us, Solver.expandAll 0 (bounded gs u trace T) = .ok us ∧ ∀ ρ : Env, ρ.Sorted →
      ((∀ u ∈ us, u.Holds ρ) ↔ ∀ t ∈ bounded gs u trace T, t.Holds ρ) := by
  have each : ∀ t ∈ bounded gs u trace T, ∃ u, t.expand = .ok u ∧
      ∀ ρ : Env, ρ.Typed → u.eval ρ = t.eval ρ := by
    intro t ht
    simp only [bounded, List.mem_append, List.mem_singleton] at ht
    obtain ((ht | ht) | ht) | rfl := ht
    · exact (h.traces.ready t ht).expand
    · cases T with
      | none => cases ht
      | some b => exact ⟨t, timeBound_spec.1 t ht, fun _ _ => rfl⟩
    · obtain ⟨i, rfl⟩ := h.numbered.placed t ht
      exact (domain_spec (amount_point rfl)).1.ready.expand
    · exact h.constraint.ready.expand
  obtain ⟨us, hus, holds⟩ := Solver.expandAll_spec each 0
  exact ⟨us, hus, fun ρ hρ => holds ρ hρ.typed⟩

section

variable (accepted : m.Accepted) (wellSorted : m.WellSorted)
  (formed : g.Over m.scope.Declares m.scope.Proposes) (sorted : g.WellSorted)
  (h : m.Encoded g N gs bv u trace) (hρ : ρ.Sorted)
  (traces : ρ.Traces m N gs.partition.propositions)

include accepted wellSorted h hρ traces

theorem Encoded.holds_separated : u.Holds ρ ↔ (g.separate gs.guesses).top.Holds
    ((bv.trace N ρ).guessed (g.separate gs.guesses).sub fun w => (var w).amount ρ) 0 := by
  have inc := traces.elapses.timeline
  have stop : ((0 : Rat) : ℝ) ≤ (bv.trace N ρ).length := by
    rw [Rat.cast_zero]
    exact traces.elapses.stop_nonneg le_rfl
  obtain ⟨u', hu', -, holds⟩ := Formula.valuation_separated
    (h.tabulates.describes accepted wellSorted inc) hρ.typed h.guessed h.tabulated le_rfl stop
  cases h.valued.symm.trans hu'
  rwa [Rat.cast_zero] at holds

include formed sorted

theorem Encoded.faithful :
    g.nnf.Faithful m.scope.Declares m.scope.Proposes (bv.trace N ρ) :=
  ⟨formed.normal false, h.tabulates.keeps accepted wellSorted hρ traces
    (isPart_nnf formed sorted) h.tabulated⟩

theorem Encoded.skolemized : Formula.Skolemized
    (Formula.Faithful m.scope.Declares m.scope.Proposes (bv.trace N ρ)) N g.nnf gs
    (g.separate gs.guesses) :=
  Formula.skolemized_of_guess h.guessed Formula.inherited_faithful.and
    Formula.inherited_faithful.or (h.faithful accepted wellSorted formed sorted hρ traces)

/-- The table of atoms satisfies the normal form of a formula if the run satisfies the formula. -/
theorem Encoded.holds_run (exclusive : m.Exclusive) : g.nnf.Holds (bv.trace N ρ) 0 ↔
    g.Holds ((Trajectory.ofEnv m ρ).trace m N) 0 := by
  have stop : 0 ≤ (Timeline.stop N).amount ρ := traces.elapses.stop_nonneg le_rfl
  have agrees := h.tabulates.agrees accepted wellSorted hρ traces (isPart_nnf formed sorted)
    h.tabulated
  have length : (bv.trace N ρ).length = ((Trajectory.ofEnv m ρ).trace m N).length := rfl
  exact (Formula.holds_congr length agrees le_rfl stop).trans
    (holds_nnf exclusive hρ traces formed le_rfl stop)

/-- If the constraint for a formula holds in an assignment, the formula holds on the run. -/
theorem Encoded.sound_of_over (exclusive : m.Exclusive) (holds : u.Holds ρ) :
    g.Holds ((Trajectory.ofEnv m ρ).trace m N) 0 := by
  have faithful := h.faithful accepted wellSorted formed sorted hρ traces
  obtain ⟨numbered, kept, separates⟩ := h.skolemized accepted wellSorted formed sorted hρ traces
  have stop : 0 ≤ (bv.trace N ρ).length := traces.elapses.stop_nonneg le_rfl
  refine (h.holds_run accepted wellSorted formed sorted hρ traces exclusive).1 ?_
  exact Formula.holds_of_separates Formula.inherited_faithful
    (Formula.alike_faithful accepted.vocabulary) numbered kept le_rfl stop faithful separates
    ((h.holds_separated accepted wellSorted hρ traces).1 holds)

/-- If a formula holds on the run in an assignment, instants can be guessed for its constraint. -/
theorem Encoded.complete_of_over (exclusive : m.Exclusive)
    (holds : g.Holds ((Trajectory.ofEnv m ρ).trace m N) 0) :
    ∃ x : Var → ℝ, (∀ w, 0 ≤ x w ∧ x w ≤ (Timeline.stop N).amount ρ) ∧
      (∀ c ∈ gs.constraints, c.Holds (ρ.guess x)) ∧ u.Holds (ρ.guess x) := by
  have faithful := h.faithful accepted wellSorted formed sorted hρ traces
  obtain ⟨numbered, kept, separates⟩ := h.skolemized accepted wellSorted formed sorted hρ traces
  have stop : 0 ≤ (bv.trace N ρ).length := traces.elapses.stop_nonneg le_rfl
  obtain ⟨x, inside, met⟩ := Formula.exists_guess Formula.inherited_faithful kept le_rfl stop
  refine ⟨x, inside, Formula.constraints_hold numbered (hρ.guess x).typed fun i => ?_, ?_⟩
  · rw [Env.amount_guess, Env.amount_stop_guess]
    exact inside _
  · -- guessing changes neither the run nor the table, so the formula is read as before
    rw [h.holds_separated accepted wellSorted (hρ.guess x) (traces.guess x),
      h.tabulates.trace_guess accepted wellSorted x]
    refine Formula.Separates.holds Formula.inherited_faithful
      (Formula.alike_faithful accepted.vocabulary) numbered kept le_rfl stop (fun i f hf h => ?_)
      faithful separates
      ((h.holds_run accepted wellSorted formed sorted hρ traces exclusive).2 holds)
    rw [Env.amount_guess]
    exact met _ f hf h

end

theorem Encoded.propositions_of_over (h : m.Encoded g N gs bv u trace)
    (formed : g.Over m.scope.Declares m.scope.Proposes) {S : String → Prop}
    (hS : g.Every (fun f => ∀ name, f = .prop name → S name) fun _ => True) :
    ∀ name ∈ gs.partition.propositions, S name := by
  have windows : g.nnf.Every (fun _ => True) fun w => 0 ≤ w.lower :=
    (formed.normal false).every (fun _ => trivial) (fun _ _ => trivial) fun _ _ => trivial
  have parts : g.nnf.Every (fun f => ∀ name, f = .prop name → S name) fun w => 0 ≤ w.lower :=
    ((hS.normal (fun _ _ => nofun) (fun _ _ _ => nofun) false).and windows).mono
      (fun _ h => h.1) fun _ h => h.2
  obtain ⟨gs', hgs', collects⟩ := formed.guess parts N
  cases hgs'.symm.trans h.guessed
  intro name hname
  obtain ⟨key, he⟩ := Partition.mem_propositions.1 hname
  exact (collects.entries _ he).part name rfl

end Automaton

/-! ## Assignments for steady runs -/

namespace Trajectory

variable {m : Automaton} {N k : Nat} {r : Trajectory} {T : Option Rat} {name : String}

/-- A proposition holds throughout a step. -/
def Lasts (m : Automaton) (r : Trajectory) (name : String) (k : Nat) : Prop :=
  ∃ t, m.props.get? name = some t ∧ ∃ md ∈ m.modes, md.guard.Holds (r k).located ∧
    ∀ c : ℝ, 0 ≤ c → c ≤ (r k).duration → t.Holds ((r k).after md c)

def SteadyFor (m : Automaton) (N : Nat) (r : Trajectory) (g : Formula) : Prop :=
  g.Every (fun f => ∀ name, f = .prop name → r.Steady m N name) fun _ => True

theorem Of.elapses (h : r.Of m N T) : r.Elapses N := ⟨h.duration, h.first, h.increasing⟩

theorem Steady.keeps (steady : r.Steady m N name) (exclusive : m.Exclusive) (hk : k ≤ N)
    (sorted : (r k).Sorted m) {t : Term} (ht : m.props.get? name = some t) {md : Mode}
    (hmd : md ∈ m.modes) : (r k).Keeps md t (r.Lasts m name k) := by
  intro active c h0 hc
  have only {md' : Mode} (hmd' : md' ∈ m.modes) (active' : md'.guard.Holds (r k).located) :
      md' = md := exclusive _ sorted.mode md' hmd' md hmd active' active
  constructor
  · intro holds
    refine ⟨t, ht, md, hmd, active, ?_⟩
    exact (steady t ht k hk md hmd active).resolve_right fun never => never c h0 hc holds
  · rintro ⟨t', ht', md', hmd', active', always⟩
    cases ht.symm.trans ht'
    rw [only hmd' active'] at always
    exact always c h0 hc

section

variable (accepted : m.Accepted) (h : r.Of m N T)
include accepted h

/-- The assignment for a run that tells the truth about steady propositions has the run in it. -/
theorem Of.traces (exclusive : m.Exclusive) {props : List String}
    (steady : ∀ name ∈ props, r.Steady m N name) :
    (r.assignment m N (r.Lasts m)).Traces m N props := by
  have same k (hk : k ≤ N) : ofEnv m (r.assignment m N (r.Lasts m)) k = r k :=
    ofEnv_assignment accepted _ h.sorted hk
  refine ⟨h.follows.congr fun k hk => (same k hk).symm,
    h.elapses.congr fun k hk => (same k hk).symm, fun k hk name hname t ht md hmd => ?_⟩
  have declared : name ∈ Table.names m.props := List.mem_map_of_mem (Table.mem_of_get? ht)
  have value := assignment_slot accepted (r.Lasts m) (r := r) (s := .prop name k) ⟨declared, hk⟩
  simp only [Slot.symbol, Slot.value] at value
  rw [same k hk, value, Value.holds_truth]
  exact (steady name hname).keeps exclusive hk (h.sorted k hk) ht hmd

/-- In the assignment for a run no point in time is later than the end of the run. -/
theorem Of.inside (truth : String → Nat → Prop) {v : Var} (hv : v.role = .timestamp) :
    0 ≤ ((r.assignment m N truth).now v).toReal ∧
      ((r.assignment m N truth).now v).toReal ≤ (r N).stop := by
  by_cases slot : ∃ s : Slot, s.Of m N ∧ s.symbol = v
  · obtain ⟨s, hs, rfl⟩ := slot
    rw [assignment_slot accepted truth hs]
    cases s with
    | time k =>
      have hk : k ≤ N := hs
      have below := h.elapses.stop_le hk le_rfl
      have start := h.elapses.start_nonneg hk
      obtain ⟨_, _, duration, _⟩ := h.follows.step k hk
      rw [Slot.value, Value.toReal_number]
      exact ⟨duration, by linarith [h.duration k hk]⟩
    | tau k =>
      have hk : k ≤ N := hs
      exact ⟨h.elapses.stop_nonneg hk, h.elapses.stop_le hk le_rfl⟩
    | mode | prop | state => cases hv
  · have value : ((r.assignment m N truth).now v).toReal = 0 := by
      simp only [assignment, dif_neg slot, Env.blank]
      split <;> rfl
    rw [value]
    exact ⟨le_rfl, h.elapses.stop_nonneg le_rfl⟩

/-- Points in time still keep to a bound on time when instants of the run are guessed. -/
theorem Of.inside_guess (truth : String → Nat → Prop) {x : Var → ℝ}
    (hx : ∀ w, 0 ≤ x w ∧ x w ≤ (r N).stop) {b : Rat} (hb : b ∈ T) {v : Var}
    (hv : v.role = .timestamp) :
    0 ≤ (((r.assignment m N truth).guess x).now v).toReal ∧
      (((r.assignment m N truth).guess x).now v).toReal ≤ b := by
  suffices inside : 0 ≤ (((r.assignment m N truth).guess x).now v).toReal ∧
      (((r.assignment m N truth).guess x).now v).toReal ≤ (r N).stop from
    ⟨inside.1, inside.2.trans (h.bounded b hb)⟩
  by_cases guessed : ∃ n, v = witness n
  · obtain ⟨n, rfl⟩ := guessed
    have value := Env.amount_guess (ρ := r.assignment m N truth) (x := x) n
    rw [Term.amount, eval] at value
    rw [value]
    exact hx _
  · rw [Env.guess_now (not_exists.1 guessed)]
    exact h.inside accepted truth hv

end

end Trajectory

namespace Automaton

variable {m : Automaton} {g : Formula} {N : Nat} {T : Option Rat}

section

variable {gs : Formula.Guessed} {bv : BaseValuation} {u : Term} {trace : List Term} {ρ : Env}
  {r : Trajectory} (accepted : m.Accepted) (wellSorted : m.WellSorted) (exclusive : m.Exclusive)
  (formed : g.Over m.scope.Declares m.scope.Proposes) (sorted : g.WellSorted)
  (h : m.Encoded g N gs bv u trace)
include accepted wellSorted exclusive formed sorted h

/-- Whatever satisfies the constraints for a bound has a run in it that satisfies the formula. -/
theorem Encoded.run (hρ : ρ.Sorted) (holds : ∀ t ∈ bounded gs u trace T, t.Holds ρ) :
    (Trajectory.ofEnv m ρ).Of m N T ∧ g.Holds ((Trajectory.ofEnv m ρ).trace m N) 0 := by
  obtain ⟨traces, times, -, formula⟩ := (h.holds_bounded T hρ).1 holds
  have bounded (b : Rat) (hb : b ∈ T) : (Trajectory.ofEnv m ρ N).stop ≤ b := by
    obtain ⟨t, ht, mentioned⟩ := h.ends
    exact (times b hb t (by simp [ht]) (tau N) mentioned rfl).2
  exact ⟨⟨fun k _ => Trajectory.sorted_ofEnv hρ k, traces.elapses.duration, traces.elapses.first,
    traces.elapses.increasing, bounded, traces.follows⟩,
    h.sound_of_over accepted wellSorted formed sorted hρ traces exclusive formula⟩

/-- Every run that satisfies the formula and along which its propositions are steady is the run in
an assignment that satisfies the constraints. -/
theorem Encoded.realized (run : r.Of m N T) (steady : r.SteadyFor m N g)
    (holds : g.Holds (r.trace m N) 0) :
    ∃ ρ : Env, ρ.Sorted ∧ (∀ k ≤ N, Trajectory.ofEnv m ρ k = r k) ∧
      ∀ t ∈ bounded gs u trace T, t.Holds ρ := by
  have hρ := Trajectory.assignment_sorted accepted (r.Lasts m) run.sorted
  have same k (hk : k ≤ N) := Trajectory.ofEnv_assignment accepted (r.Lasts m) run.sorted hk
  have traces := run.traces accepted exclusive (h.propositions_of_over formed steady)
  rw [← Trajectory.trace_congr same] at holds
  obtain ⟨x, inside, placed, formula⟩ :=
    h.complete_of_over accepted wellSorted formed sorted hρ traces exclusive holds
  rw [← Trajectory.stop_ofEnv (m := m), same N le_rfl] at inside
  refine ⟨_, hρ.guess x, fun k hk => ?_, (h.holds_bounded T (hρ.guess x)).2 ⟨traces.guess x,
    fun b hb t _ v _ hv => run.inside_guess accepted _ inside hb hv, placed, formula⟩⟩
  rw [Trajectory.ofEnv_guess]
  exact same k hk

end

/-! ## A run of the thermostat -/

theorem exclusive_thermostat : thermostat.Exclusive := by
  intro t _ md hmd md' hmd' active active'
  simp only [thermostat, List.mem_cons, List.not_mem_nil, or_false] at hmd hmd'
  obtain rfl | rfl := hmd <;> obtain rfl | rfl := hmd'
  · rfl
  · rw [Term.Holds, eval, Value.holds_truth] at active'
    exact absurd active active'
  · rw [Term.Holds, eval, Value.holds_truth] at active
    exact absurd active' active
  · rfl

/-- It is not hot, and later it will be warmer. -/
def warmer : Formula :=
  .and [.not (.prop "hot"), .eventually ⟨some 2, some 3, false, false⟩
    (.atom (.cmp .ge temperature (.num .real 21)))]

theorem ofText_warmer :
    Formula.ofText thermostat.scope "~hot /\\ <>_[2,3] (x >= 21)" = .ok warmer := by cbv

theorem wellSorted_warmer : warmer.WellSorted := by
  refine ⟨nofun, ⟨trivial, fun c hc => ?_⟩, trivial⟩
  cases hc
  exact ⟨rfl, rfl⟩

def slope : Bool → Rat
  | true => 3
  | false => -1

/-- A step of the thermostat from a temperature `x`, with the heater on or off. -/
noncomputable def phase (on : Bool) (x duration stop : ℝ) : Step where
  duration := duration
  stop := stop
  mode := [("on", .truth (on = true))]
  entry := [("x", .number x)]
  exit := [("x", .number (x + slope on * duration))]

/-- The heater warms the room until it is 23 degrees warm, and then the room cools down. -/
noncomputable def warming : Trajectory
  | 0 => phase true 20 1 1
  | _ + 1 => phase false 23 1 2

section Phase

variable {on : Bool} {x d stop c : ℝ} {md : Mode}

theorem sorted_phase : (phase on x d stop).Sorted thermostat :=
  ⟨.cons ⟨rfl, _, rfl⟩ .nil, .cons ⟨rfl, x, rfl⟩ .nil, .cons ⟨rfl, _, rfl⟩ .nil⟩

theorem heating_phase : heating.Holds (phase on x d stop).located ↔ on = true := by
  have value : (phase on x d stop).located.now ⟨"on", .bool, .logical⟩ = .truth (on = true) :=
    Env.bind_now rfl rfl ⟨_, rfl⟩
  rw [heating, Term.Holds, eval, value, Value.holds_truth]

theorem not_heating_phase : (Term.not heating).Holds (phase on x d stop).located ↔ on = false := by
  rw [Term.Holds, eval, Value.holds_truth, ← Bool.not_eq_true]
  exact not_congr heating_phase

variable (hmd : md ∈ thermostat.modes) (active : md.guard.Holds (phase on x d stop).located)
include hmd active

theorem stateAt_phase (ρ : Env) (c : ℝ) :
    md.flow.stateAt ρ (phase on x d stop).mode (phase on x d stop).entry c =
      [("x", .number (x + slope on * c))] := by
  simp only [thermostat, List.mem_cons, List.not_mem_nil, or_false] at hmd
  obtain rfl | rfl := hmd
  · obtain rfl := heating_phase.1 active
    simp [phase, slope, FlowOf.stateAt, FlowOf.reach, FlowOf.moved, evalTable, eval, Table.get?]
  · obtain rfl := not_heating_phase.1 active
    simp [phase, slope, FlowOf.stateAt, FlowOf.reach, FlowOf.moved, evalTable, eval, Table.get?]

theorem temperature_phase (c : ℝ) :
    temperature.eval ((phase on x d stop).after md c) = .number (x + slope on * c) := by
  have clock : ∀ md ∈ thermostat.modes, ⟨"x", .real, .logical⟩ ≠ md.flow.clock := by decide
  rw [temperature, eval, Step.after, FlowOf.instant, Env.set_now_of_ne _ _ (clock md hmd),
    stateAt_phase hmd active]
  refine Env.bind_now rfl ?_ ⟨_, rfl⟩
  simp [phase, Table.get?_merge, Table.names, Table.get?]

/-- The temperature is compared as it changes. -/
theorem cmp_phase (r : Relation) (q : Rat) (c : ℝ) :
    (Term.cmp r temperature (.num .real q)).Holds ((phase on x d stop).after md c) ↔
      r.Compares (.number (x + slope on * c)) (.number q) := by
  rw [Term.Holds, eval, temperature_phase hmd active, eval, Value.holds_truth]

theorem spentIn_phase (within : ∀ c, 0 ≤ c → c ≤ d →
    md.invariant.Holds ((phase on x d stop).after md c)) : (phase on x d stop).SpentIn md where
  guard := active
  flow e he := by
    have exit : (phase on x d stop).exit = [("x", .number (x + slope on * d))] := rfl
    rw [exit, List.mem_singleton] at he
    have reached := stateAt_phase hmd active Env.blank d
    subst he
    exact (congrArg (Table.get? · "x") reached).trans rfl
  invariant := within

end Phase

theorem warming_of_thermostat : warming.Of thermostat 1 (some 3) where
  sorted k _ := by cases k <;> exact sorted_phase
  duration k hk := by
    interval_cases k <;> norm_num [warming, phase, Trajectory.start]
  first := by norm_num [warming, phase]
  increasing k hk := by
    obtain rfl := Nat.lt_one_iff.1 hk
    norm_num [warming, phase]
  bounded b hb := by
    cases hb
    norm_num [warming, phase]
  follows := by
    have heats : thermostat.modes[0] ∈ thermostat.modes := List.getElem_mem _
    have cools : thermostat.modes[1] ∈ thermostat.modes := List.getElem_mem _
    have on : thermostat.modes[0].guard.Holds (warming 0).located := heating_phase.2 rfl
    have off : thermostat.modes[1].guard.Holds (warming 1).located := not_heating_phase.2 rfl
    refine ⟨?_, fun k hk => ?_, fun k hk => ⟨_, List.mem_singleton_self _, ?_⟩⟩
    · have x : (warming 0).atEntry.now ⟨"x", .real, .logical⟩ = .number 20 :=
        Env.bind_now rfl rfl ⟨20, rfl⟩
      have on : (warming 0).atEntry.now ⟨"on", .bool, .logical⟩ = .truth (true = true) :=
        Env.bind_now rfl rfl ⟨_, rfl⟩
      simp [thermostat, Term.Holds, eval, heating, temperature, x, on, Relation.Compares]
    · interval_cases k
      · refine ⟨_, heats, by norm_num [warming, phase], spentIn_phase heats on fun c _ hc => ?_⟩
        refine (cmp_phase heats on .le 24 c).2 ?_
        norm_num [Relation.Compares, slope]
        linarith
      · refine ⟨_, cools, by norm_num [warming, phase], spentIn_phase cools off fun c _ hc => ?_⟩
        refine (cmp_phase cools off .ge 18 c).2 ?_
        norm_num [Relation.Compares, slope]
        linarith
    · obtain rfl := Nat.lt_one_iff.1 hk
      have on : (warming 0).atExit.now ⟨"on", .bool, .logical⟩ = .truth (true = true) :=
        Env.bind_now rfl rfl ⟨_, rfl⟩
      have x : (warming 0).atExit.now ⟨"x", .real, .logical⟩ = .number (20 + slope true * 1) :=
        Env.bind_now rfl rfl ⟨_, rfl⟩
      have on' : ((warming 0).atExit.bindNext ((warming 1).mode.merge (warming 1).entry)).next
          ⟨"on", .bool, .logical⟩ = .truth (false = true) :=
        Env.bindNext_next rfl ⟨_, rfl⟩
      have x' : ((warming 0).atExit.bindNext ((warming 1).mode.merge (warming 1).entry)).next
          ⟨"x", .real, .logical⟩ = .number 23 :=
        Env.bindNext_next rfl ⟨_, rfl⟩
      constructor
      · simp [Term.Holds, eval, heating, temperature, on, x, Relation.Compares, slope]
        norm_num
      · rw [Term.Holds, eval]
        simp [eval, evalAll, temperature, on', x', Env.bindNext_now, x, Relation.Compares, slope]
        norm_num

theorem not_hot {k : Nat} (hk : k ≤ 1) {md : Mode} (hmd : md ∈ thermostat.modes)
    (active : md.guard.Holds (warming k).located) {c : ℝ} (h0 : 0 ≤ c)
    (hc : c ≤ (warming k).duration) :
    ¬(Term.cmp .gt temperature (.num .real 23)).Holds ((warming k).after md c) := by
  interval_cases k
  · have hc : c ≤ 1 := hc
    rw [warming, cmp_phase hmd active]
    norm_num [Relation.Compares, slope]
    linarith
  · rw [warming, cmp_phase hmd active]
    norm_num [Relation.Compares, slope]
    exact h0

theorem steady_warming : warming.SteadyFor thermostat 1 warmer := by
  refine ⟨fun name hname t ht k hk md hmd active => Or.inr fun c h0 hc => ?_, ⟨trivial, nofun⟩,
    trivial⟩
  cases hname
  cases ht
  exact not_hot hk hmd active h0 hc

theorem warmer_warming : warmer.Holds (warming.trace thermostat 1) 0 := by
  rw [warmer, Formula.holds_and]
  simp only [List.mem_cons, List.not_mem_nil, or_false, forall_eq_or_imp, forall_eq]
  constructor
  · rintro ⟨t, ht, k, hk, ⟨begun, -⟩, md, hmd, active, holds⟩
    cases ht
    interval_cases k
    · refine not_hot zero_le_one hmd active ?_ ?_ holds
      all_goals norm_num [Trajectory.start, warming, phase]
    · norm_num [Trajectory.start, warming, phase] at begun
  · have cools : thermostat.modes[1] ∈ thermostat.modes := List.getElem_mem _
    have off : thermostat.modes[1].guard.Holds (warming 1).located := not_heating_phase.2 rfl
    refine ⟨2, ?_, ?_, 1, le_rfl, ?_, _, cools, off, (cmp_phase cools off .ge 21 _).2 ?_⟩
    · norm_num [Window.Covers, Window.lower]
    · norm_num [Trajectory.trace, warming, phase]
    · norm_num [Trajectory.In, Trajectory.start, warming, phase]
    · norm_num [Relation.Compares, slope, Trajectory.start, warming, phase]

/-- The constraints for the formula are satisfied, so they allow for this run. -/
theorem warmer_satisfied : ∃ q us,
    Search.encode thermostat thermostat.encoder (some 3) warmer 1 = .ok q ∧
    Solver.expandAll 0 q.constraints = .ok us ∧
    ∃ ρ : Env, ρ.Sorted ∧ (∀ t ∈ q.constraints, t.Holds ρ) ∧ ∀ u ∈ us, u.Holds ρ := by
  have accepted := accepted_of_ofDefinition ofDefinition_heater
  have formed := (Formula.regular_of_ofText ofText_warmer).over
  obtain ⟨gs, bv, u, trace, encoded, hencode⟩ :=
    wellSorted_thermostat.exists_encoded accepted formed wellSorted_warmer 1
  obtain ⟨us, hus, expanded⟩ := encoded.exists_expanded (some 3)
  obtain ⟨ρ, hρ, -, holds⟩ := encoded.realized accepted wellSorted_thermostat exclusive_thermostat
    formed wellSorted_warmer warming_of_thermostat steady_warming warmer_warming
  exact ⟨_, us, hencode (some 3), hus, ρ, hρ, holds, (expanded ρ hρ).2 holds⟩

/-! ## The encoding is exact -/

/-- Whatever satisfies the constraints for a bound has a run of the automaton in it that satisfies
the formula. -/
theorem encode_sound {d : Definition} (made : ofDefinition d = .ok m) (wellSorted : m.WellSorted)
    (exclusive : m.Exclusive) {s : String} (read : Formula.ofText m.scope s = .ok g)
    (sorted : g.WellSorted) (N : Nat) (T : Option Rat) :
    ∃ q us, Search.encode m m.encoder T g N = .ok q ∧ Solver.expandAll 0 q.constraints = .ok us ∧
      ∀ ρ : Env, ρ.Sorted → (∀ u ∈ us, u.Holds ρ) →
        (Trajectory.ofEnv m ρ).Of m N T ∧ g.Holds ((Trajectory.ofEnv m ρ).trace m N) 0 := by
  have accepted := accepted_of_ofDefinition made
  have formed := (Formula.regular_of_ofText read).over
  obtain ⟨gs, bv, u, trace, encoded, hencode⟩ := wellSorted.exists_encoded accepted formed sorted N
  obtain ⟨us, hus, expanded⟩ := encoded.exists_expanded T
  refine ⟨_, us, hencode T, hus, fun ρ hρ holds => ?_⟩
  exact encoded.run accepted wellSorted exclusive formed sorted hρ ((expanded ρ hρ).1 holds)

/-- An assignment that satisfies the constraints is a run that first heats and then cools, and on
which it will be warmer. -/
theorem encode_warmer : ∃ q us ρ,
    Search.encode thermostat thermostat.encoder (some 3) warmer 1 = .ok q ∧
    Solver.expandAll 0 q.constraints = .ok us ∧ ρ.Sorted ∧ (∀ u ∈ us, u.Holds ρ) ∧
    (Trajectory.ofEnv thermostat ρ).Of thermostat 1 (some 3) ∧
    warmer.Holds ((Trajectory.ofEnv thermostat ρ).trace thermostat 1) 0 := by
  obtain ⟨q, us, hq, hus, sound⟩ := encode_sound ofDefinition_heater wellSorted_thermostat
    exclusive_thermostat ofText_warmer wellSorted_warmer 1 (some 3)
  obtain ⟨q', us', hq', hus', ρ, hρ, -, holds⟩ := warmer_satisfied
  cases hq.symm.trans hq'
  cases hus.symm.trans hus'
  exact ⟨q, us, ρ, hq, hus, hρ, holds, sound ρ hρ holds⟩

/-- Every run of the automaton that satisfies the formula and along which the propositions of the
formula are steady is the run in an assignment that satisfies the constraints for its bound. So if
nothing satisfies them, there is no such run. -/
theorem encode_complete {d : Definition} (made : ofDefinition d = .ok m)
    (wellSorted : m.WellSorted) (exclusive : m.Exclusive) {s : String}
    (read : Formula.ofText m.scope s = .ok g) (sorted : g.WellSorted) (N : Nat) (T : Option Rat) :
    ∃ q us, Search.encode m m.encoder T g N = .ok q ∧ Solver.expandAll 0 q.constraints = .ok us ∧
      (∀ r : Trajectory, r.Of m N T → r.SteadyFor m N g → g.Holds (r.trace m N) 0 →
        ∃ ρ : Env, ρ.Sorted ∧ (∀ k ≤ N, Trajectory.ofEnv m ρ k = r k) ∧
          (∀ t ∈ q.constraints, t.Holds ρ) ∧ ∀ u ∈ us, u.Holds ρ) ∧
      ((¬∃ ρ : Env, ρ.Sorted ∧ ∀ u ∈ us, u.Holds ρ) →
        ∀ r : Trajectory, r.Of m N T → r.SteadyFor m N g → ¬g.Holds (r.trace m N) 0) := by
  have accepted := accepted_of_ofDefinition made
  have formed := (Formula.regular_of_ofText read).over
  obtain ⟨gs, bv, u, trace, encoded, hencode⟩ := wellSorted.exists_encoded accepted formed sorted N
  obtain ⟨us, hus, expanded⟩ := encoded.exists_expanded T
  have realized (r : Trajectory) (run : r.Of m N T) (steady : r.SteadyFor m N g)
      (holds : g.Holds (r.trace m N) 0) :
      ∃ ρ : Env, ρ.Sorted ∧ (∀ k ≤ N, Trajectory.ofEnv m ρ k = r k) ∧
        (∀ t ∈ bounded gs u trace T, t.Holds ρ) ∧ ∀ u ∈ us, u.Holds ρ := by
    obtain ⟨ρ, hρ, same, satisfied⟩ :=
      encoded.realized accepted wellSorted exclusive formed sorted run steady holds
    exact ⟨ρ, hρ, same, satisfied, (expanded ρ hρ).2 satisfied⟩
  refine ⟨_, us, hencode T, hus, realized, fun none r run steady holds => ?_⟩
  obtain ⟨ρ, hρ, -, -, expanded⟩ := realized r run steady holds
  exact none ⟨ρ, hρ, expanded⟩

/-- The run that first heats and then cools satisfies the constraints. -/
theorem encode_warming : ∃ q us,
    Search.encode thermostat thermostat.encoder (some 3) warmer 1 = .ok q ∧
    Solver.expandAll 0 q.constraints = .ok us ∧
    ∃ ρ : Env, ρ.Sorted ∧ (∀ k ≤ 1, Trajectory.ofEnv thermostat ρ k = warming k) ∧
      (∀ t ∈ q.constraints, t.Holds ρ) ∧ ∀ u ∈ us, u.Holds ρ := by
  obtain ⟨q, us, hq, hus, realized, -⟩ := encode_complete ofDefinition_heater
    wellSorted_thermostat exclusive_thermostat ofText_warmer wellSorted_warmer 1 (some 3)
  exact ⟨q, us, hq, hus, realized warming warming_of_thermostat steady_warming warmer_warming⟩

end Automaton

end HybridCheck
