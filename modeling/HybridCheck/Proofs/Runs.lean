import HybridCheck.Proofs.Declarations
import HybridCheck.Proofs.FormulaText
import HybridCheck.Proofs.Timeline

/-!
# Runs of an automaton

A run is a sequence of steps. In each step the automaton stays in one mode for some time: the guard
of the mode holds, its flow leads from the values at entry to the values at exit, and its invariant
holds throughout. Between two steps a jump is taken. Formulas are read on the trace of a run: a
constraint at an instant is read in the state that the flow has reached by then, and a proposition
is read as its definition.

An assignment of values to the symbols of an encoding has a run in it.
-/

namespace HybridCheck

/-! ## Values of declared variables -/

/-- A table has a value of its sort for every declared variable. -/
def Table.Fills (sorts : Table TermSort) (t : Table Value) : Prop :=
  List.Forall₂ (fun x e => x.1 = e.1 ∧ Value.IsOf e.2 x.2) t sorts

namespace Table

theorem Fills.names {sorts : Table TermSort} {t : Table Value} (h : Fills sorts t) :
    t.names = sorts.names := by
  induction h with
  | nil => rfl
  | cons hxe _ ih => simp only [Table.names, List.map_cons] at ih ⊢; rw [hxe.1, ih]

theorem Fills.get? {sorts : Table TermSort} {t : Table Value} (h : Fills sorts t) {name : String}
    {s : TermSort} (hs : sorts.get? name = some s) :
    ∃ x, t.get? name = some x ∧ Value.IsOf s x := by
  induction h with
  | nil => cases hs
  | @cons x e _ _ hxe _ ih =>
    obtain ⟨hname, hvalue⟩ := hxe
    rw [Table.get?] at hs ⊢
    rw [hname]
    split at hs
    · next he =>
      cases hs
      exact ⟨x.2, by rw [if_pos he], hvalue⟩
    · next he =>
      rw [if_neg he]
      exact ih hs

theorem fills_map {sorts : Table TermSort} {f : String × TermSort → Value}
    (h : ∀ e ∈ sorts, Value.IsOf e.2 (f e)) : Fills sorts (sorts.map fun e => (e.1, f e)) := by
  rw [Fills, List.forall₂_map_left_iff, List.forall₂_same]
  exact fun e he => ⟨rfl, h e he⟩

end Table

namespace Env

variable {ρ : Env} {t : Table Value} {v : Var} {x : Value}

theorem bind_now (hr : v.role = .logical) (h : t.get? v.name = some x) (hx : Value.Fits v.sort x) :
    (ρ.bind t).now v = x := by
  simp [bind, hr, h, Value.found_some hx]

theorem bindNext_next (h : t.get? v.name = some x) (hx : Value.Fits v.sort x) :
    (ρ.bindNext t).next v = x := by
  simp [bindNext, h, Value.found_some hx]

end Env

/-! ## Steps and runs -/

/-- One step of a run: how long it takes, when it ends, the values of the mode variables during it,
and those of the state variables at its two ends. -/
structure Step where
  duration : ℝ
  stop : ℝ
  mode : Table Value
  entry : Table Value
  exit : Table Value

/-- The steps of a run, of which only finitely many are looked at. -/
abbrev Trajectory := Nat → Step

namespace Step

noncomputable def located (s : Step) : Env := Env.blank.bind s.mode

noncomputable def atEntry (s : Step) : Env := Env.blank.bind (s.mode.merge s.entry)

noncomputable def atExit (s : Step) : Env := Env.blank.bind (s.mode.merge s.exit)

/-- The environment some time into a step that is spent in a mode. -/
noncomputable def after (s : Step) (md : Mode) (c : ℝ) : Env :=
  md.flow.instant (Env.blank.bindNext s.exit) s.mode s.entry c

structure SpentIn (s : Step) (md : Mode) : Prop where
  guard : md.guard.Holds s.located
  flow : ∀ e ∈ s.exit,
    (md.flow.stateAt Env.blank s.mode s.entry s.duration).get? e.1 = some e.2
  invariant : ∀ c : ℝ, 0 ≤ c → c ≤ s.duration → md.invariant.Holds (s.after md c)

structure Leads (j : Jump) (s s' : Step) : Prop where
  guard : j.guard.Holds s.atExit
  reset : j.reset.Holds (s.atExit.bindNext (s'.mode.merge s'.entry))

/-- A step has a value of its sort for every declared variable. -/
structure Sorted (m : Automaton) (s : Step) : Prop where
  mode : m.modeVars.Fills s.mode
  entry : m.stateVars.Fills s.entry
  exit : m.stateVars.Fills s.exit

end Step

/-- No values of the mode variables satisfy the guards of two modes. -/
def Automaton.Exclusive (m : Automaton) : Prop :=
  ∀ t : Table Value, m.modeVars.Fills t → ∀ md ∈ m.modes, ∀ md' ∈ m.modes,
    md.guard.Holds (Env.blank.bind t) → md'.guard.Holds (Env.blank.bind t) → md = md'

namespace Trajectory

def start (r : Trajectory) : Nat → ℝ
  | 0 => 0
  | k + 1 => (r k).stop

/-- An instant lies in a step. All steps but the last are open on the right. -/
def In (r : Trajectory) (N k : Nat) (u : ℝ) : Prop :=
  r.start k ≤ u ∧ if k = N then u ≤ (r k).stop else u < (r k).stop

/-- The first steps of a run follow an automaton: the first begins in an initial state, each is
spent in some mode, and some jump leads from each to the next. -/
structure Follows (m : Automaton) (N : Nat) (r : Trajectory) : Prop where
  init : m.init.Holds (r 0).atEntry
  step : ∀ k ≤ N, ∃ md ∈ m.modes, 0 ≤ (r k).duration ∧ (r k).SpentIn md
  jump : ∀ k < N, ∃ j ∈ m.jumps, Step.Leads j (r k) (r (k + 1))

/-- The first steps of a run, with jumps between them, are a run of an automaton up to a bound on
time. -/
structure Of (m : Automaton) (N : Nat) (T : Option Rat) (r : Trajectory) : Prop where
  sorted : ∀ k ≤ N, (r k).Sorted m
  duration : ∀ k ≤ N, (r k).duration = (r k).stop - r.start k
  first : 0 ≤ (r 0).stop
  increasing : ∀ k < N, (r k).stop < (r (k + 1)).stop
  bounded : ∀ b ∈ T, (r N).stop ≤ b
  follows : r.Follows m N

/-- A constraint holds at an instant of a run. -/
def Shows (m : Automaton) (N : Nat) (r : Trajectory) (c : Term) (u : ℝ) : Prop :=
  ∃ k ≤ N, r.In N k u ∧ ∃ md ∈ m.modes, md.guard.Holds (r k).located ∧
    c.Holds ((r k).after md (u - r.start k))

/-- What formulas are read on. -/
def trace (m : Automaton) (N : Nat) (r : Trajectory) : Trace where
  length := (r N).stop
  prop name u := ∃ t, m.props.get? name = some t ∧ r.Shows m N t u
  atom c u := r.Shows m N c u

/-- Every proposition has one truth value during every step, its ends included. -/
def Steady (m : Automaton) (N : Nat) (r : Trajectory) (name : String) : Prop :=
  ∀ t, m.props.get? name = some t → ∀ k ≤ N, ∀ md ∈ m.modes, md.guard.Holds (r k).located →
    (∀ c : ℝ, 0 ≤ c → c ≤ (r k).duration → t.Holds ((r k).after md c)) ∨
      ∀ c : ℝ, 0 ≤ c → c ≤ (r k).duration → ¬t.Holds ((r k).after md c)

end Trajectory

/-! ## The run in an assignment -/

open HybridCheck.Symbol

noncomputable def Step.ofEnv (m : Automaton) (ρ : Env) (k : Nat) : Step where
  duration := (ρ.now (time k)).toReal
  stop := (ρ.now (tau k)).toReal
  mode := m.modeVars.map fun e => (e.1, ρ.now (discrete e.1 e.2 k))
  entry := m.stateVars.map fun e => (e.1, ρ.now (state e.1 e.2 k .entry))
  exit := m.stateVars.map fun e => (e.1, ρ.now (state e.1 e.2 k .exit))

/-- The run that an assignment of values to symbols describes. -/
noncomputable def Trajectory.ofEnv (m : Automaton) (ρ : Env) : Trajectory := Step.ofEnv m ρ

namespace Trajectory

variable {m : Automaton} {ρ : Env}

theorem sorted_ofEnv (hρ : ρ.Sorted) (k : Nat) : (ofEnv m ρ k).Sorted m :=
  ⟨Table.fills_map fun e _ => hρ.1 (discrete e.1 e.2 k),
    Table.fills_map fun e _ => hρ.1 (state e.1 e.2 k .entry),
    Table.fills_map fun e _ => hρ.1 (state e.1 e.2 k .exit)⟩

theorem stop_ofEnv (k : Nat) : (ofEnv m ρ k).stop = (Timeline.stop k).amount ρ := rfl

theorem start_ofEnv (k : Nat) : (ofEnv m ρ).start k = (Timeline.start k).amount ρ := by
  cases k with
  | zero => simp [start, Timeline.start]
  | succ k => rw [Timeline.start_succ, ← stop_ofEnv (m := m), start]

theorem in_ofEnv {N k : Nat} {u : ℝ} :
    (ofEnv m ρ).In N k u ↔ Timeline.Contains ρ N k u := by
  rw [In, Timeline.Contains, start_ofEnv, stop_ofEnv]

theorem evalTable_entry (k : Nat) :
    Term.evalTable (m.stateSubst k .entry) ρ = (ofEnv m ρ k).entry := by
  rw [Term.evalTable_eq, Table.mapValues, Automaton.stateSubst, List.map_map]
  rfl

theorem evalTable_exit (k : Nat) :
    Term.evalTable (m.stateSubst k .exit) ρ = (ofEnv m ρ k).exit := by
  rw [Term.evalTable_eq, Table.mapValues, Automaton.stateSubst, List.map_map]
  rfl

end Trajectory

namespace Automaton

variable {m : Automaton}

theorem eq_state {k : Int} {p : Phase} {name : String} {u : Term}
    (h : (m.stateSubst k p).get? name = some u) :
    ∃ s, m.stateVars.get? name = some s ∧ u = .var (state name s k p) := by
  rw [stateSubst, Table.get?_map, Option.map_eq_some_iff] at h
  obtain ⟨s, hs, rfl⟩ := h
  exact ⟨s, hs, rfl⟩

theorem get?_stateSubst {k : Int} {p : Phase} {v : Var} (h : m.IsState v) :
    (m.stateSubst k p).get? v.name = some (.var (state v.name v.sort k p)) := by
  rw [stateSubst, Table.get?_map, h]
  rfl

theorem names_stateSubst (k : Int) (p : Phase) :
    Table.names (m.stateSubst k p) = Table.names m.stateVars := by
  simp [Table.names, stateSubst, Function.comp_def]

variable (accepted : m.Accepted)
include accepted

theorem Accepted.get?_discreteSubst {k : Int} {v : Var} (h : m.IsMode v) :
    (m.discreteSubst k).get? v.name = some (.var (discrete v.name v.sort k)) := by
  have distinct : (Table.names ((m.modeVars.map fun e => (e.1, Term.var (discrete e.1 e.2 k))) ++
      (m.props.map fun e => (e.1, Term.var (discrete e.1 .bool k))))).Nodup := by
    simp only [Table.names, List.map_append, List.map_map, Function.comp_def]
    refine List.nodup_append.2 ⟨accepted.distinct_mode, accepted.distinct_props, ?_⟩
    exact fun a ha b hb => accepted.ne_prop (Or.inr ha) hb
  rw [discreteSubst, Table.get?_ofEntries distinct]
  refine Table.get?_of_mem distinct (List.mem_append.2 (Or.inl (List.mem_map.2 ?_)))
  exact ⟨(v.name, v.sort), Table.mem_of_get? h, rfl⟩

theorem Accepted.state_none {v : Var} (h : m.IsMode v) : v.name ∉ Table.names m.stateVars := by
  intro hs
  exact accepted.state_ne_mode hs (List.mem_map_of_mem (Table.mem_of_get? h)) rfl

end Automaton

end HybridCheck
