import HybridCheck.Proofs.Cells
import HybridCheck.Proofs.Skolemization
import HybridCheck.Proofs.TraceConstraints

/-!
# Formulas on the run in an assignment

An assignment that satisfies the constraints of a trace has a run in it, and formulas can be read in
two ways: on the table of their atoms, or on the run itself. Both readings agree on every
proposition and constraint of a formula, so they agree on the formula. If the guards of modes
exclude each other, a step is spent in one mode only, and a constraint holds at an instant exactly
if its negation does not.
-/

namespace HybridCheck

open Term HybridCheck.Symbol

/-! ## What holds at an instant -/

namespace Trajectory

variable {m : Automaton} {ρ : Env} {N k : Nat} {c : Term} {u : ℝ} {r r' : Trajectory}

/-- The trace of a run is a matter of its first steps. -/
theorem trace_congr (same : ∀ k ≤ N, r k = r' k) : r.trace m N = r'.trace m N := by
  have shows (c : Term) (u : ℝ) : r.Shows m N c u ↔ r'.Shows m N c u := by
    refine exists_congr fun k => and_congr_right fun hk => ?_
    rw [In, In, start_congr same hk, same k hk]
  simp only [trace, same N le_rfl, shows]

/-- A constraint holds at an instant if it does in the step that contains it. -/
theorem shows_iff (elapses : (ofEnv m ρ).Elapses N) (hk : k ≤ N)
    (hu : Timeline.Contains ρ N k u) : (ofEnv m ρ).Shows m N c u ↔
      ∃ md ∈ m.modes, md.guard.Holds (ofEnv m ρ k).located ∧
        c.Holds ((ofEnv m ρ k).after md (u - (Timeline.start k).amount ρ)) := by
  constructor
  · rintro ⟨j, hj, hin, holds⟩
    obtain rfl := elapses.timeline.contains_unique hj hk (in_ofEnv.1 hin) hu
    rwa [start_ofEnv] at holds
  · intro holds
    refine ⟨k, hk, in_ofEnv.2 hu, ?_⟩
    rwa [start_ofEnv]

/-- The time since the step of an instant began is no longer than the step. -/
theorem Elapses.inside (elapses : (ofEnv m ρ).Elapses N) (hk : k ≤ N)
    (hu : Timeline.Contains ρ N k u) : 0 ≤ u - (Timeline.start k).amount ρ ∧
      u - (Timeline.start k).amount ρ ≤ (ofEnv m ρ k).duration := by
  have below : u ≤ (Timeline.stop k).amount ρ := by
    have := hu.2
    split at this
    · exact this
    · exact this.le
  have duration := elapses.duration k hk
  rw [start_ofEnv, stop_ofEnv] at duration
  have := hu.1
  constructor <;> linarith

end Trajectory

namespace Env.Traces

variable {m : Automaton} {ρ : Env} {N k : Nat} {props : List String} {c : Term} {u : ℝ}

/-- A constant holds at every instant of a run, or at none. -/
theorem shows_bool (h : ρ.Traces m N props) {u : ℝ} (h0 : 0 ≤ u)
    (hu : u ≤ (Timeline.stop N).amount ρ) (b : Bool) :
    (Trajectory.ofEnv m ρ).Shows m N (.bool b) u ↔ b = true := by
  obtain ⟨k, hk, contains⟩ := Timeline.exists_contains h0 hu
  obtain ⟨md, hmd, -, spent⟩ := h.follows.step k hk
  rw [Trajectory.shows_iff h.elapses hk contains]
  exact ⟨fun ⟨_, _, _, hb⟩ => hb, fun hb => ⟨md, hmd, spent.guard, hb⟩⟩

/-- The symbol of a proposition says whether its definition holds at an instant of the step. -/
theorem shows_definition (h : ρ.Traces m N props) {name : String} (hname : name ∈ props) {t : Term}
    (ht : m.props.get? name = some t) (hk : k ≤ N) (hu : Timeline.Contains ρ N k u) :
    (Trajectory.ofEnv m ρ).Shows m N t u ↔ (ρ.now (discrete name .bool k)).Holds := by
  obtain ⟨h0, hd⟩ := h.elapses.inside hk hu
  have keeps md (hmd : md ∈ m.modes) (active : md.guard.Holds (Trajectory.ofEnv m ρ k).located) :=
    h.keeps k hk name hname t ht md hmd active _ h0 hd
  rw [Trajectory.shows_iff h.elapses hk hu]
  constructor
  · rintro ⟨md, hmd, active, holds⟩
    exact (keeps md hmd active).1 holds
  · intro holds
    obtain ⟨md, hmd, -, spent⟩ := h.follows.step k hk
    exact ⟨md, hmd, spent.guard, (keeps md hmd spent.guard).2 holds⟩

/-- If guards exclude each other, a negated constraint holds where the constraint does not. -/
theorem shows_mkNot (h : ρ.Traces m N props) (hρ : ρ.Sorted) (exclusive : m.Exclusive)
    (h0 : 0 ≤ u) (hu : u ≤ (Timeline.stop N).amount ρ) :
    (Trajectory.ofEnv m ρ).Shows m N c.mkNot u ↔ ¬(Trajectory.ofEnv m ρ).Shows m N c u := by
  obtain ⟨k, hk, contains⟩ := Timeline.exists_contains h0 hu
  obtain ⟨md, hmd, -, spent⟩ := h.follows.step k hk
  have only {md' : Mode} (hmd' : md' ∈ m.modes)
      (active : md'.guard.Holds (Trajectory.ofEnv m ρ k).located) : md' = md :=
    exclusive _ (Trajectory.sorted_ofEnv hρ k).mode md' hmd' md hmd active spent.guard
  have shows (t : Term) : (Trajectory.ofEnv m ρ).Shows m N t u ↔
      t.Holds ((Trajectory.ofEnv m ρ k).after md (u - (Timeline.start k).amount ρ)) := by
    rw [Trajectory.shows_iff h.elapses hk contains]
    constructor
    · rintro ⟨md', hmd', active, holds⟩
      rwa [only hmd' active] at holds
    · exact fun holds => ⟨md, hmd, spent.guard, holds⟩
  rw [shows, shows, holds_mkNot]

end Env.Traces

/-! ## The table of atoms -/

def Formula.WellSorted (f : Formula) : Prop :=
  f.Every (fun g => ∀ c, g = atom c → c.Constraint noFlow) fun _ => True

namespace Automaton

/-- A part of a formula over the identifiers of an automaton, well-sorted if it is a constraint. -/
structure IsPart (m : Automaton) (g : Formula) : Prop where
  formed : g.Over m.scope.Declares m.scope.Proposes
  sorted : ∀ c, g = .atom c → c.Constraint noFlow

/-- An atom holds some time into a step of the run in an assignment, a proposition being read off
its symbol. -/
def HoldsAt (m : Automaton) (ρ : Env) (k : Nat) (d : ℝ) : Atomic → Prop
  | .prop name => (ρ.now (discrete name .bool k)).Holds
  | .constraint c => ∃ md ∈ m.modes, md.guard.Holds (Trajectory.ofEnv m ρ k).located ∧
      c.Holds ((Trajectory.ofEnv m ρ k).after md d)

variable {m : Automaton} {N k : Nat} {ρ : Env}

section

variable (accepted : m.Accepted) (wellSorted : m.WellSorted)
include accepted wellSorted

/-- Every part of a formula has a cell in every step. -/
theorem WellSorted.cell_spec {a : Atomic} (ha : m.IsPart a.formula) (k : Nat) :
    ∃ c, BaseValuation.cell m.signal a k = .ok c ∧ Reading c ∧ ∀ ρ : Env, ρ.Sorted → ∀ d : ℝ,
      (c.Holds (ρ.set offset (.number d)) ↔ m.HoldsAt ρ k d a) := by
  cases a with
  | prop name =>
    obtain ⟨t, ht⟩ := definition_of_scope ha.formed
    obtain ⟨hcell, reading⟩ := propositionAt_spec ht k
    refine ⟨_, hcell, reading, fun ρ _ d => ?_⟩
    rw [HoldsAt, Term.Holds, eval, Env.set_now_of_ne _ _ fun h => by cases congrArg Var.role h]
  | constraint c =>
    have builtOver : c.BuiltOver m.scope.Declares := ha.formed
    have hc := ha.sorted c rfl
    have inScope : c.Scoped m.Declares fun _ => False :=
      ⟨hc.sorted, builtOver.quantFree,
        fun v hv => accepted.declares_of_scope (builtOver.of_mentions hv),
        fun v hv => builtOver.of_next hv⟩
    obtain ⟨u, hu, reading, holds⟩ :=
      wellSorted.constraintAt_spec accepted inScope hc.sort (k := k)
    refine ⟨u, hu, reading, fun ρ hρ d => ?_⟩
    have sorted : (ρ.set offset (.number d)).Sorted := hρ.set ⟨d, rfl⟩
    rw [holds _ sorted, Trajectory.ofEnv_offset, Env.set_now_self]
    rfl

end

/-- The atoms of formulas over an automaton were tabulated. -/
structure Tabulates (m : Automaton) (N : Nat) (p : Partition) (bv : BaseValuation) : Prop where
  entries : ∀ e ∈ p, IsEntry m.IsPart e
  made : BaseValuation.tabulate p ⟨N⟩ m.signal = .ok bv

/-- An atom with everything made uniform that is not written in its text. -/
def canonical : Atomic → Atomic
  | .prop name => .prop name
  | .constraint c => .constraint c.canonical

/-- No text is that of two atoms, up to what is not written. -/
theorem canonical_of_text (accepted : m.Accepted) {a a' : Atomic} (ha : m.IsPart a.formula)
    (ha' : m.IsPart a'.formula) (h : a.formula.text = a'.formula.text) :
    canonical a = canonical a' := by
  have hfolded := Formula.folded_of_text accepted.vocabulary ha.formed ha'.formed h
  cases a with
  | prop name =>
    cases a' with
    | prop name' => exact congrArg Atomic.prop (Formula.prop.inj hfolded)
    | constraint c => exact absurd hfolded Formula.prop_ne_settled
  | constraint c =>
    cases a' with
    | prop name => exact absurd hfolded.symm Formula.prop_ne_settled
    | constraint c' => exact congrArg Atomic.constraint (Formula.settled_inj hfolded)

/-- Atoms of one text hold at the same instants. -/
theorem holdsAt_of_text (accepted : m.Accepted) {a a' : Atomic} (ha : m.IsPart a.formula)
    (ha' : m.IsPart a'.formula) (h : a.formula.text = a'.formula.text) (d : ℝ) :
    m.HoldsAt ρ k d a ↔ m.HoldsAt ρ k d a' := by
  have uniform {a : Atomic} (ha : m.IsPart a.formula) :
      m.HoldsAt ρ k d a ↔ m.HoldsAt ρ k d (canonical a) := by
    cases a with
    | prop name => rfl
    | constraint c =>
      have flowFree : c.flowFree = true := (Term.BuiltOver.names ha.formed).flowFree
      simp only [HoldsAt, canonical, Term.Holds, Term.eval_canonical flowFree]
  rw [uniform ha, uniform ha', canonical_of_text accepted ha ha' h]

section

variable {p : Partition} {bv : BaseValuation} (accepted : m.Accepted) (wellSorted : m.WellSorted)
  (h : m.Tabulates N p bv)
include accepted h

/-- A proposition that has a row in the table of atoms is one of the partition. -/
theorem Tabulates.mem_propositions {name : String} (part : m.IsPart (.prop name))
    (listed : (bv.rows.get? name).isSome = true) : name ∈ p.propositions := by
  obtain ⟨row, hrow⟩ := Option.isSome_iff_exists.1 listed
  obtain ⟨a, ha, -⟩ := (BaseValuation.rows_of_tabulate h.made).2 _ row hrow
  have entry := h.entries _ ha
  have same : .prop name = canonical a :=
    canonical_of_text accepted (a := .prop name) part entry.part entry.key
  cases a with
  | prop name' =>
    cases same
    exact Partition.mem_propositions.2 ⟨_, ha⟩
  | constraint c => cases same

include wellSorted

/-- The table of atoms and the run in an assignment agree on every atom that was tabulated. -/
theorem Tabulates.holds_iff (hρ : ρ.Sorted) (traces : ρ.Traces m N p.propositions) {a : Atomic}
    (ha : m.IsPart a.formula) (listed : (bv.rows.get? a.formula.text).isSome = true) {u : ℝ}
    (h0 : 0 ≤ u) (hu : u ≤ (Timeline.stop N).amount ρ) :
    bv.Shows N ρ a.formula.text u ↔ a.formula.Holds ((Trajectory.ofEnv m ρ).trace m N) u := by
  obtain ⟨row, hrow⟩ := Option.isSome_iff_exists.1 listed
  obtain ⟨a', ha', made⟩ := (BaseValuation.rows_of_tabulate h.made).2 _ row hrow
  have entry := h.entries _ ha'
  obtain ⟨k, hk, contains⟩ := Timeline.exists_contains h0 hu
  obtain ⟨c, hc, hcell⟩ := BaseValuation.cell_of_row made hk
  obtain ⟨c', hcell', -, holds⟩ := wellSorted.cell_spec accepted entry.part k
  cases hcell.symm.trans hcell'
  have hlen : row.length = N + 1 :=
    (Attempt.mapM_eq_ok.1 (BaseValuation.row_eq_ok.1 made)).length_eq ▸ BaseValuation.length_steps N
  rw [BaseValuation.shows_iff traces.elapses.timeline hrow hlen hc contains, holds ρ hρ,
    ← holdsAt_of_text accepted ha entry.part entry.key]
  cases a with
  | prop name =>
    obtain ⟨t, ht⟩ := definition_of_scope ha.formed
    have shows := traces.shows_definition (h.mem_propositions accepted ha listed) ht hk contains
    simp only [Atomic.formula, Formula.Holds, Trajectory.trace, HoldsAt, ht, Option.some.injEq,
      exists_eq_left', shows]
  | constraint c => exact (Trajectory.shows_iff traces.elapses hk contains).symm

variable {f : Formula} (hρ : ρ.Sorted) (traces : ρ.Traces m N p.propositions)
  (parts : f.Every m.IsPart fun w => 0 ≤ w.lower)
  (listed : f.Every (Formula.Tabulated bv fun _ => False) fun w => 0 ≤ w.lower)
include hρ traces parts listed

/-- The table of atoms and the run in an assignment agree on every part of a formula. -/
theorem Tabulates.agrees : f.Every
    (Formula.Agrees (bv.trace N ρ) ((Trajectory.ofEnv m ρ).trace m N)) fun w => 0 ≤ w.lower := by
  refine (parts.and listed).mono (fun g hg => ?_) fun _ h => h.1
  cases g with
  | prop name =>
    exact fun u h0 hu =>
      h.holds_iff accepted wellSorted hρ traces (a := .prop name) hg.1 hg.2 h0 hu
  | atom c =>
    exact fun u h0 hu =>
      h.holds_iff accepted wellSorted hρ traces (a := .constraint c) hg.1 hg.2 h0 hu
  | witness => exact hg.2.elim
  | _ => trivial

/-- The constraints of a formula hold in the table of atoms as their texts tell. -/
theorem Tabulates.keeps : f.Every (Formula.Keeps (bv.trace N ρ)) fun _ => True := by
  refine ((h.agrees accepted wellSorted hρ traces parts listed).and parts).mono
    (fun g hg c hc u h0 hu => ?_) fun _ _ => trivial
  subst hc
  have builtOver : c.BuiltOver m.scope.Declares := hg.2.formed
  rw [Formula.folded]
  by_cases constant : ∃ b, c.canonical = .bool b
  · obtain ⟨b, hb⟩ := constant
    have shows : (Trajectory.ofEnv m ρ).Shows m N c u ↔
        (Trajectory.ofEnv m ρ).Shows m N (.bool b) u := by
      simp only [Trajectory.Shows, Term.Holds, ← hb, Term.eval_canonical builtOver.names.flowFree]
    rw [hb]
    exact (hg.1 u h0 hu).trans (shows.trans (traces.shows_bool h0 hu b))
  · rw [Formula.settled_atom (not_exists.1 constant)]
    have text : (bv.trace N ρ).atom c.canonical = (bv.trace N ρ).atom c := by
      simp only [BaseValuation.trace, Term.text_canonical]
    rw [Formula.Holds, Formula.Holds, text]

end

/-- A formula holds on the run in an assignment where its normal form does. -/
theorem holds_nnf (exclusive : m.Exclusive) {props : List String} (hρ : ρ.Sorted)
    (traces : ρ.Traces m N props) {g : Formula}
    (formed : g.Over m.scope.Declares m.scope.Proposes) {u : ℝ} (h0 : 0 ≤ u)
    (hu : u ≤ (Timeline.stop N).amount ρ) :
    g.nnf.Holds ((Trajectory.ofEnv m ρ).trace m N) u ↔
      g.Holds ((Trajectory.ofEnv m ρ).trace m N) u := by
  have windows : g.Every (fun _ => True) fun w => 0 ≤ w.lower :=
    formed.every (fun _ => trivial) (fun _ _ => trivial) fun _ _ => trivial
  have negates : g.Every (Formula.Negates ((Trajectory.ofEnv m ρ).trace m N))
      fun w => 0 ≤ w.lower := by
    refine windows.mono (fun f _ => ?_) fun _ h => h
    cases f with
    | atom c => exact fun u h0 hu => traces.shows_mkNot hρ exclusive h0 hu
    | _ => trivial
  exact (Formula.holds_normal negates h0 hu).1

end Automaton

end HybridCheck
