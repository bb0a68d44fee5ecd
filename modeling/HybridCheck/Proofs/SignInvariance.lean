import HybridCheck.Proofs.TraceConstraints

/-!
# Sign invariance

The constraints on the propositions of a step hold exactly if each proposition has the value of its
definition everywhere along the flow of every mode whose guard holds in the step, however long the
step is said to last and however many modes are active in it. Invariants play no part in this, so
nothing is asked of them. A name without definition is reported, the first of them in order.
-/

namespace HybridCheck

namespace Attempt

variable {α β : Type}

/-- A sequence of attempts fails as the first of them that does. -/
theorem mapM_first {f : α → Attempt β} {P : α → Prop} {e : α → Failure} {l : List α}
    (good : ∀ a ∈ l, P a → ∃ b, f a = .ok b) (bad : ∀ a ∈ l, ¬P a → f a = .error (e a))
    (h : ∃ a ∈ l, ¬P a) :
    ∃ before a after, l = before ++ a :: after ∧ (∀ b ∈ before, P b) ∧ ¬P a ∧
      l.mapM f = .error (e a) := by
  induction l with
  | nil => simp at h
  | cons x l ih =>
    by_cases hx : P x
    · have rest : ∃ a ∈ l, ¬P a := by simpa [hx] using h
      obtain ⟨before, a, after, rfl, hbefore, ha, fails⟩ :=
        ih (fun a ha => good a (by simp [ha])) (fun a ha => bad a (by simp [ha])) rest
      obtain ⟨b, hb⟩ := good x (by simp) hx
      refine ⟨x :: before, a, after, rfl, by simpa [hx] using hbefore, ha, ?_⟩
      rw [List.mapM_cons, hb, fails]
      rfl
    · refine ⟨[], x, l, rfl, by simp, hx, ?_⟩
      rw [List.mapM_cons, bad x (by simp) hx]
      rfl

end Attempt

namespace Automaton

open Term HybridCheck.Symbol

variable {m : Automaton}

/-! ## Without invariants -/

/-- An automaton that may stay in its modes whatever their invariants say. -/
def relaxed (m : Automaton) : Automaton :=
  { m with modes := m.modes.map fun md => { md with invariant := .top } }

theorem mem_relaxed {md : Mode} (h : md ∈ m.modes) :
    { md with invariant := .top } ∈ m.relaxed.modes :=
  List.mem_map.2 ⟨md, h, rfl⟩

theorem Accepted.relaxed (accepted : m.Accepted) : m.relaxed.Accepted where
  distinct := accepted.distinct
  identifier := accepted.identifier
  init := accepted.init
  props := accepted.props
  modes _ h := by
    obtain ⟨md, hmd, rfl⟩ := List.mem_map.1 h
    have checked := accepted.modes md hmd
    exact ⟨checked.guard, rfl, checked.flow⟩
  jumps := accepted.jumps

theorem WellSorted.relaxed (wellSorted : m.WellSorted) : m.relaxed.WellSorted where
  init := wellSorted.init
  props := wellSorted.props
  guard _ h := by
    obtain ⟨md, hmd, rfl⟩ := List.mem_map.1 h
    exact wellSorted.guard md hmd
  flow _ h := by
    obtain ⟨md, hmd, rfl⟩ := List.mem_map.1 h
    exact wellSorted.flow md hmd
  invariant _ h := by
    obtain ⟨md, hmd, rfl⟩ := List.mem_map.1 h
    exact ⟨rfl, rfl, nofun, by simp [subterms, nodes, top]⟩
  jumps := wellSorted.jumps

theorem Lasts.relaxed {length : Term} (lasts : m.Lasts length) : m.relaxed.Lasts length := by
  refine ⟨lasts.amount, fun _ h => ?_⟩
  obtain ⟨md, hmd, rfl⟩ := List.mem_map.1 h
  exact lasts.unclocked md hmd

theorem propConstraint_relaxed (length : Term) (k : Int) (props : List String) :
    m.relaxed.propConstraint length k props = m.propConstraint length k props := by
  have modes (name : String) (t : Term) :
      m.relaxed.modes.mapM (m.relaxed.agreesIn length k name t) =
        m.modes.mapM (m.agreesIn length k name t) := by
    rw [Automaton.relaxed, List.mapM_map]
    rfl
  simp only [propConstraint, modes]
  rfl

/-! ## The constraints are exact -/

/-- The constraints on one proposition, mode by mode. -/
def constrain (m : Automaton) (time : Term) (k : Int) (name : String) :
    Attempt (List (List Term)) :=
  match m.props.get? name with
  | none => throw (.unknownProposition name)
  | some t => m.modes.mapM (m.agreesIn time k name t)

theorem propConstraint_eq (time : Term) (k : Int) (props : List String) :
    m.propConstraint time k props =
      (do
        let us ← (props.mergeSort fun a b => a ≤ b).mapM (m.constrain time k)
        return us.flatten.flatten) :=
  rfl

/-- The least of the undeclared names is reported. -/
theorem WellSorted.propConstraint_unknown (accepted : m.Accepted) (wellSorted : m.WellSorted)
    {length : Term} (lasts : m.Lasts length) {k : Nat} {props : List String}
    (undeclared : ∃ name ∈ props, name ∉ Table.names m.props) :
    ∃ name ∈ props, name ∉ Table.names m.props ∧
      (∀ other ∈ props, other ∉ Table.names m.props → name ≤ other) ∧
      m.propConstraint length k props = .error (.unknownProposition name) := by
  have good name (h : name ∈ Table.names m.props) : ∃ ts, m.constrain length k name = .ok ts := by
    obtain ⟨t, ht⟩ := Option.ne_none_iff_exists'.1 (mt Table.get?_eq_none.1 (not_not.2 h))
    obtain ⟨ts, hts, -⟩ := Attempt.exists_mapM fun md hmd =>
      wellSorted.agreesIn_spec accepted lasts (k := k) hmd ht
    exact ⟨ts, by rw [constrain, ht]; exact hts⟩
  have bad name (h : name ∉ Table.names m.props) :
      m.constrain length k name = .error (.unknownProposition name) := by
    rw [constrain, Table.get?_eq_none.2 h]
    rfl
  obtain ⟨before, name, after, split, declared, unknown, fails⟩ :=
    Attempt.mapM_first (l := props.mergeSort fun a b => a ≤ b) (fun name _ => good name)
      (fun name _ => bad name) (by simpa using undeclared)
  have sorted : (before ++ name :: after).Pairwise fun a b => decide (a ≤ b) = true := by
    rw [← split]
    refine List.pairwise_mergeSort (fun a b c hab hbc => ?_) (fun a b => ?_) props
    · simp only [decide_eq_true_eq] at hab hbc ⊢
      exact hab.trans hbc
    · simpa using le_total a b
  have mem (other : String) : other ∈ props ↔ other ∈ before ++ name :: after := by
    rw [← split, List.mem_mergeSort]
  refine ⟨name, (mem name).2 (by simp), unknown, fun other hother hunknown => ?_, ?_⟩
  · rcases List.mem_append.1 ((mem other).1 hother) with h | h
    · exact (hunknown (declared other h)).elim
    · rcases List.mem_cons.1 h with rfl | h
      · exact le_rfl
      · exact of_decide_eq_true (List.rel_of_pairwise_cons (List.pairwise_append.1 sorted).2.1 h)
  · rw [propConstraint_eq, fails]
    rfl

/-- The constraints on the propositions of a step say of an assignment that each symbol has the
truth value of the definition at every instant of the flow of every active mode. If a name is not
declared, the least such name is reported. -/
theorem propConstraint_exact {d : Definition} (made : ofDefinition d = .ok m)
    (wellSorted : m.relaxed.WellSorted) (k : Nat) {length : Term} (lasts : m.Lasts length)
    (props : List String) :
    ((∀ name ∈ props, name ∈ Table.names m.props) →
      ∃ ts us, m.propConstraint length k props = .ok ts ∧ Solver.expandAll 0 ts = .ok us ∧
        ∀ ρ : Env, ρ.Sorted → ((∀ u ∈ us, u.Holds ρ) ↔
          ∀ name ∈ props, ∀ t, m.props.get? name = some t → ∀ md ∈ m.modes,
            md.guard.Holds (Trajectory.ofEnv m ρ k).located →
            ∀ c : ℝ, 0 ≤ c → c ≤ length.amount ρ →
              ((ρ.now (discrete name .bool k)).Holds ↔
                t.Holds ((Trajectory.ofEnv m ρ k).after md c)))) ∧
    ((∃ name ∈ props, name ∉ Table.names m.props) →
      ∃ name ∈ props, name ∉ Table.names m.props ∧
        (∀ other ∈ props, other ∉ Table.names m.props → name ≤ other) ∧
        m.propConstraint length k props = .error (.unknownProposition name)) := by
  have accepted := accepted_of_ofDefinition made
  constructor
  · intro declared
    have known name (h : name ∈ props) : ∃ t, m.relaxed.props.get? name = some t :=
      Option.ne_none_iff_exists'.1 (mt Table.get?_eq_none.1 (not_not.2 (declared name h)))
    obtain ⟨ts, hts, spec⟩ :=
      wellSorted.propConstraint_spec accepted.relaxed lasts.relaxed (k := k) known
    obtain ⟨us, hus, expanded⟩ := Solver.expandAll_ready spec.ready 0
    rw [propConstraint_relaxed] at hts
    refine ⟨ts, us, hts, hus, fun ρ hρ => ?_⟩
    rw [expanded ρ hρ.typed, spec.holds ρ hρ]
    refine forall₄_congr fun name _ t _ => ?_
    constructor
    · intro keeps md hmd active c h0 hc
      exact (keeps _ (mem_relaxed hmd) active c h0 hc).symm
    · intro agrees _ h active c h0 hc
      obtain ⟨md, hmd, rfl⟩ := List.mem_map.1 h
      exact (agrees md hmd active c h0 hc).symm
  · intro undeclared
    obtain ⟨name, hname, unknown, least, fails⟩ :=
      wellSorted.propConstraint_unknown accepted.relaxed lasts.relaxed (k := k) undeclared
    exact ⟨name, hname, unknown, least, by rwa [propConstraint_relaxed] at fails⟩

/-- A quantity that is zero in one mode and five in another one, in which nothing can stay. Both
modes are always active. -/
def forking : Definition where
  stateVars := [("x", .real)]
  props := [("high", .cmp .gt (.var ⟨"x", .real, .logical⟩) (.num .real 3))]
  modes := [{ id := 0, flow := ⟨⟨"t", .real, .bound⟩, [], [("x", .num .real 0)]⟩ },
    { id := 1, flow := ⟨⟨"t", .real, .bound⟩, [], [("x", .num .real 5)]⟩, invariant := some .bot }]

def resting : Mode :=
  ⟨0, "mode0", .bool true, ⟨⟨"t", .real, .bound⟩, [], [("x", .num .real 0)]⟩, .bool true⟩

/-- The mode in which nothing can stay. -/
def barred : Mode :=
  ⟨1, "mode1", .bool true, ⟨⟨"t", .real, .bound⟩, [], [("x", .num .real 5)]⟩, .bool false⟩

/-- The checked automaton with two modes that are active at once. -/
def fork : Automaton where
  stateVars := forking.stateVars
  modeVars := []
  props := forking.props
  init := .bool true
  modes := [resting, barred]
  jumps := []
  logic := ""

theorem ofDefinition_forking : ofDefinition forking = .ok fork := by cbv

theorem wellSorted_fork : fork.WellSorted := by decide

/-- A proposition of the automaton is asked to have its value in both modes. -/
theorem propConstraint_fork : ∃ ts us,
    fork.propConstraint (.var (time 2)) (2 : Nat) ["high"] = .ok ts ∧
      Solver.expandAll 0 ts = .ok us ∧ ∀ ρ : Env, ρ.Sorted → ((∀ u ∈ us, u.Holds ρ) ↔
        ∀ name ∈ ["high"], ∀ t, fork.props.get? name = some t → ∀ md ∈ fork.modes,
          md.guard.Holds (Trajectory.ofEnv fork ρ 2).located →
          ∀ c : ℝ, 0 ≤ c → c ≤ (ρ.now (time 2)).toReal →
            ((ρ.now (discrete name .bool 2)).Holds ↔
              t.Holds ((Trajectory.ofEnv fork ρ 2).after md c))) :=
  (propConstraint_exact ofDefinition_forking wellSorted_fork.relaxed 2
    ((accepted_of_ofDefinition ofDefinition_forking).lasts 2) ["high"]).1 (by decide)

end Automaton

end HybridCheck
