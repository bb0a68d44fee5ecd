import HybridCheck.Proofs.Reachability
import HybridCheck.Proofs.Valuation

/-!
# An automaton as a signal

In every step the signal of an automaton has a cell for each constraint on declared variables: some
mode is active, and the constraint holds in the state that its flow has reached in the time since
the step began. The cell of a proposition is its symbol. A cell reads the symbols of its step and
the time since the step began, but no instant that a formula quantifies over or guesses.
-/

namespace HybridCheck

open Term HybridCheck.Symbol

/-- A variable that a cell may read. -/
def IsCellVar (v : Var) : Prop := v = offset ∨ v.role ≠ .bound ∧ v.role ≠ .timestamp

/-- A constraint that is built from what a cell may read. -/
structure Reading (c : Term) : Prop where
  constraint : c.Constraint noFlow
  built : Over IsCellVar (fun _ => True) (fun _ => False) c

theorem Reading.isCell {c : Term} (h : Reading c) : IsCell c := by
  refine ⟨h.constraint, h.built.quantFree, fun n => ?_⟩
  rw [← Bool.not_eq_true]
  intro hn
  rcases h.built.of_mentions hn with hv | ⟨hrole, -⟩
  · exact offset_ne_instant n hv.symm
  · exact hrole rfl

theorem Reading.not_witness {c : Term} (h : Reading c) (n : Int) :
    c.mentions (witness n) = false := by
  rw [← Bool.not_eq_true]
  intro hn
  rcases h.built.of_mentions hn with hv | ⟨-, hrole⟩
  · cases congrArg Var.role hv
  · exact hrole rfl

theorem Trajectory.ofEnv_congr {m : Automaton} {ρ ρ' : Env}
    (htime : ∀ k, ρ'.now (time k) = ρ.now (time k)) (htau : ∀ k, ρ'.now (tau k) = ρ.now (tau k))
    (hsymbol : ∀ v, v.role = .proposition ∨ v.role = .continuous → ρ'.now v = ρ.now v) :
    ofEnv m ρ' = ofEnv m ρ := by
  funext k
  simp only [ofEnv, Step.ofEnv, htime, htau]
  congr 1
  · exact List.map_congr_left fun e _ => by rw [hsymbol _ (Or.inl rfl)]
  · exact List.map_congr_left fun e _ => by rw [hsymbol _ (Or.inr rfl)]
  · exact List.map_congr_left fun e _ => by rw [hsymbol _ (Or.inr rfl)]

/-- A run does not depend on the time since a step began. -/
theorem Trajectory.ofEnv_offset (m : Automaton) (ρ : Env) (x : Value) :
    ofEnv m (ρ.set offset x) = ofEnv m ρ := by
  have other {v : Var} (hv : v.role ≠ .bound) : (ρ.set offset x).now v = ρ.now v := by
    refine Env.set_now_of_ne ρ x ?_
    rintro rfl
    exact hv rfl
  exact ofEnv_congr (fun k => other nofun) (fun k => other nofun) fun v hv => other (by grind)

namespace Automaton

variable {m : Automaton} {k : Nat} {c : Term}

/-- A constraint on declared variables is a goal. -/
theorem isGoal_of_scoped (hc : c.Scoped m.Declares fun _ => False) (hbool : c.sort = .bool) :
    m.IsGoal c where
  constraint := hc.constraint hbool
  now := hc.now
  next := hc.next
  bound q v body h := by
    have := List.all_eq_true.1 hc.quantFree _ h
    cases this

theorem symbol_of_mem {e : String × Term}
    (he : e ∈ m.stateSubst k .entry ++ m.discreteSubst k) :
    ∃ v, e.2 = var v ∧ v.role ≠ .bound ∧ v.role ≠ .timestamp := by
  rcases List.mem_append.1 he with he | he
  · obtain ⟨x, -, rfl⟩ := List.mem_map.1 he
    exact ⟨_, rfl, nofun, nofun⟩
  · rcases Table.mem_of_mem_putAll he with he | he
    · simp only [List.mem_append, List.mem_map] at he
      obtain ⟨x, -, rfl⟩ | ⟨x, -, rfl⟩ := he
      · exact ⟨_, rfl, nofun, nofun⟩
      · exact ⟨_, rfl, nofun, nofun⟩
    · cases he

section

variable (accepted : m.Accepted) (wellSorted : m.WellSorted)
  (hc : c.Scoped m.Declares fun _ => False) (hbool : c.sort = .bool)
include accepted wellSorted hc hbool

/-- The value of a constraint some time into a step, as far as one mode is concerned. -/
theorem WellSorted.active_spec {md : Mode} (hmd : md ∈ m.modes) :
    ∃ state guard u, md.flow.after (m.stateSubst k .entry) (m.discreteSubst k) (var offset) =
        .ok state ∧ md.guard.substitute (m.discreteSubst k) = .ok guard ∧
      c.substitute ((m.discreteSubst k).merge state) = .ok u ∧ Reading (mkAnd [guard, u]) ∧
      ∀ ρ : Env, ρ.Sorted → ((mkAnd [guard, u]).Holds ρ ↔
        md.guard.Holds (Trajectory.ofEnv m ρ k).located ∧
          c.Holds ((Trajectory.ofEnv m ρ k).after md (ρ.now offset).toReal)) := by
  have lasts := accepted.lasts k
  have proper := wellSorted.proper accepted (k := k) lasts hmd
  have inScope : c.Scoped (fun v => m.Declares v ∨ v = md.flow.clock) fun _ => False :=
    { hc with now := fun v hv => Or.inl (hc.now v hv) }
  have unclocked : c.mentions md.flow.clock = false := by
    rw [← Bool.not_eq_true]
    exact fun hv => accepted.clock_ne hmd (hc.now _ hv) rfl
  have hereditary : Hereditary (Over IsCellVar (fun _ => True) fun _ => False) :=
    hereditary_over fun _ _ _ h => h.elim
  have start (e) (he : e ∈ m.stateSubst k .entry ++ m.discreteSubst k) :
      Over IsCellVar (fun _ => True) (fun _ => False) e.2 := by
    obtain ⟨v, hv, hrole⟩ := symbol_of_mem he
    rw [hv]
    exact .var (Or.inr hrole)
  obtain ⟨state, u, hstate, hu, built, becomes⟩ := proper.read_after lasts.flowFree_parts (a := c)
    (amount_var (v := offset) rfl) hc.sorted (accepted.reads inScope fun _ h => h.elim) hereditary
    start (.var (Or.inl rfl)) (fun h => by cases unclocked.symm.trans h) fun v _ => .next trivial
  obtain ⟨guard, hguard, cguard, gbuilt, gholds⟩ :=
    wellSorted.substitute_guard accepted (k := k) hmd
  have constraint := becomes.constraint hbool
  have both : ∀ a ∈ [guard, u], a.Constraint noFlow := by simpa using ⟨cguard, constraint⟩
  have folds := folds_mkAnd (fun a ha => (both a ha).sorted) fun a ha => (both a ha).sort
  refine ⟨state, guard, u, hstate, hguard, hu, ⟨constraint_mkAnd both, ?_⟩, fun ρ hρ => ?_⟩
  · have guarded : Over IsCellVar (fun _ => True) (fun _ => False) guard := by
      refine gbuilt.mono (fun v hv => Or.inr ?_) (fun _ _ => trivial) fun _ h => h
      rw [hv]
      decide
    exact folds.keeps _ hereditary (by simpa using ⟨guarded, built⟩)
  · have sorted := Trajectory.sorted_ofEnv (m := m) hρ k
    have value : u.eval ρ = c.eval ((Trajectory.ofEnv m ρ k).after md (ρ.now offset).toReal) := by
      rw [becomes.eval ρ hρ.typed, ← eval_set (flowFree_of_plain hc.sorted) unclocked]
      simp only [segment, Trajectory.evalTable_entry]
      exact wellSorted.eval_instant accepted hmd inScope (accepted.sameMode ρ k) sorted.mode
        sorted.entry.suits hρ.typed (fun _ h => h.elim) _
    rw [holds_mkAnd]
    simp [gholds ρ hρ, Term.Holds, value]

/-- The cell of a constraint says that it holds in the state that some active mode has reached. -/
theorem WellSorted.constraintAt_spec : ∃ u, m.constraintAt c k (var offset) = .ok u ∧ Reading u ∧
    ∀ ρ : Env, ρ.Sorted → (u.Holds ρ ↔ ∃ md ∈ m.modes,
      md.guard.Holds (Trajectory.ofEnv m ρ k).located ∧
        c.Holds ((Trajectory.ofEnv m ρ k).after md (ρ.now offset).toReal)) := by
  obtain ⟨us, hus, all⟩ := Attempt.exists_mapM
    (f := fun md : Mode => do
      let state ← Attempt.within (.inMode md.name)
        (md.flow.after (m.stateSubst k .entry) (m.discreteSubst k) (var offset))
      return mkAnd [← md.guard.substitute (m.discreteSubst k),
        ← c.substitute ((m.discreteSubst k).merge state)])
    (P := fun md u => Reading u ∧ u.Says fun ρ => md.guard.Holds (Trajectory.ofEnv m ρ k).located ∧
      c.Holds ((Trajectory.ofEnv m ρ k).after md (ρ.now offset).toReal)) fun md hmd => by
      obtain ⟨state, guard, u, hstate, hguard, hu, reading, holds⟩ :=
        wellSorted.active_spec accepted hc hbool (k := k) hmd
      exact ⟨_, by rw [hstate, Attempt.within_ok]; simp [hguard, hu], reading,
        reading.constraint.ready, holds⟩
  have reading : ∀ u ∈ us, Reading u := ((List.forall₂_and_left ..).1 all.flip).1
  have folds := folds_mkOr (fun u hu => (reading u hu).constraint.sorted)
    fun u hu => (reading u hu).constraint.sort
  refine ⟨mkOr us, ?_, ⟨constraint_mkOr fun u hu => (reading u hu).constraint, ?_⟩, ?_⟩
  · exact Attempt.bind_eq_ok.2 ⟨(), (isGoal_of_scoped hc hbool).checked accepted _,
      Attempt.bind_eq_ok.2 ⟨us, hus, rfl⟩⟩
  · exact folds.keeps _ (hereditary_over fun _ _ _ h => h.elim) fun u hu => (reading u hu).built
  · exact (says_mkOr (all.imp fun _ _ h => h.2)).holds

end

/-- The cell of a proposition is its symbol. -/
theorem propositionAt_spec {name : String} {t : Term} (ht : m.props.get? name = some t) (k : Int) :
    m.propositionAt name k = .ok (var (discrete name .bool k)) ∧
      Reading (var (discrete name .bool k)) := by
  refine ⟨?_, constraint_var rfl, .var (Or.inr ⟨nofun, nofun⟩)⟩
  rw [propositionAt, Table.has, ht]
  rfl

end Automaton

end HybridCheck
