import HybridCheck.Proofs.Reachability

/-!
# Time and propositions along a trace

Beside the steps themselves, the constraints of a trace say how time passes: every step ends as much
later than the step before as it takes, the first at zero at the earliest and each of the others
strictly later. During a step in some mode every proposition has the value of its symbol. A bound on
time is put on every point in time that occurs in the constraints, the end of the trace among them.
-/

namespace HybridCheck

open Term HybridCheck.Symbol

/-! ## Time -/

/-- Time passes along the first steps of a run as their durations say. -/
structure Trajectory.Elapses (N : Nat) (r : Trajectory) : Prop where
  duration : ∀ k ≤ N, (r k).duration = (r k).stop - r.start k
  first : 0 ≤ (r 0).stop
  increasing : ∀ k < N, (r k).stop < (r (k + 1)).stop

namespace Trajectory

variable {m : Automaton} {N : Nat} {r r' : Trajectory}

theorem start_congr (same : ∀ k ≤ N, r k = r' k) {k : Nat} (hk : k ≤ N) :
    r.start k = r'.start k := by
  cases k with
  | zero => rfl
  | succ k => rw [start, start, same k (by omega)]

theorem Elapses.congr (h : r.Elapses N) (same : ∀ k ≤ N, r k = r' k) : r'.Elapses N where
  duration k hk := by rw [← same k hk, h.duration k hk, start_congr same hk]
  first := same 0 (Nat.zero_le N) ▸ h.first
  increasing k hk := same k hk.le ▸ same (k + 1) hk ▸ h.increasing k hk

theorem Elapses.stop_le (h : r.Elapses N) {j k : Nat} (hjk : j ≤ k) (hk : k ≤ N) :
    (r j).stop ≤ (r k).stop := by
  induction k, hjk using Nat.le_induction with
  | base => exact le_rfl
  | succ k _ ih => exact (ih (by omega)).trans (h.increasing k hk).le

theorem Elapses.stop_nonneg (h : r.Elapses N) {k : Nat} (hk : k ≤ N) : 0 ≤ (r k).stop :=
  h.first.trans (h.stop_le (Nat.zero_le k) hk)

theorem Elapses.start_nonneg (h : r.Elapses N) {k : Nat} (hk : k ≤ N) : 0 ≤ r.start k := by
  cases k with
  | zero => exact le_rfl
  | succ k => exact h.stop_nonneg (by omega)

theorem Elapses.timeline {ρ : Env} (h : (ofEnv m ρ).Elapses N) : Timeline.Increasing ρ N :=
  ⟨h.first, h.increasing⟩

end Trajectory

namespace Automaton

variable {m : Automaton} {N k : Nat}

theorem amount_point {v : Var} (hv : v.sort = .real) : (var v).Amount noFlow :=
  amount_var (by rw [hv]; rfl)

/-- A step ends later than the step before, by its duration. -/
theorem stamps_spec (k : Nat) : ∃ ts,
    (do
      let length ← mkSub (var (tau ((k : Int) + 1))) (var (tau k))
      return [mkEq (var (time ((k : Int) + 1))) length,
        mkLt (var (tau k)) (var (tau ((k : Int) + 1)))]) = (.ok ts : Attempt (List Term)) ∧
      (∃ t ∈ ts, t.mentions (tau ((k + 1 : Nat) : Int)) = true) ∧ SayAll ts fun ρ =>
        (Trajectory.ofEnv m ρ (k + 1)).duration =
            (Trajectory.ofEnv m ρ (k + 1)).stop - (Trajectory.ofEnv m ρ k).stop ∧
          (Trajectory.ofEnv m ρ k).stop < (Trajectory.ofEnv m ρ (k + 1)).stop := by
  have now : (var (tau k)).Amount noFlow := amount_point rfl
  have after : (var (tau ((k : Int) + 1))).Amount noFlow := amount_point rfl
  have duration : (var (time ((k : Int) + 1))).Amount noFlow := amount_point rfl
  obtain ⟨length, hlength, amount, -, value⟩ := after.sub now
  have equation := (duration.cmp amount .eq).says_holds.congr fun ρ hρ =>
    holds_mkCmp duration amount .eq hρ.typed
  have order := (now.cmp after .lt).says_holds.congr fun ρ hρ => holds_mkLt now after hρ.typed
  refine ⟨_, by rw [hlength]; rfl, ⟨_, List.mem_cons_of_mem _ (List.mem_singleton.2 rfl), ?_⟩,
    ((sayAll_singleton equation).append (sayAll_singleton order)).congr fun ρ hρ => ?_⟩
  · exact (mentions_operator (t := cmp .lt _ _) (o := .cmp .lt) rfl).2
      ⟨_, List.mem_cons_of_mem _ (List.mem_singleton.2 rfl), mentions_var.2 rfl⟩
  · rw [value ρ hρ.typed, Relation.Compares, Value.number.injEq]
    exact Iff.rfl

/-- The timestamps say that time passes as the durations do. -/
theorem timestamps_spec (m : Automaton) (N : Nat) : ∃ ts, timestamps N = .ok ts ∧
    (∃ t ∈ ts, t.mentions (tau N) = true) ∧
    SayAll ts fun ρ => (Trajectory.ofEnv m ρ).Elapses N := by
  obtain ⟨later, hlater, each⟩ := Attempt.exists_mapM
    (f := fun k : Int => do
      let length ← mkSub (var (tau (k + 1))) (var (tau k))
      return [mkEq (var (time (k + 1))) length, mkLt (var (tau k)) (var (tau (k + 1)))])
    (P := fun k ts => SayAll ts fun ρ => ∀ n : Nat, k = n →
      (Trajectory.ofEnv m ρ (n + 1)).duration =
          (Trajectory.ofEnv m ρ (n + 1)).stop - (Trajectory.ofEnv m ρ n).stop ∧
        (Trajectory.ofEnv m ρ n).stop < (Trajectory.ofEnv m ρ (n + 1)).stop)
    (l := steps N) fun k hk => by
      obtain ⟨n, -, rfl⟩ := mem_steps.1 hk
      obtain ⟨ts, hts, -, stamps⟩ := stamps_spec (m := m) n
      exact ⟨ts, hts, stamps.congr fun ρ _ => by simp⟩
  have stop : (var (tau 0)).Amount noFlow := amount_point rfl
  have duration : (var (time 0)).Amount noFlow := amount_point rfl
  have zero : zero.Amount noFlow := amount_zero
  have begins := (stop.cmp zero .ge).says_holds.congr fun ρ hρ => holds_mkGe stop zero hρ.typed
  have lasts := (duration.cmp stop .eq).says_holds.congr fun ρ hρ =>
    holds_mkCmp duration stop .eq hρ.typed
  refine ⟨_, by rw [timestamps, hlater]; rfl, ?_, ?_⟩
  · cases N with
    | zero => exact ⟨mkGe (var (tau 0)) Term.zero, by simp, by decide⟩
    | succ N =>
      obtain ⟨ts, hts, ⟨t, ht, mentioned⟩, -⟩ := stamps_spec (m := m) N
      obtain ⟨ts', hmem, hts'⟩ :=
        Attempt.exists_of_mapM hlater (mem_steps.2 ⟨N, N.lt_succ_self, rfl⟩)
      cases hts.symm.trans hts'
      refine ⟨t, ?_, mentioned⟩
      simp only [List.mem_append, List.mem_flatten]
      exact Or.inr ⟨ts, hmem, ht⟩
  · have together := ((sayAll_singleton begins).append (sayAll_singleton lasts)).append
      (sayAll_flatten each)
    refine together.congr fun ρ _ => ?_
    rw [Relation.Compares, Value.number.injEq, amount_zero_eq]
    constructor
    · rintro ⟨⟨first, duration⟩, later⟩
      have each n (hn : n < N) := later n (mem_steps.2 ⟨n, hn, rfl⟩) n rfl
      refine ⟨fun k hk => ?_, first, fun k hk => (each k hk).2⟩
      cases k with
      | zero => exact duration.trans (sub_zero _).symm
      | succ k => exact (each k hk).1
    · intro h
      refine ⟨⟨h.first, ?_⟩, fun k hk n hn => ?_⟩
      · exact (h.duration 0 (Nat.zero_le N)).trans (sub_zero _)
      · obtain ⟨n', hn', rfl⟩ := mem_steps.1 hk
        obtain rfl : n' = n := by exact_mod_cast hn
        exact ⟨h.duration (n' + 1) hn', h.increasing n' hn'⟩

end Automaton

/-! ## Propositions -/

theorem Term.Scoped.not {now next : Var → Prop} {t : Term} (h : t.Scoped now next)
    (hs : t.sort = .bool) : t.mkNot.Scoped now next := by
  have folds := folds_mkNot h.sorted hs
  have references : Hereditary fun t => ∀ n ∈ t.subterms, ∀ v, n = Term.next v → next v :=
    hereditary_subterms fun t o ho v hv => by rw [hv] at ho; cases ho
  refine ⟨folds.sorted, folds.keeps _ hereditary_quantFree ?_,
    folds.keeps _ (hereditary_mentions now) ?_, fun v hv => folds.keeps _ references ?_ _ hv v rfl⟩
  · simpa using h.quantFree
  · simpa using h.now
  · rintro a ha n hn v rfl
    rw [List.mem_singleton.1 ha] at hn
    exact h.next v hn

namespace Step

/-- If a mode is active in a step, a constraint has one truth value for some time of its flow. -/
def KeepsFor (s : Step) (d : ℝ) (md : Mode) (t : Term) (p : Prop) : Prop :=
  md.guard.Holds s.located → ∀ c : ℝ, 0 ≤ c → c ≤ d → (t.Holds (s.after md c) ↔ p)

/-- If a step is spent in a mode, a constraint has one truth value throughout. -/
def Keeps (s : Step) (md : Mode) (t : Term) (p : Prop) : Prop :=
  md.guard.Holds s.located → ∀ c : ℝ, 0 ≤ c → c ≤ s.duration → (t.Holds (s.after md c) ↔ p)

end Step

namespace Automaton

variable {m : Automaton} {N k : Nat}

section

variable (accepted : m.Accepted) (wellSorted : m.WellSorted) {length : Term}
  (lasts : m.Lasts length)
include accepted wellSorted lasts

theorem WellSorted.agreesIn_spec {md : Mode} (hmd : md ∈ m.modes) {name : String} {t : Term}
    (ht : m.props.get? name = some t) :
    ∃ ts, m.agreesIn length k name t md = .ok ts ∧ SayAll ts fun ρ =>
      (Trajectory.ofEnv m ρ k).KeepsFor (length.amount ρ) md t
        (ρ.now (discrete name .bool k)).Holds := by
  obtain ⟨guard, hguard, active⟩ := wellSorted.encodes_guard accepted (k := k) hmd
  have sort := accepted.props _ (Table.mem_of_get? ht)
  have inScope : t.Scoped (fun v => m.Declares v ∨ v = md.flow.clock) fun _ => False :=
    { wellSorted.props _ (Table.mem_of_get? ht) with
      now := fun v hv => Or.inl ((wellSorted.props _ (Table.mem_of_get? ht)).now v hv) }
  have constraint := inScope.constraint sort
  have symbol : (var (discrete name .bool k)).Says fun ρ => (ρ.now (discrete name .bool k)).Holds :=
    (constraint_var rfl).says_holds
  have positive := wellSorted.says_throughout accepted (k := k) lasts hmd inScope sort
    fun _ h => h.elim
  have negative := wellSorted.says_throughout accepted (k := k) lasts hmd (inScope.not sort)
    constraint.not.sort fun _ h => h.elim
  refine ⟨_, by rw [agreesIn, hguard]; rfl,
    ((sayAll_singleton ((symbol.and active).implies positive)).append
      (sayAll_singleton ((symbol.not.and active).implies negative))).congr fun ρ _ => ?_⟩
  simp only [holds_mkNot, Step.KeepsFor]
  -- whichever value the symbol has, only one of the two implications says something
  by_cases p : (ρ.now (discrete name .bool k)).Holds
  · simp only [p, true_and, not_true, false_and, false_imp_iff, and_true, iff_true]
  · simp only [p, false_and, false_imp_iff, not_false_iff, true_and, iff_false]

/-- The constraints on propositions say that each has the value of its symbol for the given time of
a step. -/
theorem WellSorted.propConstraint_spec {props : List String}
    (known : ∀ name ∈ props, ∃ t, m.props.get? name = some t) :
    ∃ ts, m.propConstraint length k props = .ok ts ∧ SayAll ts fun ρ =>
      ∀ name ∈ props, ∀ t, m.props.get? name = some t → ∀ md ∈ m.modes,
        (Trajectory.ofEnv m ρ k).KeepsFor (length.amount ρ) md t
          (ρ.now (discrete name .bool k)).Holds := by
  rw [propConstraint]
  refine Attempt.exists_collect (P := fun name ts => SayAll ts.flatten fun ρ => ∀ t,
    m.props.get? name = some t → ∀ md ∈ m.modes,
      (Trajectory.ofEnv m ρ k).KeepsFor (length.amount ρ) md t
        (ρ.now (discrete name .bool k)).Holds)
    (fun name hname => ?_) fun parts each => ?_
  · obtain ⟨t, ht⟩ := known name (by simpa using hname)
    obtain ⟨ts, hts, all⟩ := Attempt.exists_mapM fun md hmd =>
      wellSorted.agreesIn_spec accepted lasts (k := k) hmd ht
    refine ⟨ts, by rw [ht]; exact hts, (sayAll_flatten all).congr fun ρ _ => ?_⟩
    simp [ht]
  · rw [List.flatten_flatten]
    refine (sayAll_flatten (List.forall₂_map_right_iff.2 each)).congr fun ρ _ => ?_
    simp only [List.mem_mergeSort]

end

end Automaton

/-! ## The constraints of a trace -/

theorem Term.expand_of_flowFree {t : Term} (h : t.flowFree = true) : t.expand = .ok t := by
  have unread : Unread expander t := ⟨h, fun _ _ => rfl, fun _ _ => rfl, fun _ => Or.inr rfl⟩
  exact expand_eq_ok.2 (transform_of_unread unread)

/-- The run in an assignment follows an automaton, time passes along it, and given propositions have
the values of their symbols in every step. -/
structure Env.Traces (ρ : Env) (m : Automaton) (N : Nat) (props : List String) : Prop where
  follows : (Trajectory.ofEnv m ρ).Follows m N
  elapses : (Trajectory.ofEnv m ρ).Elapses N
  keeps : ∀ k ≤ N, ∀ name ∈ props, ∀ t, m.props.get? name = some t → ∀ md ∈ m.modes,
    (Trajectory.ofEnv m ρ k).Keeps md t (ρ.now (discrete name .bool k)).Holds

namespace Automaton

variable {m : Automaton} {N : Nat}

theorem holds_timeBound {v : Var} {b : Rat} {ρ : Env} :
    (mkAnd [mkGe (var v) zero, mkLe (var v) (real b)]).Holds ρ ↔
      0 ≤ (ρ.now v).toReal ∧ (ρ.now v).toReal ≤ b := by
  have both : mkAnd [mkGe (var v) zero, mkLe (var v) (real b)] =
    Term.and [cmp .ge (var v) zero, cmp .le (var v) (real b)] := rfl
  rw [both]
  simp [Term.Holds, eval, Relation.Compares, zero, real]

theorem timeBound_spec {terms : List Term} {b : Rat} :
    (∀ c ∈ timeBoundConstraints terms b, c.expand = .ok c) ∧ ∀ ρ : Env,
      ((∀ c ∈ timeBoundConstraints terms b, c.Holds ρ) ↔ ∀ t ∈ terms, ∀ v, t.mentions v = true →
        v.role = .timestamp → 0 ≤ (ρ.now v).toReal ∧ (ρ.now v).toReal ≤ b) := by
  constructor
  · intro c hc
    obtain ⟨v, -, rfl⟩ := List.mem_map.1 hc
    exact expand_of_flowFree rfl
  · intro ρ
    simp only [timeBoundConstraints, List.forall_mem_map, List.mem_filter, decide_eq_true_eq,
      holds_timeBound, mem_freeVarsOf]
    constructor
    · exact fun h t ht v hv hrole => h v ⟨⟨t, ht, hv⟩, hrole⟩
    · rintro h v ⟨⟨t, ht, hv⟩, hrole⟩
      exact h t ht v hv hrole

/-- The constraints of a trace say that there is a run in an assignment, up to the bound on time. -/
theorem WellSorted.constraints_spec (accepted : m.Accepted) (wellSorted : m.WellSorted) (N : Nat)
    {props : List String} (known : ∀ name ∈ props, ∃ t, m.props.get? name = some t) :
    ∃ trace, (∃ t ∈ trace, t.mentions (tau N) = true) ∧
      (SayAll trace fun ρ => ρ.Traces m N props) ∧
      ∀ T placement formula, m.constraints N T props placement formula = .ok (trace ++
        T.elim [] (timeBoundConstraints (trace ++ placement ++ formula))) := by
  obtain ⟨unrolled, hunrolled, follows⟩ := wellSorted.unroll_spec accepted N
  obtain ⟨times, htimes, ⟨t, ht, mentioned⟩, elapses⟩ := timestamps_spec m N
  obtain ⟨signs, hsigns, each⟩ := Attempt.exists_mapM
    (f := fun k : Int => m.propConstraint (var (time k)) k props)
    (P := fun k ts => SayAll ts fun ρ => ∀ n : Nat, k = n → ∀ name ∈ props, ∀ t,
      m.props.get? name = some t → ∀ md ∈ m.modes,
        (Trajectory.ofEnv m ρ n).Keeps md t (ρ.now (discrete name .bool n)).Holds)
    (l := steps (N + 1 : Nat)) fun k hk => by
      obtain ⟨n, -, rfl⟩ := mem_steps.1 hk
      obtain ⟨ts, hts, keeps⟩ :=
        wellSorted.propConstraint_spec accepted (accepted.lasts n) (k := n) known
      refine ⟨ts, hts, keeps.congr fun ρ _ => ⟨fun h n' hn => ?_, fun h => h n rfl⟩⟩
      obtain rfl : n = n' := by exact_mod_cast hn
      exact h
  refine ⟨unrolled ++ times ++ signs.flatten, ⟨t, by simp [ht], mentioned⟩, ?_, ?_⟩
  · refine ((follows.append elapses).append (sayAll_flatten each)).congr fun ρ _ => ?_
    constructor
    · rintro ⟨⟨follows, elapses⟩, keeps⟩
      exact ⟨follows, elapses, fun k hk => keeps k (mem_steps.2 ⟨k, by omega, rfl⟩) k rfl⟩
    · rintro ⟨follows, elapses, keeps⟩
      refine ⟨⟨follows, elapses⟩, fun k hk n hn => ?_⟩
      obtain ⟨n', hn', rfl⟩ := mem_steps.1 hk
      obtain rfl : n' = n := by exact_mod_cast hn
      exact keeps n' (by omega)
  · intro T placement formula
    rw [constraints, hunrolled]
    simp only [Attempt.bind_ok]
    rw [htimes, Attempt.bind_ok]
    have signs' : (steps ((N : Int) + 1)).mapM
      (fun k => m.propConstraint (var (time k)) k props) = .ok signs := hsigns
    rw [signs']
    cases T with
    | none => simp
    | some b => rfl

end Automaton

end HybridCheck
