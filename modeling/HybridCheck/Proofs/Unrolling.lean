import HybridCheck.Proofs.Segments

/-!
# What the constraints of a trace say

Every constraint of an unrolled automaton can be expanded, and it says of an assignment what its
place in the run asks for: that the automaton starts in an initial state, that a step is spent in
some mode, that some jump leads to the next step, that time moves on, and that a proposition agrees
with its definition during a step.
-/

namespace HybridCheck

namespace Term

/-! ## Constraints that can be expanded -/

/-- A constraint whose flow primitives can be expanded. -/
structure Ready (t : Term) : Prop where
  constraint : t.Constraint anyFlow
  proper : ∀ n ∈ t.subterms, n.Proper
  separate : ∀ n ∈ t.subterms, n.Separate

theorem expand_eq_ok {t u : Term} : t.expand = .ok u ↔ t.transform expander = .ok u := by
  rw [expand]
  cases h : t.transform expander with
  | ok u' => rfl
  | error e =>
    simp only [reduceCtorEq, iff_false]
    split
    · intro hu
      cases hu
    · intro hu
      obtain ⟨_, -, hu⟩ := Attempt.bind_eq_ok.1 hu
      cases hu

theorem Ready.expand {t : Term} (h : t.Ready) : ∃ u, t.expand = .ok u ∧
    ∀ ρ : Env, ρ.Typed → u.eval ρ = t.eval ρ := by
  obtain ⟨u, hu, becomes⟩ := transform_expander h.constraint.sorted h.proper h.separate
  exact ⟨u, expand_eq_ok.2 hu, becomes.eval⟩

/-- No part of a plain term is a flow primitive. -/
theorem proper_of_plain {t n : Term} (h : t.plain = true) (hn : n ∈ t.subterms) :
    n.Proper ∧ n.Separate := by
  have : n.isFlow = false := by simpa using List.all_eq_true.1 (plain_iff.1 h).2 n hn
  cases n <;> trivial

theorem Constraint.ready {t : Term} (h : t.Constraint noFlow) : t.Ready :=
  ⟨⟨(plain_iff.1 h.sorted).1, h.sort⟩, fun _ hn => (proper_of_plain h.sorted hn).1,
    fun _ hn => (proper_of_plain h.sorted hn).2⟩

theorem Folds.ready {u : Term} {o : Operator} {as : List Term} (h : Folds anyFlow u o as)
    (result : o.result (as.map Term.sort) = .bool) (has : ∀ a ∈ as, a.Ready) : u.Ready := by
  refine ⟨h.constraint result, ?_, ?_⟩
  · refine h.keeps _ (hereditary_subterms fun t o ho => ?_) fun a ha => (has a ha).proper
    cases t <;> cases ho <;> trivial
  · refine h.keeps _ (hereditary_subterms fun t o ho => ?_) fun a ha => (has a ha).separate
    cases t <;> cases ho <;> trivial

/-- A constraint can be expanded and says something of every assignment. -/
structure Says (t : Term) (Q : Env → Prop) : Prop where
  ready : t.Ready
  holds : ∀ ρ : Env, ρ.Sorted → (t.Holds ρ ↔ Q ρ)

theorem Says.congr {t : Term} {Q R : Env → Prop} (h : t.Says Q)
    (hQ : ∀ ρ : Env, ρ.Sorted → (Q ρ ↔ R ρ)) : t.Says R :=
  ⟨h.ready, fun ρ hρ => (h.holds ρ hρ).trans (hQ ρ hρ)⟩

theorem Constraint.says_holds {t : Term} (h : t.Constraint noFlow) : t.Says t.Holds :=
  ⟨h.ready, fun _ _ => Iff.rfl⟩

section

variable {α : Type} {l : List α} {ts : List Term} {Q : α → Env → Prop}

theorem holds_of_forall₂ (h : List.Forall₂ (fun a t => Says t (Q a)) l ts) {ρ : Env}
    (hρ : ρ.Sorted) : ((∀ t ∈ ts, t.Holds ρ) ↔ ∀ a ∈ l, Q a ρ) ∧
      ((∃ t ∈ ts, t.Holds ρ) ↔ ∃ a ∈ l, Q a ρ) := by
  induction h with
  | nil => simp
  | cons hat _ ih =>
    simp only [List.mem_cons, forall_eq_or_imp, exists_eq_or_imp, hat.holds ρ hρ, ih, and_self]

theorem ready_of_forall₂ (h : List.Forall₂ (fun a t => Says t (Q a)) l ts) :
    ∀ t ∈ ts, t.Ready := by
  induction h with
  | nil => simp
  | cons hat _ ih => simpa using ⟨hat.ready, ih⟩

theorem says_mkAnd (h : List.Forall₂ (fun a t => Says t (Q a)) l ts) :
    (mkAnd ts).Says fun ρ => ∀ a ∈ l, Q a ρ := by
  have ready := ready_of_forall₂ h
  have folds := folds_mkAnd (fun t ht => (ready t ht).constraint.sorted)
    fun t ht => (ready t ht).constraint.sort
  refine ⟨folds.ready rfl ready, fun ρ hρ => ?_⟩
  rw [holds_mkAnd]
  exact (holds_of_forall₂ h hρ).1

theorem says_mkOr (h : List.Forall₂ (fun a t => Says t (Q a)) l ts) :
    (mkOr ts).Says fun ρ => ∃ a ∈ l, Q a ρ := by
  have ready := ready_of_forall₂ h
  have folds := folds_mkOr (fun t ht => (ready t ht).constraint.sorted)
    fun t ht => (ready t ht).constraint.sort
  refine ⟨folds.ready rfl ready, fun ρ hρ => ?_⟩
  rw [holds_mkOr (fun t ht => (ready t ht).constraint) hρ.typed]
  exact (holds_of_forall₂ h hρ).2

end

section

variable {t u : Term} {Q R : Env → Prop}

theorem Says.and (ht : t.Says Q) (hu : u.Says R) : (mkAnd [t, u]).Says fun ρ => Q ρ ∧ R ρ :=
  (says_mkAnd (l := [Q, R]) (Q := id) (.cons ht (.cons hu .nil))).congr fun ρ _ => by simp

theorem Says.not (ht : t.Says Q) : t.mkNot.Says fun ρ => ¬Q ρ := by
  have folds := folds_mkNot ht.ready.constraint.sorted ht.ready.constraint.sort
  refine ⟨folds.ready rfl (by simpa using ht.ready), fun ρ hρ => ?_⟩
  rw [holds_mkNot, ht.holds ρ hρ]

theorem Says.implies (ht : t.Says Q) (hu : u.Says R) :
    (mkImplies t u).Says fun ρ => Q ρ → R ρ := by
  have folds := folds_mkImplies ht.ready.constraint.sorted hu.ready.constraint.sorted
    ht.ready.constraint.sort hu.ready.constraint.sort
  refine ⟨folds.ready rfl (by simpa using ⟨ht.ready, hu.ready⟩), fun ρ hρ => ?_⟩
  rw [holds_mkImplies ht.ready.constraint hu.ready.constraint hρ.typed, ht.holds ρ hρ,
    hu.holds ρ hρ]

end

/-- Several constraints together say something of every assignment. -/
structure SayAll (ts : List Term) (Q : Env → Prop) : Prop where
  ready : ∀ t ∈ ts, t.Ready
  holds : ∀ ρ : Env, ρ.Sorted → ((∀ t ∈ ts, t.Holds ρ) ↔ Q ρ)

section

variable {α : Type} {l : List α} {ts us : List Term} {Q R : Env → Prop} {S : α → Env → Prop}

theorem SayAll.congr (h : SayAll ts Q) (hQ : ∀ ρ : Env, ρ.Sorted → (Q ρ ↔ R ρ)) : SayAll ts R :=
  ⟨h.ready, fun ρ hρ => (h.holds ρ hρ).trans (hQ ρ hρ)⟩

theorem SayAll.append (h : SayAll ts Q) (h' : SayAll us R) :
    SayAll (ts ++ us) fun ρ => Q ρ ∧ R ρ := by
  refine ⟨fun t ht => ?_, fun ρ hρ => ?_⟩
  · rcases List.mem_append.1 ht with ht | ht
    · exact h.ready t ht
    · exact h'.ready t ht
  · rw [List.forall_mem_append, h.holds ρ hρ, h'.holds ρ hρ]

theorem sayAll_of_forall₂ (h : List.Forall₂ (fun a t => Says t (S a)) l ts) :
    SayAll ts fun ρ => ∀ a ∈ l, S a ρ :=
  ⟨ready_of_forall₂ h, fun _ hρ => (holds_of_forall₂ h hρ).1⟩

theorem sayAll_singleton {t : Term} (h : t.Says Q) : SayAll [t] Q :=
  ⟨by simpa using h.ready, fun ρ hρ => by simpa using h.holds ρ hρ⟩

theorem sayAll_flatten {tss : List (List Term)}
    (h : List.Forall₂ (fun a ts => SayAll ts (S a)) l tss) :
    SayAll tss.flatten fun ρ => ∀ a ∈ l, S a ρ := by
  induction h with
  | nil => exact ⟨by simp, fun ρ _ => by simp⟩
  | cons hat _ ih => exact (hat.append ih).congr fun ρ _ => by simp

end

end Term

namespace Automaton

open Term

variable {m : Automaton} {md : Mode} {k : Nat} {time : Term}

/-- A flow primitive over the segment of a step can be expanded if it is well-formed. -/
theorem Lasts.ready_flow (lasts : m.Lasts time) {t : Term}
    (ht : t = integral (m.segment md time k) ∨
      ∃ body, t = throughout (m.segment md time k) body) (proper : t.Proper) : t.Ready := by
  have node {n : Term} (hn : n ∈ t.subterms) :
      n = t ∨ ∃ a : Term, a.plain = true ∧ n ∈ a.subterms := by
    rcases (mem_subterms_flow ht).1 hn with h | ⟨a, ha, hn⟩
    · exact Or.inl h
    · refine Or.inr ⟨a, ?_, hn⟩
      rcases isSymbol_parts ha with rfl | symbol
      · exact lasts.amount.sorted
      · obtain ⟨v, rfl, -⟩ := symbol.var
        rfl
  have separate : t.Separate := by
    rcases ht with rfl | ⟨body, rfl⟩
    · exact lasts.flowFree_parts
    · exact lasts.separate_throughout body
  refine ⟨⟨List.all_eq_true.2 fun n hn => ?_, ?_⟩, fun n hn => ?_, fun n hn => ?_⟩
  · rcases node hn with rfl | ⟨a, plain, hn⟩
    · rcases ht with rfl | ⟨body, rfl⟩ <;> rfl
    · exact List.all_eq_true.1 (plain_iff.1 plain).1 n hn
  · rcases ht with rfl | ⟨body, rfl⟩ <;> rfl
  · rcases node hn with rfl | ⟨a, plain, hn⟩
    · exact proper
    · exact (proper_of_plain plain hn).1
  · rcases node hn with rfl | ⟨a, plain, hn⟩
    · exact separate
    · exact (proper_of_plain plain hn).2

/-- Something was encoded as a constraint that says it. -/
def Encodes (x : Attempt Term) (Q : Env → Prop) : Prop := ∃ t, x = .ok t ∧ t.Says Q

/-! ## Steps -/

section

variable (accepted : m.Accepted) (wellSorted : m.WellSorted)
include accepted wellSorted

/-- The guard of a mode, read in a step. -/
theorem WellSorted.substitute_guard (hmd : md ∈ m.modes) :
    ∃ u, md.guard.substitute (m.discreteSubst k) = .ok u ∧ u.Constraint noFlow ∧
      Over (fun v => v.role = .proposition) (fun _ => False) (fun _ => False) u ∧
      ∀ ρ : Env, ρ.Sorted → (u.Holds ρ ↔ md.guard.Holds (Trajectory.ofEnv m ρ k).located) := by
  have inScope := wellSorted.guard md hmd
  have fit v u (hv : v.role = .logical ∧ m.IsMode v) (_ : v.role = .logical)
      (hu : (m.discreteSubst k).get? v.name = some u) :
      u.plain = true ∧ u.sort.alike v.sort = true := by
    rw [accepted.get?_discreteSubst hv.2] at hu
    cases hu
    exact ⟨rfl, TermSort.alike_refl _⟩
  obtain ⟨u, hu, becomes, keeps⟩ := substitute_over fit inScope.built inScope.sorted
  refine ⟨u, hu, becomes.constraint (accepted.modes md hmd).guard,
    keeps _ (hereditary_over fun _ _ _ h => h.elim) (fun v hv => ?_) fun _ h => h.elim,
    fun ρ hρ => ?_⟩
  · rw [if_pos hv.1, accepted.get?_discreteSubst hv.2]
    exact .var rfl
  · have same := accepted.sameMode ρ k
    rw [evalTable_eq] at same
    rw [Term.Holds, becomes.eval ρ hρ.typed, Term.Holds, Step.located, inScope.built.eval_congr
      (fun v hv => located_eq same (Trajectory.sorted_ofEnv hρ k).mode ρ Env.blank hv)
      (fun _ h => h.elim) fun _ h => h.elim]

theorem WellSorted.encodes_guard (hmd : md ∈ m.modes) :
    Encodes (md.guard.substitute (m.discreteSubst k))
      fun ρ => md.guard.Holds (Trajectory.ofEnv m ρ k).located := by
  obtain ⟨u, hu, constraint, -, holds⟩ := wellSorted.substitute_guard accepted (k := k) hmd
  exact ⟨u, hu, constraint.ready, holds⟩

/-- The integral of a step says that time moves forward and the flow leads to the exit values. -/
theorem WellSorted.says_integral (hmd : md ∈ m.modes) :
    (integral (m.segment md (.var (Symbol.time k)) k)).Says fun ρ =>
      0 ≤ (Trajectory.ofEnv m ρ k).duration ∧ ∀ e ∈ (Trajectory.ofEnv m ρ k).exit,
        (md.flow.stateAt Env.blank (Trajectory.ofEnv m ρ k).mode (Trajectory.ofEnv m ρ k).entry
          (Trajectory.ofEnv m ρ k).duration).get? e.1 = some e.2 := by
  have lasts := accepted.lasts k
  refine ⟨lasts.ready_flow (Or.inl rfl) (wellSorted.proper accepted lasts hmd), fun ρ hρ => ?_⟩
  have sorted := Trajectory.sorted_ofEnv (m := m) hρ k
  rw [Term.Holds, eval_integral]
  simp only [segment, Trajectory.evalTable_entry, Trajectory.evalTable_exit,
    wellSorted.stateAt_eq accepted hmd (accepted.sameMode ρ k) sorted.mode sorted.entry.suits ρ
      Env.blank]
  rfl

/-- A body that holds throughout a step says so of the run. -/
theorem WellSorted.says_throughout (lasts : m.Lasts time) (hmd : md ∈ m.modes) {body : Term}
    {next : Var → Prop}
    (hb : body.Scoped (fun v => m.Declares v ∨ v = md.flow.clock) next) (hbool : body.sort = .bool)
    (hnext : ∀ v, next v → m.IsState v) :
    (throughout (m.segment md time k) body).Says fun ρ =>
      ∀ c : ℝ, 0 ≤ c → c ≤ time.amount ρ →
        body.Holds ((Trajectory.ofEnv m ρ k).after md c) := by
  refine ⟨lasts.ready_flow (Or.inr ⟨body, rfl⟩) ⟨wellSorted.proper accepted lasts hmd,
    hb.constraint hbool, accepted.reads hb hnext⟩, fun ρ hρ => ?_⟩
  have sorted := Trajectory.sorted_ofEnv (m := m) hρ k
  rw [Term.Holds, eval_throughout]
  simp only [segment, Trajectory.evalTable_entry, Trajectory.evalTable_exit, Value.holds_truth]
  refine forall₃_congr fun c _ _ => ?_
  have after v (hv : next v) : (ρ.bindNext (Trajectory.ofEnv m ρ k).exit).next v =
      (Env.blank.bindNext (Trajectory.ofEnv m ρ k).exit).next v := by
    obtain ⟨x, hx, fits⟩ := sorted.exit.suits.value _ _ (hnext v hv)
    rw [Env.bindNext_next hx fits, Env.bindNext_next hx fits]
  rw [Term.Holds, Step.after, wellSorted.eval_instant accepted hmd hb (accepted.sameMode ρ k)
    sorted.mode sorted.entry.suits (hρ.typed.bindNext (Trajectory.ofEnv m ρ k).exit) after c]

theorem WellSorted.encodes_flows (hmd : md ∈ m.modes) :
    Encodes (m.flows md (.var (Symbol.time k)) k) fun ρ =>
      0 ≤ (Trajectory.ofEnv m ρ k).duration ∧ (Trajectory.ofEnv m ρ k).SpentIn md := by
  obtain ⟨guard, hguard, active⟩ := wellSorted.encodes_guard accepted (k := k) hmd
  have integral := wellSorted.says_integral accepted (k := k) hmd
  have throughout := wellSorted.says_throughout accepted (k := k) (accepted.lasts k) hmd
    (wellSorted.invariant md hmd) (accepted.modes md hmd).invariant fun _ h => h
  refine ⟨_, by rw [flows, hguard]; rfl, Says.congr (says_mkAnd (l := [_, _, _]) (Q := id)
    (.cons active (.cons integral (.cons throughout .nil)))) fun ρ _ => ?_⟩
  simp only [id, List.mem_cons, List.not_mem_nil, or_false, forall_eq_or_imp, forall_eq]
  constructor
  · rintro ⟨h1, ⟨h2, h3⟩, h4⟩
    exact ⟨h2, h1, h3, h4⟩
  · rintro ⟨h2, h1, h3, h4⟩
    exact ⟨h1, ⟨h2, h3⟩, h4⟩

/-! ## Jumps -/

omit wellSorted in
/-- A term read at one end of a step. -/
theorem Accepted.substitute_allSubst {a : Term} {next : Var → Prop} (ha : a.plain = true)
    (built : Over m.Declares next (fun _ => False) a) (p : Phase) :
    ∃ u, a.substitute (m.allSubst k p) = .ok u ∧
      Becomes noFlow (fun ρ => ρ.bind ((m.allSubst k p).mapValues (·.eval ρ))) a u ∧
      Over (fun v => v.role ≠ .logical) next (fun _ => False) u := by
  have fit v u (hv : m.Declares v) (_ : v.role = .logical)
      (hu : (m.allSubst k p).get? v.name = some u) :
      u.plain = true ∧ u.sort.alike v.sort = true := by
    obtain ⟨w, hw, hsort, -⟩ := accepted.get?_allSubst (k := k) hv.2 p
    rw [hw] at hu
    cases hu
    exact ⟨rfl, by rw [Term.sort, hsort]; exact TermSort.alike_refl _⟩
  obtain ⟨u, hu, becomes, keeps⟩ := substitute_over fit built ha
  refine ⟨u, hu, becomes, keeps _ (hereditary_over fun _ _ _ h => h.elim) (fun v hv => ?_)
    fun v hv => .next hv⟩
  obtain ⟨w, hw, -, hrole, -⟩ := accepted.get?_allSubst (k := k) hv.2 p
  rw [if_pos hv.1, hw]
  exact .var hrole

omit accepted wellSorted in
/-- The values of all symbols at one end of a step. -/
theorem eval_allSubst (ρ : Env) (p : Phase) : (m.allSubst k p).mapValues (·.eval ρ) =
    (evalTable (m.discreteSubst k) ρ).merge (evalTable (m.stateSubst k p) ρ) := by
  rw [allSubst, Table.mapValues_merge, evalTable_eq, evalTable_eq]

theorem WellSorted.encodes_initial :
    Encodes m.initial fun ρ => m.init.Holds (Trajectory.ofEnv m ρ 0).atEntry := by
  have built := wellSorted.init.built
  obtain ⟨u, hu, becomes, -⟩ :=
    accepted.substitute_allSubst (k := 0) wellSorted.init.sorted built .entry
  have constraint := becomes.constraint accepted.init
  refine ⟨u, hu, constraint.ready, fun ρ hρ => ?_⟩
  have sorted := Trajectory.sorted_ofEnv (m := m) hρ 0
  rw [Term.Holds, becomes.eval ρ hρ.typed, eval_allSubst, Trajectory.evalTable_entry, Term.Holds,
    Step.atEntry, built.eval_congr (fun v hv => accepted.now_eq (accepted.sameMode ρ 0) sorted.mode
      sorted.entry.suits ρ Env.blank hv) (fun _ h => h.elim) fun _ h => h.elim]

omit wellSorted in
/-- A term read at the end of a step and, after the jump, at the start of the next one. -/
theorem Accepted.substitute_jump {a : Term} (ha : a.plain = true)
    (built : Over m.Declares (fun v => m.IsState v ∨ m.IsMode v) (fun _ => False) a) :
    ∃ u₁ u₂, a.substitute (m.allSubst k .exit) = .ok u₁ ∧
      u₁.substituteNext (m.allSubst ((k + 1 : Nat) : Int) .entry) = .ok u₂ ∧ u₂.plain = true ∧
      u₂.sort.alike a.sort = true ∧ ∀ ρ : Env, ρ.Sorted → u₂.eval ρ =
        a.eval ((Trajectory.ofEnv m ρ k).atExit.bindNext ((Trajectory.ofEnv m ρ (k + 1)).mode.merge
          (Trajectory.ofEnv m ρ (k + 1)).entry)) := by
  obtain ⟨u₁, h1, becomes₁, built₁⟩ := accepted.substitute_allSubst (k := k) ha built .exit
  have fit v u (hv : m.IsState v ∨ m.IsMode v)
      (hu : (m.allSubst ((k + 1 : Nat) : Int) .entry).get? v.name = some u) :
      u.plain = true ∧ u.sort.alike v.sort = true := by
    obtain ⟨w, hw, hsort, -⟩ := accepted.get?_allSubst (k := k + 1) hv .entry
    rw [hw] at hu
    cases hu
    exact ⟨rfl, by rw [Term.sort, hsort]; exact TermSort.alike_refl _⟩
  obtain ⟨u₂, h2, becomes₂, -⟩ :=
    substituteNext_over (fun _ h => h.elim) fit built₁ becomes₁.sorted
  refine ⟨u₁, u₂, h1, h2, becomes₂.sorted, TermSort.alike_trans becomes₂.alike becomes₁.alike,
    fun ρ hρ => ?_⟩
  have sorted := Trajectory.sorted_ofEnv (m := m) hρ k
  have sorted' := Trajectory.sorted_ofEnv (m := m) hρ (k + 1)
  -- the values after the jump do not touch those before it
  let ρ' := ρ.bindNext ((m.allSubst ((k + 1 : Nat) : Int) .entry).mapValues (·.eval ρ))
  have typed : ρ'.Typed := hρ.typed.bindNext _
  have now {v : Var} (hv : m.Declares v) :
      (ρ'.bind ((m.allSubst k .exit).mapValues (·.eval ρ'))).now v =
        (Trajectory.ofEnv m ρ k).atExit.now v := by
    rw [eval_allSubst, Trajectory.evalTable_exit]
    exact accepted.now_eq (accepted.sameMode ρ' k) sorted.mode sorted.exit.suits ρ' Env.blank hv
  have next {v : Var} (hv : m.IsState v ∨ m.IsMode v) : ρ'.next v =
      ((Trajectory.ofEnv m ρ k).atExit.bindNext ((Trajectory.ofEnv m ρ (k + 1)).mode.merge
        (Trajectory.ofEnv m ρ (k + 1)).entry)).next v := by
    dsimp only [ρ']
    rw [eval_allSubst, Trajectory.evalTable_entry]
    exact accepted.next_eq (accepted.sameMode ρ (k + 1)) sorted'.mode sorted'.entry.suits ρ _ hv
  rw [becomes₂.eval ρ hρ.typed, becomes₁.eval ρ' typed]
  refine built.eval_congr (fun v hv => ?_) (fun v hv => ?_) fun _ h => h.elim
  · exact now hv
  · exact next hv

theorem WellSorted.encodes_takes {j : Jump} (hj : j ∈ m.jumps) :
    Encodes (m.takes k j) fun ρ =>
      Step.Leads j (Trajectory.ofEnv m ρ k) (Trajectory.ofEnv m ρ (k + 1)) := by
  obtain ⟨hguard, hreset⟩ := wellSorted.jumps j hj
  have both : ∀ a ∈ [j.guard, j.reset], a.Constraint noFlow := by
    simpa using ⟨hguard.constraint (accepted.jumps j hj).1,
      hreset.constraint (accepted.jumps j hj).2⟩
  have folds := folds_mkAnd (fun a ha => (both a ha).sorted) fun a ha => (both a ha).sort
  have built : Over m.Declares (fun v => m.IsState v ∨ m.IsMode v) (fun _ => False)
      (mkAnd [j.guard, j.reset]) := by
    refine folds.keeps _ (hereditary_over fun _ _ _ h => h.elim) ?_
    simpa using ⟨hguard.built.mono (fun _ h => h) (fun _ h => h.elim) fun _ h => h, hreset.built⟩
  obtain ⟨u₁, u₂, h1, h2, sorted, alike, value⟩ :=
    accepted.substitute_jump (k := k) folds.sorted built
  have constraint : u₂.Constraint noFlow :=
    ⟨sorted, TermSort.alike_bool.1 ((constraint_mkAnd both).sort ▸ alike)⟩
  refine ⟨u₂, ?_, constraint.ready, fun ρ hρ => ?_⟩
  · rw [takes, h1]
    exact h2
  · have guard (t : Table Value) :
        j.guard.eval ((Trajectory.ofEnv m ρ k).atExit.bindNext t) =
          j.guard.eval (Trajectory.ofEnv m ρ k).atExit := by
      refine hguard.built.eval_congr (fun v _ => ?_) (fun _ h => h.elim) fun _ h => h.elim
      rfl
    rw [Term.Holds, value ρ hρ, ← Term.Holds, holds_mkAnd, List.forall_mem_cons,
      List.forall_mem_singleton, Term.Holds, guard, ← Term.Holds]
    exact ⟨fun h => ⟨h.1, h.2⟩, fun h => ⟨h.guard, h.reset⟩⟩

/-! ## Unrolled automata -/

theorem WellSorted.encodes_someJump : Encodes (m.someJump k) fun ρ =>
    ∃ j ∈ m.jumps, Step.Leads j (Trajectory.ofEnv m ρ k) (Trajectory.ofEnv m ρ (k + 1)) := by
  obtain ⟨ts, hts, all⟩ := Attempt.exists_mapM (P := fun j t => Says t fun ρ =>
    Step.Leads j (Trajectory.ofEnv m ρ k) (Trajectory.ofEnv m ρ (k + 1)))
    fun j hj => wellSorted.encodes_takes accepted (k := k) hj
  exact ⟨mkOr ts, by rw [someJump, hts]; rfl, says_mkOr all⟩

theorem WellSorted.encodes_beforeFlow : Encodes (m.beforeFlow (.var (Symbol.time k)) k) fun ρ =>
    (∃ md ∈ m.modes, 0 ≤ (Trajectory.ofEnv m ρ k).duration ∧ (Trajectory.ofEnv m ρ k).SpentIn md) ∧
      ∃ j ∈ m.jumps, Step.Leads j (Trajectory.ofEnv m ρ k) (Trajectory.ofEnv m ρ (k + 1)) := by
  obtain ⟨jump, hjump, takes⟩ := wellSorted.encodes_someJump accepted (k := k)
  obtain ⟨ts, hts, all⟩ := Attempt.exists_mapM
    (f := fun md => do return mkAnd [← m.flows md (.var (Symbol.time k)) k, jump])
    (P := fun md t => Says t fun ρ =>
      (0 ≤ (Trajectory.ofEnv m ρ k).duration ∧ (Trajectory.ofEnv m ρ k).SpentIn md) ∧
        ∃ j ∈ m.jumps, Step.Leads j (Trajectory.ofEnv m ρ k) (Trajectory.ofEnv m ρ (k + 1)))
    (l := m.modes) fun md hmd => by
      obtain ⟨t, ht, spent⟩ := wellSorted.encodes_flows accepted (k := k) hmd
      exact ⟨_, by rw [ht]; rfl, spent.and takes⟩
  refine ⟨mkOr ts, ?_, (says_mkOr all).congr fun ρ _ => ?_⟩
  · rw [beforeFlow, hjump]
    simp only [Attempt.bind_ok]
    rw [hts]
    rfl
  · constructor
    · rintro ⟨md, hmd, spent, j⟩
      exact ⟨⟨md, hmd, spent⟩, j⟩
    · rintro ⟨⟨md, hmd, spent⟩, j⟩
      exact ⟨md, hmd, spent, j⟩

theorem WellSorted.encodes_afterFlow : Encodes (m.afterFlow (.var (Symbol.time k)) k) fun ρ =>
    ∃ md ∈ m.modes,
      0 ≤ (Trajectory.ofEnv m ρ k).duration ∧ (Trajectory.ofEnv m ρ k).SpentIn md := by
  obtain ⟨ts, hts, all⟩ := Attempt.exists_mapM (P := fun md t => Says t fun ρ =>
    0 ≤ (Trajectory.ofEnv m ρ k).duration ∧ (Trajectory.ofEnv m ρ k).SpentIn md)
    fun md hmd => wellSorted.encodes_flows accepted (k := k) hmd
  exact ⟨mkOr ts, by rw [afterFlow, hts]; rfl, says_mkOr all⟩

end

theorem mem_steps {N : Nat} {k : Int} : k ∈ steps N ↔ ∃ n : Nat, n < N ∧ k = n := by
  simp [steps, eq_comm]

/-- The unrolled automaton says that the run in an assignment follows the automaton. -/
theorem WellSorted.unroll_spec (accepted : m.Accepted) (wellSorted : m.WellSorted) (N : Nat) :
    ∃ ts, m.unroll N = .ok ts ∧ SayAll ts fun ρ => (Trajectory.ofEnv m ρ).Follows m N := by
  obtain ⟨first, hfirst, init⟩ := wellSorted.encodes_initial accepted
  obtain ⟨last, hlast, final⟩ := wellSorted.encodes_afterFlow accepted (k := N)
  obtain ⟨inner, hinner, all⟩ := Attempt.exists_mapM
    (f := fun k : Int => m.beforeFlow (.var (Symbol.time k)) k)
    (P := fun k t => Says t fun ρ => ∀ n : Nat, k = n →
      (∃ md ∈ m.modes,
        0 ≤ (Trajectory.ofEnv m ρ n).duration ∧ (Trajectory.ofEnv m ρ n).SpentIn md) ∧
        ∃ j ∈ m.jumps, Step.Leads j (Trajectory.ofEnv m ρ n) (Trajectory.ofEnv m ρ (n + 1)))
    (l := steps N) fun k hk => by
      obtain ⟨n, -, rfl⟩ := mem_steps.1 hk
      obtain ⟨t, ht, step⟩ := wellSorted.encodes_beforeFlow accepted (k := n)
      exact ⟨t, ht, step.congr fun ρ _ => by simp⟩
  refine ⟨first :: (inner ++ [last]), ?_, ?_⟩
  · rw [unroll, if_neg (by omega), hfirst]
    simp only [Attempt.bind_ok]
    rw [hinner, Attempt.bind_ok, hlast]
    rfl
  · have together := (sayAll_singleton init).append ((sayAll_of_forall₂ all).append
      (sayAll_singleton final))
    refine together.congr fun ρ _ => ?_
    constructor
    · rintro ⟨init, steps, last⟩
      have each n (hn : n < N) := steps n (mem_steps.2 ⟨n, hn, rfl⟩) n rfl
      refine ⟨init, fun k hk => ?_, fun k hk => (each k hk).2⟩
      rcases Nat.lt_or_ge k N with hlt | hge
      · exact (each k hlt).1
      · obtain rfl : k = N := by omega
        exact last
    · rintro ⟨init, modes, jumps⟩
      refine ⟨init, fun k hk n hn => ?_, modes N le_rfl⟩
      obtain ⟨n', hn', rfl⟩ := mem_steps.1 hk
      obtain rfl : n' = n := by exact_mod_cast hn
      exact ⟨modes n' hn'.le, jumps n' hn'⟩

end Automaton

end HybridCheck
