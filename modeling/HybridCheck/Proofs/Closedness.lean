import HybridCheck.Proofs.Locality

/-!
# Closed valuations

The cells of a loaded model are built without quantifiers from the symbols at the start of a step
and from the time since then, which is replaced by the time from the start of the step to an
instant. So nothing in a cell captures an instant. A valuation numbers the instants that it
quantifies over one after the other, and every quantifier closes what was valued at its instant.
What is left free are the ends of the steps, symbols at the start of steps, and witnesses.
-/

namespace HybridCheck

open Term

namespace Term

/-! ## Terms without quantifiers -/

section

variable {P : Var → Prop} {H : Term → Prop} {t u : Term}

theorem Uses.builtOver {B : Var → Prop} (h : t.Uses P noReference B noPrimitive)
    (hq : t.quantFree = true) : t.BuiltOver P :=
  over_of_quantFree h.flowFree hq (fun _ hv => h _ (mem_subterms_of_mentions hv)) fun _ hv => h _ hv

theorem hereditary_builtOver : Hereditary (BuiltOver P) := hereditary_over fun _ _ _ h => h.elim

/-- What operators inherit, a term has if the variables that it is built from do. -/
theorem BuiltOver.has (hH : Hereditary H) (h : t.BuiltOver P) (now : ∀ v, P v → H (var v)) :
    H t := by
  induction h with
  | var hv => exact now _ hv
  | next hv => exact hv.elim
  | operator ho _ ih => exact (hH _ _ ho).2 ih
  | whole h => exact h.elim

/-- What operators inherit, a replacement makes of a term if it makes it of the variables that the
term is built from. -/
theorem BuiltOver.transform (hH : Hereditary H) {r : Replacement} (h : t.BuiltOver P)
    (now : ∀ v, P v → H ((r.onVar v).getD (var v))) (hu : t.transform r = .ok u) : H u := by
  induction h generalizing u with
  | var hv =>
    cases (transform_var _).symm.trans hu
    exact now _ hv
  | next hv => exact hv.elim
  | operator ho _ ih => exact hH.transform ho (fun a ha _ hu => ih a ha hu) hu
  | whole h => exact h.elim

theorem BuiltOver.replace (hH : Hereditary H) {c : Var} {d : Term}
    (h : t.BuiltOver fun v => P v ∨ v = c) (now : ∀ v, P v → H (var v)) (hd : H d)
    (hu : t.replace c d = .ok u) : H u := by
  refine h.transform hH (fun v hv => ?_) hu
  by_cases hvc : v = c
  · simpa [hvc] using hd
  · simpa [hvc] using now v (hv.resolve_right hvc)

/-- Identifiers that have values are replaced by them. -/
theorem BuiltOver.resolve (hH : Hereditary H) {R : String → Prop} {K : Var → Prop} {s : Subst}
    (h : t.BuiltOver (Refers R K)) (values : ∀ name, R name → ∃ a, s.get? name = some a ∧ H a)
    (known : ∀ v, K v → H (var v)) (hu : t.substitute s = .ok u) : H u := by
  rw [substitute] at hu
  split at hu
  · next hs =>
    obtain rfl : s = [] := by simpa using hs
    cases hu
    refine h.has hH fun v hv => known v (hv.known fun hr => ?_)
    obtain ⟨_, found, -⟩ := values v.name (hv.identifier hr)
    cases found
  · refine h.transform hH (fun v hv => getD_ofSubst (fun own => ?_) fun hr a ha => ?_) hu
    · refine known v (hv.known fun hr => ?_)
      obtain ⟨_, found, -⟩ := values v.name (hv.identifier hr)
      cases (own hr).symm.trans found
    · obtain ⟨_, found, ha'⟩ := values v.name (hv.identifier hr)
      cases found.symm.trans ha
      exact ha'

end

/-! ## Numbered instants -/

/-- A node is no reference after a jump, and if it is a quantifier, it is one over an instant with a
number from `n` up to `m` that is not quantified again below it. -/
def BindsOnce (n m : Nat) : Term → Prop
  | next _ => False
  | quant _ v body =>
    (∃ i, n ≤ i ∧ i < m ∧ v = Symbol.instant i) ∧ ∀ q rest, quant q v rest ∉ body.subterms
  | _ => True

/-- The free variables of a term are known or instants in scope, and every quantifier in it is over
an instant with a number from `n` up to `m` that is not quantified again below it. -/
structure Sealed (K : Var → Prop) (is : List Nat) (n m : Nat) (t : Term) : Prop where
  openIn : t.OpenIn fun v => K v ∨ ∃ i ∈ is, v = Symbol.instant i
  binds : ∀ a ∈ t.subterms, a.BindsOnce n m

section

variable {K : Var → Prop} {is : List Nat} {n n' m m' : Nat} {t : Term}

theorem BindsOnce.widen (hn : n' ≤ n) (hm : m ≤ m') (h : t.BindsOnce n m) : t.BindsOnce n' m' := by
  cases t with
  | next => exact h
  | quant q v body =>
    obtain ⟨⟨i, hni, him, rfl⟩, once⟩ := h
    exact ⟨⟨i, hn.trans hni, him.trans_le hm, rfl⟩, once⟩
  | _ => trivial

theorem BindsOnce.still (h : t.BindsOnce 0 0) : t.BindsOnce n m := by
  cases t with
  | next => exact h
  | quant q v body =>
    obtain ⟨⟨i, -, hi, -⟩, -⟩ := h
    cases hi
  | _ => trivial

theorem hereditary_sealed : Hereditary (Sealed K is n m) := by
  have nodes : Hereditary fun t => ∀ a ∈ t.subterms, a.BindsOnce n m :=
    hereditary_subterms fun t o ho => by cases t <;> cases ho <;> trivial
  intro t o ho
  constructor
  · exact fun h a ha => ⟨(hereditary_openIn t o ho).1 h.openIn a ha, (nodes t o ho).1 h.binds a ha⟩
  · exact fun h => ⟨(hereditary_openIn t o ho).2 fun a ha => (h a ha).openIn,
      (nodes t o ho).2 fun a ha => (h a ha).binds⟩

theorem sealed_var {v : Var} (hv : K v ∨ ∃ i ∈ is, v = Symbol.instant i) :
    (var v).Sealed K is n m :=
  ⟨⟨rfl, fun w hw => mentions_var.1 hw ▸ hv⟩, by simp [BindsOnce]⟩

/-- A quantifier over the first number closes a term in its instant. -/
theorem Sealed.quant {q : Quantifier} (hnm : n < m) (h : t.Sealed K (n :: is) (n + 1) m) :
    (Term.quant q (Symbol.instant n) t).Sealed K is n m where
  openIn := by
    refine OpenIn.close (h.openIn.mono ?_)
    rintro v (hv | ⟨i, hi, rfl⟩)
    · exact Or.inl (Or.inl hv)
    · rcases List.mem_cons.1 hi with rfl | hi
      · exact Or.inr rfl
      · exact Or.inl (Or.inr ⟨i, hi, rfl⟩)
  binds a ha := by
    rcases List.mem_cons.1 (subterms_quant q _ t ▸ ha) with rfl | ha
    · refine ⟨⟨n, le_rfl, hnm, rfl⟩, fun q' rest hq => ?_⟩
      obtain ⟨⟨i, hi, -, same⟩, -⟩ := h.binds _ hq
      rw [Symbol.instant_inj] at same
      omega
    · exact (h.binds a ha).widen (Nat.le_succ n) le_rfl

theorem scoping_sealed : Formula.Scoping (Sealed K) where
  hereditary _ _ _ := hereditary_sealed
  instant hi := sealed_var (Or.inr ⟨_, hi, rfl⟩)
  enter i h := ⟨h.openIn.mono fun _ hv => hv.imp_right fun ⟨j, hj, same⟩ =>
    ⟨j, List.mem_cons_of_mem i hj, same⟩, h.binds⟩
  still h := ⟨h.openIn, fun a ha => (h.binds a ha).still⟩
  widen hn hm h := ⟨h.openIn, fun a ha => (h.binds a ha).widen hn hm⟩
  quantify q hnm h := by
    unfold mkQuant
    split
    · next b hb =>
      rcases truth?_eq_some hb with rfl | ⟨⟨s, x, rfl⟩, -⟩
      · exact hereditary_sealed.bool b
      · exact hereditary_sealed.num s x
    · exact h.quant hnm

end

end Term

/-! ## Cells -/

namespace Automaton

variable {m : Automaton} {k : Int}

/-- The terms that cells are made of are built from identifiers, and solutions from the clock of
their mode besides. -/
structure Elementary (m : Automaton) : Prop where
  guard : ∀ md ∈ m.modes, md.guard.BuiltOver (m.IdentifiesMode fun _ => False)
  rate : ∀ md ∈ m.modes, ∀ id a, Table.get? md.flow.rates id = some a →
    a.BuiltOver (m.Identifies fun _ => False)
  solution : ∀ md ∈ m.modes, ∀ id a, Table.get? md.flow.solution id = some a →
    a.BuiltOver (m.Identifies (· = md.flow.clock))

theorem elementary_of_spelled {d : Definition} (spelled : d.Spelled)
    (h : ofDefinition d = .ok m) : m.Elementary := by
  have keeps := keepsClocks_of_written spelled.written h
  have built := built_of_ofDefinition h
  have mode {md : Mode} (hmd : md ∈ m.modes) :
      ∃ x : ModeDef, x.Spelled d.Lists ∧ x.complete = md := by
    obtain ⟨x, hx, checked⟩ := built.modes md hmd
    exact ⟨x, spelled.modes x hx, Definition.complete_of_checkMode checked⟩
  refine ⟨fun md hmd => (keeps.guard md hmd).builtOver ?_,
    fun md hmd id a ha => (keeps.rate md hmd id a ha).builtOver ?_,
    fun md hmd id a ha => (keeps.solution md hmd id a ha).builtOver ?_⟩
  · obtain ⟨x, hx, rfl⟩ := mode hmd
    cases hguard : x.guard with
    | none =>
      simp only [ModeDef.complete, hguard]
      rfl
    | some t =>
      simp only [ModeDef.complete, hguard]
      exact (hx.guard t hguard).quantFree
  · obtain ⟨x, hx, rfl⟩ := mode hmd
    exact (hx.rates _ (Table.mem_of_get? ha)).quantFree
  · obtain ⟨x, hx, rfl⟩ := mode hmd
    exact (hx.solution _ (Table.mem_of_get? ha)).quantFree

section

variable (accepted : m.Accepted) {H : Term → Prop}
include accepted

/-- A mode variable is read as its symbol in a step. -/
theorem Accepted.reads_discrete (start : ∀ v, m.StartSymbol k v → H (.var v)) {name : String}
    (hname : name ∈ Table.names m.modeVars) :
    ∃ a, (m.discreteSubst k).get? name = some a ∧ H a := by
  obtain ⟨a, ha⟩ := Table.exists_get?_of_mem_names
    (mem_names_discreteSubst (k := k).2 (Or.inl hname))
  obtain ⟨v, rfl, hv⟩ := accepted.start_of_discrete (Or.inr hname) (Table.mem_of_get? ha)
  exact ⟨_, ha, start v hv⟩

/-- An identifier is read as its symbol in a step or, if it changes, as its value in a state. -/
theorem Accepted.reads_state (start : ∀ v, m.StartSymbol k v → H (.var v)) {state : Subst}
    (names : Table.names state = Table.names m.stateVars) (values : ∀ e ∈ state, H e.2)
    {name : String} (hname : m.HasName name) :
    ∃ a, ((m.discreteSubst k).merge state).get? name = some a ∧ H a := by
  have found : name ∈ Table.names ((m.discreteSubst k).merge state) := by
    rw [Table.mem_names_merge, names, mem_names_discreteSubst]
    exact hname.symm.imp_left Or.inl
  obtain ⟨a, ha⟩ := Table.exists_get?_of_mem_names found
  refine ⟨a, ha, ?_⟩
  rcases Table.mem_of_get?_merge ha with h | h
  · obtain ⟨v, rfl, hv⟩ := accepted.start_of_discrete hname h
    exact start v hv
  · exact values _ h

variable (elementary : m.Elementary)
include elementary

/-- The cells of a constraint are built from the symbols at the start of a step and the time since
then. -/
theorem Elementary.constraintAt {c u : Term} (hc : c.BuiltOver (m.Identifies fun _ => False))
    (h : m.constraintAt c k (.var Symbol.offset) = .ok u) :
    u.BuiltOver fun v => m.StartSymbol k v ∨ v = Symbol.offset := by
  have begins {K : Var → Prop} (v : Var) (hv : m.StartSymbol k v) :
      (Term.var v).BuiltOver fun v => m.StartSymbol k v ∨ K v := .var (Or.inl hv)
  have entry {K : Var → Prop} : ∀ e ∈ m.stateSubst k .entry,
      e.2.BuiltOver fun v => m.StartSymbol k v ∨ K v := by
    intro e he
    obtain ⟨d, hd, rfl⟩ := List.mem_map.1 he
    exact begins _ (.state hd)
  have context {K : Var → Prop} {name : String} (hname : m.HasName name) :=
    accepted.reads_state (begins (K := K)) (names_stateSubst k .entry) entry hname
  obtain ⟨us, rfl, alternatives⟩ := exists_of_constraintAt h
  refine hereditary_builtOver.mkOr fun u hu => ?_
  obtain ⟨md, hmd, state, guard, value, hstate, hguard, hvalue, rfl⟩ := alternatives u hu
  have active : guard.BuiltOver fun v => m.StartSymbol k v ∨ v = Symbol.offset :=
    (elementary.guard md hmd).resolve hereditary_builtOver
      (fun _ hname => accepted.reads_discrete begins hname) (fun _ h => h.elim) hguard
  have advances : SegmentOf.Advances (BuiltOver fun v => m.StartSymbol k v ∨ v = Symbol.offset)
      (m.segment md (.var Symbol.offset) k) (.var Symbol.offset) :=
    { duration := .var (Or.inr rfl)
      entry := entry
      solution := fun id sol a u hsol ha hu => by
        have solved : a.BuiltOver fun v => m.StartSymbol k v ∨ v = md.flow.clock :=
          (elementary.solution md hmd id sol hsol).resolve hereditary_builtOver
            (fun _ hname => context hname) (fun _ hv => .var (Or.inr hv)) ha
        exact solved.replace hereditary_builtOver begins (.var (Or.inr rfl)) hu
      rate := fun id rate a hrate ha =>
        (elementary.rate md hmd id rate hrate).resolve hereditary_builtOver
          (fun _ hname => context hname) (fun _ h => h.elim) ha }
  obtain ⟨names, values⟩ := advances.after hereditary_builtOver.kept hstate
  have reached := hc.resolve hereditary_builtOver
    (fun _ hname => accepted.reads_state begins (names.trans (names_stateSubst k .entry)) values
      hname) (fun _ h => h.elim) hvalue
  exact hereditary_builtOver.mkAnd (by simpa using ⟨active, reached⟩)

end

/-- What the value of a formula on a trace with `N` jumps may read: the ends of the steps, symbols
at the start of a step, those of the propositions of the formula, and witnesses with a
subformula. -/
inductive TraceSymbol (m : Automaton) (N : Nat) (f : Formula) (sub : Table Formula) : Var → Prop
  | tau {k : Nat} (hk : k ≤ N) : TraceSymbol m N f sub (Symbol.tau k)
  | mode {id : String} {s : TermSort} (h : (id, s) ∈ m.modeVars) {k : Nat} (hk : k ≤ N) :
      TraceSymbol m N f sub (Symbol.discrete id s k)
  | prop {id : String} (h : Formula.prop id ∈ f.parts) {k : Nat} (hk : k ≤ N) :
      TraceSymbol m N f sub (Symbol.discrete id .bool k)
  | state {id : String} {s : TermSort} (h : (id, s) ∈ m.stateVars) {k : Nat} (hk : k ≤ N) :
      TraceSymbol m N f sub (Symbol.state id s k .entry)
  | witness {i : Nat} (h : (sub.get? (Symbol.witness i).name).isSome = true) :
      TraceSymbol m N f sub (Symbol.witness i)

section

variable {N : Nat} {f : Formula} {sub : Table Formula} {v : Var}

theorem StartSymbol.trace {k : Nat} (hk : k ≤ N) (h : m.StartSymbol k v) :
    m.TraceSymbol N f sub v := by
  cases h with
  | mode h => exact .mode h hk
  | state h => exact .state h hk

theorem TraceSymbol.role_ne (h : m.TraceSymbol N f sub v) :
    v.role ≠ .logical ∧ v.role ≠ .bound := by
  cases h <;> exact ⟨nofun, nofun⟩

theorem stops_sealed : Formula.Stops (Sealed (m.TraceSymbol N f sub)) ⟨N⟩ := by
  refine ⟨Int.natCast_nonneg N, fun is k h0 hk => sealed_var (Or.inl ?_)⟩
  lift k to Nat using h0
  exact .tau (Int.ofNat_le.1 hk)

/-- An atom of a formula that was read: a constraint on declared variables, or a proposition of the
formula. -/
def IsAtomOf (m : Automaton) (f : Formula) (g : Formula) : Prop :=
  g.Regular m.scope.Declares m.scope.Proposes ∧ ∀ name, g = .prop name → g ∈ f.parts

theorem isAtomOf_nnf {s : String} (read : Formula.ofText m.scope s = .ok f) :
    f.nnf.Every (m.IsAtomOf f) fun w => 0 ≤ w.lower := by
  have regular := Formula.regular_of_ofText read
  have atoms : f.nnf.Every (fun g => g.Regular m.scope.Declares m.scope.Proposes)
      fun w => 0 ≤ w.lower :=
    (regular.normal false).every (fun _ => trivial) (fun _ h => h) fun _ h => h
  have own : f.Every (fun g => ∀ name, g = .prop name → g ∈ f.parts) fun _ => True :=
    Formula.every_of_parts fun g hg _ _ => hg
  exact (atoms.and (own.normal (fun _ _ => nofun) (fun _ _ _ => nofun) false)).mono
    (fun _ h => h) fun _ h => h.1

theorem Elementary.cell (accepted : m.Accepted) (elementary : m.Elementary) {a : Atomic}
    (ha : m.IsAtomOf f a.formula) {k : Nat} (hk : k ≤ N) {c : Term}
    (h : BaseValuation.cell m.signal a k = .ok c) :
    c.BuiltOver fun v => m.TraceSymbol N f sub v ∨ v = Symbol.offset := by
  cases a with
  | prop name =>
    obtain ⟨t, ht⟩ := definition_of_scope ha.1
    have h : m.propositionAt name k = .ok c := h
    rw [propositionAt, Table.has, ht] at h
    cases h
    exact .var (Or.inl (.prop (ha.2 name rfl) hk))
  | constraint c =>
    have hc := (IsAtom.builtOver ha.1).mono
      (fun v hv => accepted.identifies_of_scope (K := fun _ => False) hv) (fun _ h => h)
      fun _ h => h
    exact (elementary.constraintAt accepted hc h).mono
      (fun v hv => hv.imp_left (StartSymbol.trace hk)) (fun _ h => h) fun _ h => h

end

end Automaton

open Automaton

/-- The value of a formula on a loaded model is closed over the trace: its free variables are the
ends of the steps, symbols at the start of a step, those of the propositions of the formula, and
witnesses. No identifier, no reference after a jump, no clock and no flow primitive is left in it,
and neither is the time since a step began. Only instants are quantified over, none of them is free,
and none is quantified again below its quantifier. -/
theorem valuation_closed {text : String} {m : Automaton} {file : ModelFile}
    (h : ModelFile.load text = .ok (m, file)) {s : String} {f : Formula}
    (read : Formula.ofText m.scope s = .ok f) {N : Nat} {g : Formula.Guessed}
    (guessed : f.guess ⟨N⟩ = .ok g) {bv : BaseValuation}
    (made : BaseValuation.tabulate g.partition ⟨N⟩ m.signal = .ok bv) {u : Term}
    (valued : (f.separate g.guesses).valuation (Window.point 0) bv = .ok u) :
    (∀ v ∈ u.freeVars, m.TraceSymbol N f (f.separate g.guesses).sub v ∧ v.role ≠ .logical ∧
      v ≠ Symbol.offset ∧ (∀ md ∈ m.modes, v ≠ md.flow.clock) ∧ ∀ i, v ≠ Symbol.instant i) ∧
    (∀ v, Term.next v ∉ u.subterms) ∧ u.flowFree = true ∧
    ∀ q v body, Term.quant q v body ∈ u.subterms →
      (∃ i : Nat, v = Symbol.instant i) ∧ ∀ q' rest, Term.quant q' v rest ∉ body.subterms := by
  obtain ⟨d, hd, made'⟩ := ModelFile.definition_of_load h
  have accepted := accepted_of_ofDefinition made'
  have elementary := elementary_of_spelled (ModelFile.spelled_of_definition hd) made'
  have collects := (Formula.regular_of_ofText read).collects_of_guess guessed (isAtomOf_nnf read)
  have fills : Formula.Fills (Sealed (m.TraceSymbol N f (f.separate g.guesses).sub)) bv :=
    Formula.fills_of_tabulate made fun e he k hk c hc is d u hd hu => by
      obtain ⟨n, hn, rfl⟩ := mem_steps.1 hk
      exact (elementary.cell accepted (collects.entries e he).part (Nat.le_of_lt_succ hn)
        hc).replace hereditary_sealed (fun v hv => sealed_var (Or.inl hv)) hd hu
  obtain ⟨n, closed⟩ := scoping_sealed.valuation_of_guess guessed stops_sealed made collects.listed
    fills (fun i hi is => sealed_var (Or.inl (.witness hi))) rfl valued
  refine ⟨fun v hv => ?_, fun v hv => closed.binds _ hv, closed.openIn.flowFree,
    fun q v body hq => ?_⟩
  · have symbol := (closed.openIn.free v (mem_freeVars.1 hv)).resolve_right (by simp)
    obtain ⟨logical, bound⟩ := symbol.role_ne
    refine ⟨symbol, logical, ?_, fun md hmd => ?_, fun i => ?_⟩
    · rintro rfl
      exact bound rfl
    · rintro rfl
      exact bound (FlowOf.of_valid (accepted.modes md hmd).flow).1
    · rintro rfl
      exact bound rfl
  · obtain ⟨⟨i, -, -, same⟩, once⟩ := closed.binds _ hq
    exact ⟨⟨i, same⟩, once⟩

/-! ## A crossing -/

/-- The creep stays below two for one more unit of time until it is above two. -/
def crossing : Formula :=
  .untl ⟨some 0, some 3, false, false⟩
    (.always ⟨some 0, some 1, false, false⟩ (.atom (.cmp .lt (.var crept) (.real 2))))
    (.atom (.cmp .gt (.var crept) (.real 2)))

theorem ofText_crossing :
    Formula.ofText creeping.scope "[]_[0,1] x < 2 U_[0,3] x > 2" = .ok crossing := by cbv

theorem wellSorted_creeping : creeping.WellSorted := by decide

theorem wellSorted_crossing : crossing.WellSorted := by
  refine ⟨trivial, ⟨trivial, fun c hc => ?_⟩, fun c hc => ?_⟩
  · cases hc
    exact ⟨rfl, rfl⟩
  · cases hc
    exact ⟨rfl, rfl⟩

theorem valuation_closed_crossing :
    ModelFile.load creepText = .ok (creeping, creepFile) ∧
    Formula.ofText creeping.scope "[]_[0,1] x < 2 U_[0,3] x > 2" = .ok crossing ∧
    ∃ g bv u, crossing.guess ⟨1⟩ = .ok g ∧
      BaseValuation.tabulate g.partition ⟨1⟩ creeping.signal = .ok bv ∧
      (crossing.separate g.guesses).valuation (Window.point 0) bv = .ok u ∧
      ∀ v ∈ u.freeVars, creeping.TraceSymbol 1 crossing (crossing.separate g.guesses).sub v := by
  obtain ⟨d, -, made⟩ := ModelFile.definition_of_load load_creep
  obtain ⟨g, bv, u, _, encodes, -⟩ := wellSorted_creeping.exists_encoded
    (accepted_of_ofDefinition made) (Formula.regular_of_ofText ofText_crossing).over
    wellSorted_crossing 1
  have guessed := encodes.guessed
  have tabulated := encodes.tabulates.made
  have valued := encodes.valued
  obtain ⟨free, -⟩ := valuation_closed load_creep ofText_crossing guessed tabulated valued
  exact ⟨load_creep, ofText_crossing, g, bv, u, guessed, tabulated, valued,
    fun v hv => (free v hv).1⟩

end HybridCheck
