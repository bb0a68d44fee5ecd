import HybridCheck.Proofs.BoundedEncoding
import HybridCheck.Proofs.Instants
import HybridCheck.Proofs.Symbols
import HybridCheck.Proofs.Translation

/-!
# Where variables come from

Every variable in the expanded constraints for a bound was generated, as the symbol of an identifier
in a step or as a point in time, or it was written into the automaton: as the clock of a mode, or as
a bound variable of a term. The name of a generated symbol tells which one it is, and it is no
identifier. So a name determines its variable if the variables that were written have identifiers
for names and can be told apart themselves. But the names of clocks are not checked when a
definition is accepted, and a clock may be named like a generated symbol.
-/

namespace HybridCheck

open Term

/-- A variable occurs in a term, be it only as that of a quantifier. -/
def Term.Occurs (t : Term) (v : Var) : Prop := Term.var v ∈ t.subterms ∨ t.Binds v

/-! ## Points in time -/

def Symbol.Origin.identifier? : Symbol.Origin → Option String
  | discrete id _ | state id _ _ => some id
  | time _ | tau _ | witness _ | instant _ | offset => none

/-- The instants at which the steps of a timeline end are known, and so are the variables that
formulas bind. -/
structure KnowsPoints (K B : Var → Prop) (b : Timeline) : Prop where
  horizon : 0 ≤ b.horizon
  tau : ∀ k, 0 ≤ k → k ≤ b.horizon → K (Symbol.tau k)
  instant : ∀ n, K (Symbol.instant n) ∧ B (Symbol.instant n)
  offset : K Symbol.offset

/-- All variables of a term are known, whatever instants are in scope. -/
abbrev Formula.Knows (K B : Var → Prop) (_is : List Nat) (_n _m : Nat) (t : Term) : Prop :=
  t.Resolved K B noReference

section

variable {K B : Var → Prop} {b : Timeline} (points : KnowsPoints K B b)
include points

theorem KnowsPoints.stops : Formula.Stops (Formula.Knows K B) b :=
  ⟨points.horizon, fun _ k h0 hk => uses_var.2 (points.tau k h0 hk)⟩

theorem KnowsPoints.scoping : Formula.Scoping (Formula.Knows K B) where
  hereditary _ _ _ := hereditary_uses
  instant _ := uses_var.2 (points.instant _).1
  enter _ h := h
  still h := h
  widen _ _ h := h
  quantify q _ h := h.mkQuant q (points.instant _).2

end

/-! ## Automata -/

namespace Automaton

variable {m : Automaton} {K B : Var → Prop}

/-- A generated symbol: the one of a declared identifier, which has its sort, or a point in time. -/
def Generates (m : Automaton) (v : Var) : Prop :=
  ∃ o : Symbol.Origin, v = o.symbol v.sort ∧
    ∀ id ∈ o.identifier?, ∃ d, m.scope.get? id = some d ∧ d.sort = v.sort

/-- A bound variable that was written into an automaton: the clock of a mode, or a variable in one
of its terms. -/
def Writes (m : Automaton) (v : Var) : Prop :=
  v.role = .bound ∧
    ((∃ md ∈ m.modes, v = md.flow.clock) ∨ ∃ t ∈ m.terms, Term.var v ∈ t.subterms)

def Known (m : Automaton) (v : Var) : Prop := m.Generates v ∨ m.Writes v

def Binds (m : Automaton) (v : Var) : Prop := ∃ t ∈ m.terms, t.Binds v

/-- A variable whose origin is known, as that of a quantifier. -/
def KnownBound (m : Automaton) (v : Var) : Prop := m.Known v ∨ m.Binds v

theorem generates_point {o : Symbol.Origin} (h : o.identifier? = none) :
    m.Generates (o.symbol .real) := by
  have sort : (o.symbol .real).sort = .real := by cases o <;> rfl
  exact ⟨o, by rw [sort], by simp [h]⟩

theorem uses_known {R : String → Prop} {Q : Var → Prop} {t : Term} (ht : t ∈ m.terms)
    (h : t.Uses (Refers R fun v => v.role = .bound ∨ m.Generates v) Q anyBinder noPrimitive) :
    t.Uses (Refers R m.Known) Q m.KnownBound noPrimitive := by
  refine h.weaken (fun v hv refers => ⟨refers.identifier, fun hr => ?_⟩) (fun _ _ h => h)
    (fun v hv _ => Or.inr ⟨t, ht, hv⟩) fun _ h => h
  rcases refers.known hr with bound | generated
  · exact Or.inr ⟨bound, Or.inr ⟨t, ht, hv⟩⟩
  · exact Or.inl generated

theorem generates_of_scope {id : String} {d : Decl} (hd : m.scope.get? id = some d)
    {o : Symbol.Origin} (ho : o.identifier? = some id) : m.Generates (o.symbol d.sort) := by
  have sort : (o.symbol d.sort).sort = d.sort := by cases o <;> first | rfl | cases ho
  refine ⟨o, by rw [sort], fun id' hid => ?_⟩
  cases ho.symm.trans hid
  exact ⟨d, hd, sort.symm⟩

section

variable (accepted : m.Accepted) {k : Int}
include accepted

theorem Accepted.generates_prop {name : String} (h : name ∈ Table.names m.props) :
    m.Generates (Symbol.discrete name .bool k) := by
  have declared : m.scope.get? name = some { sort := .bool, isProp := true } := by
    refine accepted.get?_scope (List.mem_append_right _ ?_)
    simpa [Table.names] using h
  exact generates_of_scope declared (o := .discrete name k) rfl

/-- Identifiers are replaced by generated symbols. -/
theorem Accepted.generates_symbol {p : Phase} {e : String × Term}
    (he : e ∈ m.discreteSubst k ++ m.stateSubst k p) : ∃ v, e.2 = .var v ∧ m.Generates v := by
  have declared {id : String} {s : TermSort} (h : (id, s) ∈ m.stateVars ∨ (id, s) ∈ m.modeVars) :
      m.scope.get? id = some { sort := s } := by
    refine accepted.get?_scope (List.mem_append_left _ ?_)
    simpa using h
  rcases List.mem_append.1 he with he | he
  · obtain ⟨⟨id, s⟩, hd, rfl⟩ | ⟨d, hd, rfl⟩ := mem_discreteSubst he
    · exact ⟨_, rfl, generates_of_scope (declared (Or.inr hd)) (o := .discrete id k) rfl⟩
    · exact ⟨_, rfl, accepted.generates_prop (List.mem_map_of_mem hd)⟩
  · obtain ⟨⟨id, s⟩, hd, rfl⟩ := List.mem_map.1 he
    exact ⟨_, rfl, generates_of_scope (declared (Or.inl hd)) (o := .state id k p) rfl⟩

end

/-- All variables of an accepted automaton are known. -/
theorem referring_known {d : Definition} (h : ofDefinition d = .ok m) :
    m.Referring m.Known m.KnownBound := by
  have accepted := accepted_of_ofDefinition h
  have referring : m.Referring (fun v => v.role = .bound ∨ m.Generates v) anyBinder :=
    (built_of_ofDefinition h).referring fun v => Or.inl
  have clock (md : Mode) (hmd : md ∈ m.modes) : m.Known md.flow.clock :=
    Or.inr ⟨(FlowOf.of_valid (accepted.modes md hmd).flow).1, Or.inl ⟨md, hmd, rfl⟩⟩
  have inMode {md : Mode} (hmd : md ∈ m.modes) {t : Term}
      (ht : t ∈ md.guard :: md.invariant :: md.flow.terms) : t ∈ m.terms :=
    mem_terms.2 (Or.inr (Or.inr (Or.inl ⟨md, hmd, ht⟩)))
  have inJump {j : Jump} (hj : j ∈ m.jumps) {t : Term} (ht : t ∈ [j.guard, j.reset]) :
      t ∈ m.terms :=
    mem_terms.2 (Or.inr (Or.inr (Or.inr ⟨j, hj, ht⟩)))
  exact
    { init := uses_known (mem_terms.2 (Or.inl rfl)) referring.init
      props := fun e he =>
        uses_known (mem_terms.2 (Or.inr (Or.inl ⟨e, he, rfl⟩))) (referring.props e he)
      guard := fun md hmd => uses_known (inMode hmd (by simp)) (referring.guard md hmd)
      invariant := fun md hmd => uses_known (inMode hmd (by simp)) (referring.invariant md hmd)
      clock := fun md hmd => ⟨clock md hmd, Or.inl (clock md hmd)⟩
      flow := fun md hmd id a ha =>
        uses_known (inMode hmd (by simp [mem_flowTerms ha])) (referring.flow md hmd id a ha)
      jumps := fun j hj => ⟨uses_known (inJump hj (by simp)) (referring.jumps j hj).1,
        uses_known (inJump hj (by simp)) (referring.jumps j hj).2⟩ }

/-- All symbols of a step are known. -/
theorem Accepted.sights_known (accepted : m.Accepted) (k : Int) : m.Sights m.Known k where
  symbol p e he := by
    obtain ⟨v, hv, generated⟩ := accepted.generates_symbol he
    exact ⟨v, hv, Or.inl generated⟩
  prop name hname := Or.inl (accepted.generates_prop hname)
  time := Or.inl (generates_point (o := .time k) rfl)

/-! ## Queries -/

section

variable {k : Int} {c offset u : Term}

theorem Accepted.identifies_of_scope (accepted : m.Accepted) {v : Var} (h : m.scope.Declares v) :
    m.Identifies K v := by
  obtain ⟨role, declared⟩ := accepted.declares_of_scope h
  refine ⟨fun _ => declared.imp (fun hd => ?_) fun hd => ?_, fun hr => absurd role hr⟩
  · exact List.mem_map_of_mem (Table.mem_of_get? hd)
  · exact List.mem_map_of_mem (Table.mem_of_get? hd)

theorem Accepted.uses_of_isAtom (accepted : m.Accepted) (h : IsAtom m.scope.Declares c) :
    c.Uses (m.Identifies K) noReference B noPrimitive :=
  h.builtOver.uses.mono (fun _ => accepted.identifies_of_scope) (fun _ h => h) fun _ h => h

/-- Some time into a step a constraint is a choice between the modes: the guard holds at the start,
and the constraint in the state that the flow of the mode has reached. -/
theorem exists_of_constraintAt (h : m.constraintAt c k offset = .ok u) :
    ∃ us, u = mkOr us ∧ ∀ a ∈ us, ∃ md ∈ m.modes, ∃ state guard value,
      md.flow.after (m.stateSubst k .entry) (m.discreteSubst k) offset = .ok state ∧
        md.guard.substitute (m.discreteSubst k) = .ok guard ∧
        c.substitute ((m.discreteSubst k).merge state) = .ok value ∧ a = mkAnd [guard, value] := by
  obtain ⟨_, -, h⟩ := Attempt.bind_eq_ok.1 h
  obtain ⟨us, hus, h⟩ := Attempt.bind_eq_ok.1 h
  cases h
  refine ⟨us, rfl, fun a ha => ?_⟩
  obtain ⟨md, hmd, ha⟩ := Attempt.mem_of_mapM hus ha
  obtain ⟨state, hstate, ha⟩ := Attempt.bind_eq_ok.1 ha
  obtain ⟨guard, hguard, ha⟩ := Attempt.bind_eq_ok.1 ha
  obtain ⟨value, hvalue, ha⟩ := Attempt.bind_eq_ok.1 ha
  cases ha
  exact ⟨md, hmd, state, guard, value, Attempt.within_eq_ok.1 hstate, hguard, hvalue, rfl⟩

section

variable (referring : m.Referring K B) (sights : m.Sights K k)
include referring sights

/-- A constraint read some time into a step. -/
theorem Referring.constraintAt (hc : c.Uses (m.Identifies K) noReference B noPrimitive)
    (ho : offset.Resolved K B noReference) (h : m.constraintAt c k offset = .ok u) :
    u.Resolved K B noReference := by
  obtain ⟨us, rfl, alternatives⟩ := exists_of_constraintAt h
  refine hereditary_uses.mkOr fun u hu => ?_
  obtain ⟨md, hmd, state, guard, value, hstate, hguard, hvalue, rfl⟩ := alternatives u hu
  obtain ⟨names, reached⟩ := (referring.grounded sights ho hmd).after ho hstate
  have value : value.Resolved K B noReference := by
    refine hc.resolve (fun name hname => ?_) (fun e he => ?_) hvalue
    · rw [Table.mem_names_merge, names, mem_names_discreteSubst]
      rcases hname with hname | hname
      · exact Or.inr ((names_stateSubst (m := m) k .entry).symm ▸ hname)
      · exact Or.inl (Or.inl hname)
    · rcases Table.mem_of_mem_putAll he with he | he
      · exact reached e he
      · exact sights.symbol_resolved (p := .entry) (Or.inl he)
  exact hereditary_uses.mkAnd (by
    simpa using ⟨referring.guard_resolved sights hmd hguard, value⟩)

theorem Referring.cell (accepted : m.Accepted) (offset : K Symbol.offset) {a : Atomic}
    (ha : a.formula.Regular m.scope.Declares m.scope.Proposes)
    (h : BaseValuation.cell m.signal a k = .ok u) : u.Resolved K B noReference := by
  cases a with
  | prop name =>
    obtain ⟨t, ht⟩ := definition_of_scope ha
    have h : m.propositionAt name k = .ok u := h
    rw [propositionAt, Table.has, ht] at h
    cases h
    exact uses_var.2 (sights.prop name (List.mem_map_of_mem (Table.mem_of_get? ht)))
  | constraint c =>
    exact referring.constraintAt sights (accepted.uses_of_isAtom ha) (uses_var.2 offset) h

end

/-- The stages of an encoding, one after the other. -/
theorem exists_of_encode {f : Formula} {N : Nat} {T : Option Rat} {q : Search.Query}
    (h : Search.encode m m.encoder T f N = .ok q) : ∃ g bv u ts, f.guess ⟨N⟩ = .ok g ∧
      BaseValuation.tabulate g.partition ⟨N⟩ m.signal = .ok bv ∧
      (f.separate g.guesses).valuation (Window.point 0) bv = .ok u ∧
      m.constraints N T g.partition.propositions g.constraints [u] = .ok ts ∧
      q.constraints = ts ++ g.constraints ++ [u] := by
  obtain ⟨g, hg, h⟩ := Attempt.bind_eq_ok.1 h
  obtain ⟨_, hseparated, h⟩ := Attempt.bind_eq_ok.1 h
  cases Attempt.within_eq_ok.1 hseparated
  obtain ⟨bv, made, h⟩ := Attempt.bind_eq_ok.1 h
  obtain ⟨u, hu, h⟩ := Attempt.bind_eq_ok.1 h
  obtain ⟨ts, hts, h⟩ := Attempt.bind_eq_ok.1 h
  cases h
  exact ⟨g, bv, u, ts, Attempt.within_eq_ok.1 hg, Attempt.within_eq_ok.1 made,
    Attempt.within_eq_ok.1 hu, Attempt.within_eq_ok.1 hts, rfl⟩

/-- All variables in the constraints for a formula that was read are known, if the symbols of the
steps, the ends of the steps and the witnesses are. -/
theorem Referring.encode (referring : m.Referring K B) (accepted : m.Accepted) {s : String}
    {f : Formula} (read : Formula.ofText m.scope s = .ok f) {N : Nat}
    (sights : ∀ k, Visits N k → m.Sights K k) (points : KnowsPoints K B ⟨N⟩)
    (witnesses : ∀ g, f.guess ⟨N⟩ = .ok g → ∀ key w, g.guesses.get? key = some w → K w)
    {T : Option Rat} {q : Search.Query} (h : Search.encode m m.encoder T f N = .ok q) :
    ∀ t ∈ q.constraints, t.Pending K B m.PostJumpMode := by
  obtain ⟨g, bv, u, ts, hg, made, hu, hts, split⟩ := exists_of_encode h
  rw [split]
  have regular := Formula.regular_of_ofText read
  have parts : f.nnf.Every (fun g => g.Regular m.scope.Declares m.scope.Proposes)
      fun w => 0 ≤ w.lower :=
    (regular.normal false).every (fun _ => trivial) (fun _ h => h) fun _ h => h
  have collects := regular.collects_of_guess hg parts
  have witnesses := witnesses g hg
  have fills : Formula.Fills (Formula.Knows K B) bv :=
    Formula.fills_of_tabulate made fun e he k hk c hc is d v hd hv =>
      (referring.cell (sights k (visits_of_mem_succ hk)) accepted points.offset
        (collects.entries e he).part hc).replace hd hv
  have guessed (i : Nat)
      (hi : ((f.separate g.guesses).sub.get? (Symbol.witness i).name).isSome = true) :
      (var (Symbol.witness i)).Resolved K B noReference := by
    obtain ⟨key, hkey⟩ := Formula.guesses_of_separate hg hi
    exact uses_var.2 (witnesses key _ hkey)
  obtain ⟨_, value⟩ := points.scoping.valuation_of_guess hg points.stops made collects.listed
    fills (fun i hi _ => guessed i hi) rfl hu
  have placed : ∀ t ∈ g.constraints, t.Resolved K B noReference := by
    intro t ht
    obtain ⟨key, w, hw, rfl⟩ := (Formula.placed_of_guess hg).guessed t ht
    exact hereditary_uses.domain (points.stops.stop [] _ points.horizon le_rfl)
      (uses_var.2 (witnesses key w hw))
  have formula : ∀ t ∈ g.constraints ++ [u], t.Resolved K B noReference :=
    List.forall_mem_append.2 ⟨placed, by simpa using value⟩
  rw [List.append_assoc]
  refine List.forall_mem_append.2 ⟨?_, fun t ht => (formula t ht).awaits⟩
  refine referring.constraints_of_points sights
    (fun k hk => referring.spends (sights k hk) (uses_var.2 (sights k hk).time))
    (fun k hk => points.tau k ?_ ?_) (fun t ht v hv _ => ?_) hts
  · unfold Visits at hk
    omega
  · unfold Visits at hk
    show k ≤ N
    omega
  · exact formula t ht _ (mem_subterms_of_mentions hv)

end

theorem exists_of_expandAll {i : Nat} {ts es : List Term} (h : Solver.expandAll i ts = .ok es) :
    ∀ e ∈ es, ∃ t ∈ ts, t.expand = .ok e := by
  induction ts generalizing i es with
  | nil =>
    cases h
    simp
  | cons t ts ih =>
    obtain ⟨e, he, h⟩ := Attempt.bind_eq_ok.1 h
    obtain ⟨later, hlater, h⟩ := Attempt.bind_eq_ok.1 h
    cases h
    refine List.forall_mem_cons.2 ⟨⟨t, by simp, Attempt.within_eq_ok.1 he⟩, fun e' he' => ?_⟩
    obtain ⟨t', ht', expanded⟩ := ih hlater e' he'
    exact ⟨t', by simp [ht'], expanded⟩

theorem exists_of_mem_expandAll {i : Nat} {ts es : List Term}
    (h : Solver.expandAll i ts = .ok es) : ∀ t ∈ ts, ∃ e ∈ es, t.expand = .ok e := by
  induction ts generalizing i es with
  | nil => simp
  | cons t ts ih =>
    obtain ⟨e, he, h⟩ := Attempt.bind_eq_ok.1 h
    obtain ⟨later, hlater, h⟩ := Attempt.bind_eq_ok.1 h
    cases h
    refine List.forall_mem_cons.2 ⟨⟨e, by simp, Attempt.within_eq_ok.1 he⟩, fun t' ht' => ?_⟩
    obtain ⟨e', he', expanded⟩ := ih hlater t' ht'
    exact ⟨e', by simp [he'], expanded⟩

/-- Every variable in the expanded constraints for a formula was generated or written, and so was
every variable that a quantifier in them binds. -/
theorem known_of_encode {d : Definition} (h : ofDefinition d = .ok m) {s : String} {f : Formula}
    (read : Formula.ofText m.scope s = .ok f) {N : Nat} {T : Option Rat} {q : Search.Query}
    (encoded : Search.encode m m.encoder T f N = .ok q) {es : List Term}
    (expanded : Solver.expandAll 0 q.constraints = .ok es) {e : Term} (he : e ∈ es) :
    e.Resolved m.Known m.KnownBound m.PostJumpMode := by
  obtain ⟨t, ht, hte⟩ := exists_of_expandAll expanded e he
  have accepted := accepted_of_ofDefinition h
  have point {o : Symbol.Origin} (ho : o.identifier? = none) : m.Known (o.symbol .real) :=
    Or.inl (generates_point ho)
  have points : KnowsPoints m.Known m.KnownBound ⟨N⟩ :=
    ⟨Int.natCast_nonneg N, fun k _ _ => point (o := .tau k) rfl,
      fun n => ⟨point (o := .instant n) rfl, Or.inl (point (o := .instant n) rfl)⟩,
      point (o := .offset) rfl⟩
  have pending := (referring_known h).encode accepted read (fun k _ => accepted.sights_known k)
    points (fun g hg key w hw => ?_) encoded t ht
  · exact pending.expand hte
  · obtain ⟨i, -, rfl⟩ := (Formula.numbered_of_guess hg).witness _ _ hw
    exact point (o := .witness i) rfl

/-! ## Names -/

/-- The name of a generated symbol is no identifier. -/
theorem Generates.not_identifier {v : Var} (h : m.Generates v) : isIdentifier v.name ≠ true := by
  obtain ⟨o, ho, -⟩ := h
  rw [ho, Symbol.Origin.not_identifier]
  decide

section

variable (accepted : m.Accepted) {v w : Var}
include accepted

theorem Accepted.eq_of_generates (hv : m.Generates v) (hw : m.Generates w) (h : v.name = w.name) :
    v = w := by
  obtain ⟨o, hov, declared⟩ := hv
  obtain ⟨o', how, declared'⟩ := hw
  have valid {o : Symbol.Origin} {s : TermSort}
      (declared : ∀ id ∈ o.identifier?, ∃ d, m.scope.get? id = some d ∧ d.sort = s) : o.Valid := by
    cases o with
    | discrete id k | state id k p =>
      obtain ⟨d, hd, -⟩ := declared id rfl
      exact accepted.identifier_of_scope hd
    | _ => trivial
  obtain rfl : o = o' := by
    rw [hov, how] at h
    exact Symbol.Origin.eq_of_name (valid declared) (valid declared') h
  -- an identifier is declared once, so its symbols have one sort
  have sort {id : String} (hid : o.identifier? = some id) : v.sort = w.sort := by
    obtain ⟨d, hd, hsort⟩ := declared id hid
    obtain ⟨d', hd', hsort'⟩ := declared' id hid
    cases hd.symm.trans hd'
    exact hsort.symm.trans hsort'
  rw [hov, how]
  cases o with
  | discrete id k | state id k p => rw [@sort id rfl]
  | _ => rfl

/-- Variables that have one name and are not the same were not both generated. If their name is an
identifier, they were written with different sorts. -/
theorem Accepted.eq_or_writes (hv : m.Known v) (hw : m.Known w) (h : v.name = w.name) :
    v = w ∨ (m.Writes v ∨ m.Writes w) ∧
      (isIdentifier v.name = true → m.Writes v ∧ m.Writes w ∧ v.sort ≠ w.sort) := by
  rcases hv with hv | hv
  · rcases hw with hw | hw
    · exact Or.inl (accepted.eq_of_generates hv hw h)
    · exact Or.inr ⟨Or.inr hw, fun hid => absurd hid hv.not_identifier⟩
  · rcases hw with hw | hw
    · exact Or.inr ⟨Or.inl hv, fun hid => absurd (h ▸ hid) hw.not_identifier⟩
    · by_cases sort : v.sort = w.sort
      · obtain ⟨name, s, role⟩ := v
        obtain ⟨name', s', role'⟩ := w
        obtain rfl : name = name' := h
        obtain rfl : s = s' := sort
        exact Or.inl (by rw [show role = .bound from hv.1, show role' = .bound from hw.1])
      · exact Or.inr ⟨Or.inl hv, fun _ => ⟨hv, hw, sort⟩⟩

variable (written : ∀ v, m.Writes v → isIdentifier v.name = true)
  (sorts : ∀ v w, m.Writes v → m.Writes w → v.name = w.name → v.sort = w.sort)
include written sorts

theorem Accepted.eq_of_known (hv : m.Known v) (hw : m.Known w) (h : v.name = w.name) : v = w := by
  rcases accepted.eq_or_writes hv hw h with same | ⟨either, identifier⟩
  · exact same
  · have named : isIdentifier v.name = true := by
      rcases either with hv | hw
      · exact written v hv
      · exact h ▸ written w hw
    obtain ⟨hv, hw, different⟩ := identifier named
    exact absurd (sorts v w hv hw h) different

theorem Accepted.eq_of_knownBound (named : ∀ v, m.Binds v → isIdentifier v.name = true)
    (unique : ∀ v w, m.Binds v → m.Binds w ∨ m.Writes w → v.name = w.name → v = w)
    (hv : m.KnownBound v) (hw : m.KnownBound w) (h : v.name = w.name) : v = w := by
  have bound {v w : Var} (hv : m.Binds v) (hw : m.KnownBound w) (h : v.name = w.name) : v = w := by
    rcases hw with (generated | written) | bound
    · exact absurd (h ▸ named v hv) generated.not_identifier
    · exact unique v w hv (Or.inr written) h
    · exact unique v w hv (Or.inl bound) h
  rcases hv with hv | hv
  · rcases hw with hw | hw
    · exact accepted.eq_of_known written sorts hv hw h
    · exact (bound hw (Or.inl hv) h.symm).symm
  · exact bound hv hw h

end

/-- In the expanded constraints for a formula a name determines its variable, if the bound variables
that were written into the automaton have identifiers for names, and those of one name have one
sort. This covers variables that occur only as those of quantifiers if the quantifiers that were
written bind identifiers, too, one variable for each name. -/
theorem name_determines_variable {d : Definition} (h : ofDefinition d = .ok m)
    (written : ∀ v, m.Writes v → isIdentifier v.name = true)
    (sorts : ∀ v w, m.Writes v → m.Writes w → v.name = w.name → v.sort = w.sort)
    {s : String} {f : Formula} (read : Formula.ofText m.scope s = .ok f) {N : Nat}
    {T : Option Rat} {q : Search.Query} (encoded : Search.encode m m.encoder T f N = .ok q)
    {es : List Term} (expanded : Solver.expandAll 0 q.constraints = .ok es) :
    (∀ e ∈ es, ∀ e' ∈ es, ∀ v w, Term.var v ∈ e.subterms → Term.var w ∈ e'.subterms →
      v.name = w.name → v = w) ∧
    ((∀ v, m.Binds v → isIdentifier v.name = true) →
      (∀ v w, m.Binds v → m.Binds w ∨ m.Writes w → v.name = w.name → v = w) →
      ∀ e ∈ es, ∀ e' ∈ es, ∀ v w, e.Occurs v → e'.Occurs w → v.name = w.name → v = w) := by
  have accepted := accepted_of_ofDefinition h
  have known {e : Term} (he : e ∈ es) {v : Var} (hv : Term.var v ∈ e.subterms) : m.Known v :=
    known_of_encode h read encoded expanded he _ hv
  have occurring {e : Term} (he : e ∈ es) {v : Var} (hv : e.Occurs v) : m.KnownBound v := by
    rcases hv with hv | ⟨q, body, hv⟩
    · exact Or.inl (known he hv)
    · exact known_of_encode h read encoded expanded he _ hv
  refine ⟨fun e he e' he' v w hv hw => ?_, fun named unique e he e' he' v w hv hw => ?_⟩
  · exact accepted.eq_of_known written sorts (known he hv) (known he' hw)
  · exact accepted.eq_of_knownBound written sorts named unique (occurring he hv) (occurring he' hw)

/-- In a well-sorted automaton nothing is bound but the clocks. -/
theorem WellSorted.clock_of_writes (wellSorted : m.WellSorted) {v : Var} (h : m.Writes v) :
    ∃ md ∈ m.modes, v = md.flow.clock := by
  obtain ⟨bound, clock | ⟨t, ht, hv⟩⟩ := h
  · exact clock
  · obtain ⟨now, next, inScope, reads⟩ := wellSorted.exists_scoped ht
    have uses : t.Uses now next anyBinder noPrimitive := inScope.built.uses
    refine (reads v (uses _ hv)).resolve_left fun role => ?_
    rw [bound] at role
    cases role

theorem WellSorted.not_binds (wellSorted : m.WellSorted) (v : Var) : ¬m.Binds v := by
  rintro ⟨t, ht, q, body, hv⟩
  obtain ⟨_, _, inScope, -⟩ := wellSorted.exists_scoped ht
  have := List.all_eq_true.1 inScope.quantFree _ hv
  cases this

theorem thermostat_names :
    ofDefinition heater = .ok thermostat ∧
    (∀ v, thermostat.Writes v → isIdentifier v.name = true) ∧
    (∀ v w, thermostat.Writes v → thermostat.Writes w → v.name = w.name → v.sort = w.sort) ∧
    Formula.ofText thermostat.scope "~hot /\\ <>_[2,3] (x >= 21)" = .ok warmer ∧
    ∃ q es, Search.encode thermostat thermostat.encoder (some 3) warmer 1 = .ok q ∧
      Solver.expandAll 0 q.constraints = .ok es ∧
      (∃ ρ : Env, ρ.Sorted ∧ ∀ e ∈ es, e.Holds ρ) ∧
      ∀ e ∈ es, ∀ e' ∈ es, ∀ v w, e.Occurs v → e'.Occurs w → v.name = w.name → v = w := by
  have clocks : ∀ md ∈ thermostat.modes, isIdentifier md.flow.clock.name = true ∧
      md.flow.clock.sort = .real := by
    decide
  have written (v : Var) (hv : thermostat.Writes v) :
      isIdentifier v.name = true ∧ v.sort = .real := by
    obtain ⟨md, hmd, rfl⟩ := wellSorted_thermostat.clock_of_writes hv
    exact clocks md hmd
  have names (v : Var) (hv : thermostat.Writes v) : isIdentifier v.name = true := (written v hv).1
  have sorts (v w : Var) (hv : thermostat.Writes v) (hw : thermostat.Writes w)
      (_ : v.name = w.name) : v.sort = w.sort :=
    (written v hv).2.trans (written w hw).2.symm
  obtain ⟨q, es, encoded, expanded, ρ, hρ, -, holds⟩ := warmer_satisfied
  obtain ⟨-, occurring⟩ := name_determines_variable ofDefinition_heater names sorts ofText_warmer
    encoded expanded
  refine ⟨ofDefinition_heater, names, sorts, ofText_warmer, q, es, encoded, expanded,
    ⟨ρ, hρ, holds⟩, occurring (fun v hv => ?_) fun v w hv => ?_⟩
  · exact absurd hv (wellSorted_thermostat.not_binds v)
  · exact absurd hv (wellSorted_thermostat.not_binds v)

/-! ## A clock named like a duration -/

/-- A clock that is named like the duration of the first step. -/
def durationClock : Var := ⟨"time#0", .real, .bound⟩

def outside (x : Term) : Term := .or [.cmp .lt x (.num .real 1), .cmp .gt x (.num .real 2)]

def climb : Definition where
  stateVars := [("x", .real)]
  modes := [
    { id := 0
      flow := ⟨durationClock, [("x", .num .real 1)], []⟩
      invariant := some (outside (.var ⟨"x", .real, .logical⟩)) }]

def climbing : Automaton where
  stateVars := [("x", .real)]
  modeVars := []
  props := []
  init := .top
  modes := [{
    id := 0
    name := "mode0"
    guard := .top
    flow := ⟨durationClock, [("x", .num .real 1)], []⟩
    invariant := outside (.var ⟨"x", .real, .logical⟩) }]
  jumps := []
  logic := ""

theorem ofDefinition_climb : ofDefinition climb = .ok climbing := by cbv

theorem ofText_climbing : Formula.ofText climbing.scope "true" = .ok (.bool true) := by cbv

def climbed (t : Term) : Term := .add .real [.var (Symbol.state "x" .real 0 .entry), t]

/-- The only step of the climb in plain arithmetic: the quantifier captures the duration. -/
def climbExpanded : Term :=
  .and [.mkGe (.var (Symbol.time 0)) .zero,
    .mkEq (.var (Symbol.state "x" .real 0 .exit)) (climbed (.var (Symbol.time 0))),
    .quant .all durationClock (.implies (.and [.mkGe (.var durationClock) .zero,
      .mkLe (.var durationClock) (.var (Symbol.time 0))]) (outside (climbed (.var durationClock))))]

theorem expandAll_climbing :
    (do
      let q ← Search.encode climbing climbing.encoder none (.bool true) 0
      Solver.expandAll 0 q.constraints) =
    .ok [.top, climbExpanded, .mkGe (.var (Symbol.tau 0)) .zero,
      .mkEq (.var (Symbol.time 0)) (.var (Symbol.tau 0)), .top] := by
  cbv

/-- The climb is accepted, and the first step has a clock and a duration of one name. -/
theorem climb_names_collide :
    ¬ ∀ (d : Definition) (m : Automaton), ofDefinition d = .ok m →
      ∀ (s : String) (f : Formula), Formula.ofText m.scope s = .ok f →
        ∀ (N : Nat) (T : Option Rat) (q : Search.Query) (es : List Term),
          Search.encode m m.encoder T f N = .ok q → Solver.expandAll 0 q.constraints = .ok es →
            ∀ e ∈ es, ∀ e' ∈ es, ∀ v w, Term.var v ∈ e.subterms → Term.var w ∈ e'.subterms →
              v.name = w.name → v = w := by
  intro h
  obtain ⟨q, encoded, expanded⟩ := Attempt.bind_eq_ok.1 expandAll_climbing
  have occurs {v : Var} (hv : v = durationClock ∨ v = Symbol.time 0) :
      Term.var v ∈ climbExpanded.subterms := by
    rcases hv with rfl | rfl
    all_goals simp [climbExpanded, climbed, outside, subterms, nodes, nodesAll, mkGe, mkLe, mkEq,
      mkCmp, truth?, Term.zero, real]
  have same := h climb climbing ofDefinition_climb _ _ ofText_climbing 0 none q _ encoded expanded
    climbExpanded (by simp) climbExpanded (by simp) durationClock (Symbol.time 0)
    (occurs (Or.inl rfl)) (occurs (Or.inr rfl)) (by decide)
  cases congrArg Var.role same

end Automaton

end HybridCheck
