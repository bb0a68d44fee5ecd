import HybridCheck.Proofs.Arithmetic
import HybridCheck.Proofs.Reachability
import HybridCheck.Proofs.Resolution

/-!
# Accepted automata can be translated

Nothing that an accepted definition refers to is missing, so the only thing that can go wrong in its
translation is arithmetic on truth values: the sorts of operands are not checked when a definition
is accepted, and a rate, a solution or a constant may put a truth value where a number is needed.
Without such arithmetic the constraints of a trace have an answer, and so has the expansion of each
of them.
-/

namespace HybridCheck

open Term

/-! ## Flows -/

namespace FlowOf

/-- A flow that can be followed: its terms may be calculated with, and no rate depends on what the
flow changes. -/
structure Followable (f : Flow) : Prop where
  terms : ∀ id a, Table.get? f.solution id = some a ∨ Table.get? f.rates id = some a →
    a.Quantity noPrimitive
  rates : ∀ e ∈ f.rates, f.movingVar? e.2 = none

section

variable {f : Flow} (followable : f.Followable) {entry mode : Subst} {d : Term}
  (hd : d.Quantity noPrimitive)
include followable hd

theorem Followable.valueAt {context : Subst} (values : ∀ e ∈ context, e.2.Quantity noPrimitive)
    (id : String) {v : Term} (hv : v.Quantity noPrimitive) :
    ∃ u, f.valueAt context d id v = .ok u ∧ u.Quantity noPrimitive := by
  have read {a : Term} (ha : Table.get? f.solution id = some a ∨ Table.get? f.rates id = some a) :
      ∃ u, a.substitute context = .ok u ∧ u.Quantity noPrimitive := by
    have quantity := followable.terms id a ha
    obtain ⟨u, hu, substitutes⟩ := quantity.safe.substitute values
    exact ⟨u, hu, substitutes.safe, substitutes.numeric quantity.numeric⟩
  rw [FlowOf.valueAt]
  cases hsol : Table.get? f.solution id with
  | some sol =>
    obtain ⟨a, ha, quantity⟩ := read (Or.inl hsol)
    obtain ⟨u, hu, substitutes⟩ := quantity.safe.replace hd f.clock
    refine ⟨u, ?_, substitutes.safe, substitutes.numeric quantity.numeric⟩
    simp only [ha, Attempt.bind_ok, hu]
  | none =>
    cases hrate : Table.get? f.rates id with
    | none => exact ⟨v, rfl, hv⟩
    | some rate =>
      obtain ⟨speed, hspeed, quantity⟩ := read (Or.inr hrate)
      have factors : ∀ a ∈ [speed, d], a.Quantity noPrimitive := by simpa using ⟨quantity, hd⟩
      obtain ⟨way, hway, quantity⟩ := Quantity.mkMul factors
      have summands : ∀ a ∈ [v, way], a.Quantity noPrimitive := by simpa using ⟨hv, quantity⟩
      obtain ⟨u, hu, quantity⟩ := Quantity.mkAdd summands
      refine ⟨u, ?_, quantity⟩
      simp only [followable.rates _ (Table.mem_of_get? hrate), hspeed, Attempt.bind_ok, hway, hu]

theorem Followable.after (start : ∀ e ∈ entry, e.2.Quantity noPrimitive)
    (located : ∀ e ∈ mode, e.2.Quantity noPrimitive) :
    ∃ reached, f.after entry mode d = .ok reached ∧
      Table.names reached = Table.names entry ∧ ∀ e ∈ reached, e.2.Quantity noPrimitive := by
  have values : ∀ e ∈ mode.merge entry, e.2.Quantity noPrimitive := by
    intro e he
    rcases Table.mem_of_mem_putAll he with he | he
    · exact start e he
    · exact located e he
  have each : ∀ e ∈ entry, ∃ e' : String × Term,
      (do return (e.1, ← f.valueAt (mode.merge entry) d e.1 e.2) : Attempt (String × Term)) =
        .ok e' ∧ e.1 = e'.1 ∧ e'.2.Quantity noPrimitive := by
    intro e he
    obtain ⟨u, hu, quantity⟩ := followable.valueAt hd values e.1 (start e he)
    exact ⟨(e.1, u), by rw [hu]; rfl, rfl, quantity⟩
  obtain ⟨reached, hreached, same⟩ := Attempt.exists_mapM each
  refine ⟨reached, hreached, ?_, fun e' he' => ?_⟩
  · have names : List.Forall₂ (fun e e' : String × Term => e.1 = e'.1) entry reached :=
      same.imp fun _ _ h => h.1
    rw [← List.forall₂_map_right_iff, ← List.forall₂_map_left_iff, List.forall₂_eq_eq_eq] at names
    exact names.symm
  · obtain ⟨e, he, made⟩ := Attempt.mem_of_mapM hreached he'
    obtain ⟨e'', made', -, quantity⟩ := each e he
    cases made.symm.trans made'
    exact quantity

end

end FlowOf

/-! ## Segments -/

namespace SegmentOf

/-- A segment whose values may be calculated with and whose flow can be followed. -/
structure Expandable (seg : Segment) : Prop where
  parts : ∀ a ∈ seg.parts, a.Quantity noPrimitive
  flow : seg.flow.Followable
  exits : ∀ id ∈ Table.names seg.exit, id ∈ Table.names seg.entry

theorem exists_exitEquations {reached exit : Subst}
    (present : ∀ id ∈ Table.names exit, id ∈ Table.names reached)
    (values : ∀ e ∈ reached, e.2.Quantity noPrimitive)
    (ends : ∀ e ∈ exit, e.2.Quantity noPrimitive) :
    ∃ es, exitEquations reached exit = .ok es ∧ ∀ a ∈ es, a.Safe noPrimitive := by
  induction exit with
  | nil => exact ⟨[], rfl, by simp⟩
  | cons e exit ih =>
    obtain ⟨id, x⟩ := e
    obtain ⟨es, hes, safe⟩ :=
      ih (fun id hid => present id (by simp_all [Table.names])) fun e he => ends e (by simp [he])
    obtain ⟨v, hv⟩ := Table.exists_get?_of_mem_names (present id (by simp [Table.names]))
    refine ⟨mkEq x v :: es, by simp [exitEquations, hv, hes], List.forall_mem_cons.2 ⟨?_, safe⟩⟩
    exact inherited_safe.mkCmp _ (ends (id, x) (by simp)).safe
      (values _ (Table.mem_of_get? hv)).safe

section

variable {seg : Segment} (expandable : seg.Expandable)
include expandable

theorem Expandable.time : seg.time.Quantity noPrimitive :=
  expandable.parts _ (by simp [SegmentOf.parts])

/-- The state that the flow of a segment reaches. -/
theorem Expandable.after {d : Term} (hd : d.Quantity noPrimitive) :
    ∃ reached, seg.flow.after seg.entry seg.mode d = .ok reached ∧
      Table.names reached = Table.names seg.entry ∧ ∀ e ∈ reached, e.2.Quantity noPrimitive :=
  expandable.flow.after hd (fun _ he => expandable.parts _ (mem_parts (Or.inl he)))
    fun _ he => expandable.parts _ (mem_parts (Or.inr (Or.inr he)))

theorem Expandable.integral :
    ∃ u, expandIntegral seg = .ok u ∧ u.Safe noPrimitive := by
  obtain ⟨reached, hreached, names, values⟩ := expandable.after expandable.time
  obtain ⟨es, hes, safe⟩ := exists_exitEquations (names ▸ expandable.exits) values
    fun _ he => expandable.parts _ (mem_parts (Or.inr (Or.inl he)))
  refine ⟨mkAnd (mkGe seg.time Term.zero :: es), ?_, ?_⟩
  · simp only [expandIntegral, hreached, Attempt.bind_ok, hes, Attempt.pure_eq_ok]
  · refine connectives_safe.mkAnd (List.forall_mem_cons.2 ⟨?_, safe⟩)
    exact inherited_safe.mkCmp _ expandable.time.safe quantity_zero.safe

theorem Expandable.throughout {body : Term} (hb : body.Safe noPrimitive) :
    ∃ u, expandThroughout seg body = .ok u ∧ u.Safe noPrimitive := by
  have clock : (var seg.flow.clock).Quantity noPrimitive := quantity_var
  have time := expandable.time
  obtain ⟨state, hstate, -, values⟩ := expandable.after clock
  have read : ∀ e ∈ Table.merge seg.mode state, e.2.Quantity noPrimitive := by
    intro e he
    rcases Table.mem_of_mem_putAll he with he | he
    · exact values e he
    · exact expandable.parts _ (mem_parts (Or.inr (Or.inr he)))
  obtain ⟨now, hnow, safe_now⟩ := hb.substitute read
  obtain ⟨resolved, hresolved, safe⟩ := safe_now.safe.substituteNext
    fun e (he : e ∈ seg.exit) => expandable.parts _ (mem_parts (Or.inr (Or.inl he)))
  obtain ⟨first, hfirst, safe_first⟩ := safe.safe.replace quantity_zero seg.flow.clock
  obtain ⟨last, hlast, safe_last⟩ := safe.safe.replace time seg.flow.clock
  have ended : (mkLt seg.time Term.zero).Safe noPrimitive :=
    inherited_safe.mkCmp _ time.safe quantity_zero.safe
  simp only [expandThroughout, hstate, Attempt.bind_ok, hnow, hresolved, hfirst, hlast,
    Attempt.pure_eq_ok]
  split
  · exact ⟨_, rfl, connectives_safe.mkOr (by simpa using ⟨ended, safe.safe⟩)⟩
  · split
    · have ends : (mkAnd [first, last]).Safe noPrimitive :=
        connectives_safe.mkAnd (by simpa using ⟨safe_first.safe, safe_last.safe⟩)
      exact ⟨_, rfl, connectives_safe.mkOr (by simpa using ⟨ended, ends⟩)⟩
    · have within : (mkAnd [mkGe (var seg.flow.clock) Term.zero,
          mkLe (var seg.flow.clock) seg.time]).Safe noPrimitive :=
        connectives_safe.mkAnd (by
          simpa using ⟨inherited_safe.mkCmp .ge clock.safe quantity_zero.safe,
            inherited_safe.mkCmp .le clock.safe time.safe⟩)
      exact ⟨_, rfl, (connectives_safe.mkImplies within safe.safe).mkQuant _ _⟩

end

end SegmentOf

/-! ## Constraints before their expansion -/

namespace Term

def Expands (a : Term) : Prop := ∃ u, a.transform expander = .ok u ∧ u.Safe noPrimitive

theorem safe_expands {t : Term} (h : t.Safe noPrimitive) : t.Safe Expands :=
  h.mono fun _ h => h.elim

theorem safe_flow {seg : Segment} {t : Term}
    (ht : t = integral seg ∨ ∃ body, t = throughout seg body)
    (parts : ∀ a ∈ seg.parts, a.Quantity noPrimitive) (h : t.Expands) : t.Safe Expands := by
  intro n hn
  rcases (mem_subterms_flow ht).1 hn with rfl | ⟨a, ha, hn⟩
  · refine ⟨?_, fun _ => h⟩
    rcases ht with rfl | ⟨body, rfl⟩ <;> rfl
  · exact safe_expands (parts a ha).safe n hn

theorem safe_integral {seg : Segment} (expandable : seg.Expandable) :
    (integral seg).Safe Expands := by
  obtain ⟨u, hu, safe⟩ := expandable.integral
  exact safe_flow (Or.inl rfl) expandable.parts ⟨u, transform_integral.2 hu, safe⟩

theorem safe_throughout {seg : Segment} (expandable : seg.Expandable) {body : Term}
    (hb : body.Safe noPrimitive) : (throughout seg body).Safe Expands := by
  obtain ⟨u, hu, safe⟩ := expandable.throughout hb
  exact safe_flow (Or.inr ⟨body, rfl⟩) expandable.parts ⟨u, transform_throughout.2 hu, safe⟩

/-- A term without arithmetic on truth values whose flow primitives can be expanded can be
expanded. -/
theorem Safe.expand {t : Term} (h : t.Safe Expands) :
    ∃ u, t.expand = .ok u ∧ u.Safe noPrimitive := by
  obtain ⟨u, hu, substitutes⟩ := h.transform (r := expander) (fun v => quantity_var)
    (fun v => quantity_next) (fun _ ha => ha) nofun
  exact ⟨u, expand_eq_ok.2 hu, substitutes.safe⟩

end Term

namespace Automaton

/-! ## Automata without arithmetic on truth values -/

def terms (m : Automaton) : List Term :=
  m.init :: m.props.map Prod.snd ++
    m.modes.flatMap (fun md => md.guard :: md.invariant :: md.flow.terms) ++
    m.jumps.flatMap fun j => [j.guard, j.reset]

theorem mem_flowTerms {f : Flow} {id : String} {a : Term}
    (h : Table.get? f.solution id = some a ∨ Table.get? f.rates id = some a) : a ∈ f.terms := by
  rcases h with h | h
  · exact List.mem_map.2 ⟨_, List.mem_append.2 (Or.inr (Table.mem_of_get? h)), rfl⟩
  · exact List.mem_map.2 ⟨_, List.mem_append.2 (Or.inl (Table.mem_of_get? h)), rfl⟩

theorem mem_terms {m : Automaton} {t : Term} : t ∈ m.terms ↔
    t = m.init ∨ (∃ e ∈ m.props, e.2 = t) ∨
      (∃ md ∈ m.modes, t ∈ md.guard :: md.invariant :: md.flow.terms) ∨
        ∃ j ∈ m.jumps, t ∈ [j.guard, j.reset] := by
  simp [terms]

/-- No arithmetic in the terms of an automaton is on something that can become a truth value, and
neither is a rate or a solution. -/
structure Arithmetical (m : Automaton) : Prop where
  terms : ∀ t ∈ m.terms, t.arithmetical = true
  flows : ∀ md ∈ m.modes, ∀ a ∈ md.flow.terms, a.truthful = false

instance (m : Automaton) : Decidable m.Arithmetical :=
  decidable_of_iff ((∀ t ∈ m.terms, t.arithmetical = true) ∧
    ∀ md ∈ m.modes, ∀ a ∈ md.flow.terms, a.truthful = false)
    ⟨fun h => ⟨h.1, h.2⟩, fun h => ⟨h.terms, h.flows⟩⟩

/-- What an automaton without arithmetic on truth values has for its translation. -/
structure Translatable (m : Automaton) : Prop where
  init : m.init.Safe noPrimitive
  props : ∀ e ∈ m.props, e.2.Safe noPrimitive
  guard : ∀ md ∈ m.modes, md.guard.Safe noPrimitive
  invariant : ∀ md ∈ m.modes, md.invariant.Safe noPrimitive
  flow : ∀ md ∈ m.modes, md.flow.Followable
  jumps : ∀ j ∈ m.jumps, j.guard.Safe noPrimitive ∧ j.reset.Safe noPrimitive

variable {m : Automaton} {k : Int}

theorem Arithmetical.translatable {d : Definition} (h : ofDefinition d = .ok m)
    (arith : m.Arithmetical) : m.Translatable := by
  have referring := referring_of_ofDefinition h
  have accepted := accepted_of_ofDefinition h
  have safe {P Q B : Var → Prop} {t : Term} (ht : t ∈ m.terms)
      (uses : t.Uses P Q B noPrimitive) :
      t.Safe noPrimitive := safe_of_arithmetical (arith.terms t ht) uses.flowFree
  have ofMode {md : Mode} (hmd : md ∈ m.modes) {t : Term}
      (ht : t ∈ md.guard :: md.invariant :: md.flow.terms) : t ∈ m.terms :=
    mem_terms.2 (Or.inr (Or.inr (Or.inl ⟨md, hmd, ht⟩)))
  have ofJump {j : Jump} (hj : j ∈ m.jumps) {t : Term} (ht : t ∈ [j.guard, j.reset]) :
      t ∈ m.terms := mem_terms.2 (Or.inr (Or.inr (Or.inr ⟨j, hj, ht⟩)))
  refine ⟨safe (mem_terms.2 (Or.inl rfl)) referring.init, fun e he => ?_, fun md hmd => ?_,
    fun md hmd => ?_, fun md hmd => ⟨fun id a ha => ?_, fun e he => ?_⟩, fun j hj => ?_⟩
  · exact safe (mem_terms.2 (Or.inr (Or.inl ⟨e, he, rfl⟩))) (referring.props e he)
  · exact safe (ofMode hmd (by simp)) (referring.guard md hmd)
  · exact safe (ofMode hmd (by simp)) (referring.invariant md hmd)
  · have mem := mem_flowTerms ha
    exact ⟨safe (ofMode hmd (by simp [mem])) (referring.flow md hmd id a ha),
      arith.flows md hmd a mem⟩
  · obtain ⟨-, -, rates⟩ := FlowOf.of_valid (accepted.modes md hmd).flow
    exact (FlowOf.of_checkRate (rates e he)).1
  · obtain ⟨guard, reset⟩ := referring.jumps j hj
    exact ⟨safe (ofJump hj (by simp)) guard, safe (ofJump hj (by simp)) reset⟩

/-- What a term of a well-sorted automaton reads is an identifier or the clock of a mode. -/
theorem WellSorted.exists_scoped (wellSorted : m.WellSorted) {t : Term} (ht : t ∈ m.terms) :
    ∃ now next, t.Scoped now next ∧
      ∀ v, now v → v.role = .logical ∨ ∃ md ∈ m.modes, v = md.flow.clock := by
  have clocked {md : Mode} (hmd : md ∈ m.modes) (v : Var) (h : m.Declares v ∨ v = md.flow.clock) :
      v.role = .logical ∨ ∃ md ∈ m.modes, v = md.flow.clock :=
    h.imp And.left fun h => ⟨md, hmd, h⟩
  rcases mem_terms.1 ht with rfl | ⟨e, he, rfl⟩ | ⟨md, hmd, ht⟩ | ⟨j, hj, ht⟩
  · exact ⟨_, _, wellSorted.init, fun _ h => Or.inl h.1⟩
  · exact ⟨_, _, wellSorted.props e he, fun _ h => Or.inl h.1⟩
  · rcases List.mem_cons.1 ht with rfl | ht
    · exact ⟨_, _, wellSorted.guard md hmd, fun _ h => Or.inl h.1⟩
    · rcases List.mem_cons.1 ht with rfl | ht
      · exact ⟨_, _, wellSorted.invariant md hmd, clocked hmd⟩
      · exact ⟨_, _, (wellSorted.flow md hmd t ht).2, clocked hmd⟩
  · obtain ⟨guard, reset⟩ := wellSorted.jumps j hj
    rcases List.mem_pair.1 ht with rfl | rfl
    · exact ⟨_, _, guard, fun _ h => Or.inl h.1⟩
    · exact ⟨_, _, reset, fun _ h => Or.inl h.1⟩

/-- Arithmetic in a well-sorted automaton is on numbers. -/
theorem WellSorted.arithmetical (wellSorted : m.WellSorted) : m.Arithmetical := by
  refine ⟨fun t ht => ?_, fun md hmd a ha => ?_⟩
  · obtain ⟨_, _, inScope, -⟩ := wellSorted.exists_scoped ht
    exact List.all_eq_true.2 fun n hn => (safe_of_plain inScope.sorted n hn).1
  · obtain ⟨numeric, inScope⟩ := wellSorted.flow md hmd a ha
    exact truthful_of_numeric inScope.sorted numeric

/-! ## The steps of a trace -/

theorem IsSymbol.quantity {F : Term → Prop} {t : Term} (h : IsSymbol t) : t.Quantity F := by
  obtain ⟨v, rfl, -⟩ := h.var
  exact quantity_var

theorem quantity_allSubst {p : Phase} : ∀ e ∈ m.allSubst k p, e.2.Quantity noPrimitive := by
  intro e he
  rcases Table.mem_of_mem_putAll he with he | he
  · exact (isSymbol_state he).quantity
  · exact (isSymbol_discrete he).quantity

section

variable (translatable : m.Translatable)
include translatable

theorem Translatable.guard_spec {md : Mode} (hmd : md ∈ m.modes) :
    ∃ u, md.guard.substitute (m.discreteSubst k) = .ok u ∧ u.Safe noPrimitive := by
  obtain ⟨u, hu, substitutes⟩ := (translatable.guard md hmd).substitute
    fun e (he : e ∈ m.discreteSubst k) => (isSymbol_discrete he).quantity
  exact ⟨u, hu, substitutes.safe⟩

theorem Translatable.initial : ∃ u, m.initial = .ok u ∧ u.Safe noPrimitive := by
  obtain ⟨u, hu, substitutes⟩ := translatable.init.substitute quantity_allSubst
  exact ⟨u, hu, substitutes.safe⟩

theorem Translatable.takes {j : Jump} (hj : j ∈ m.jumps) :
    ∃ u, m.takes k j = .ok u ∧ u.Safe noPrimitive := by
  obtain ⟨guard, reset⟩ := translatable.jumps j hj
  have both : (mkAnd [j.guard, j.reset]).Safe noPrimitive :=
    connectives_safe.mkAnd (by simpa using ⟨guard, reset⟩)
  obtain ⟨taken, htaken, safe⟩ := both.substitute (quantity_allSubst (m := m) (k := k) (p := .exit))
  obtain ⟨u, hu, substitutes⟩ :=
    safe.safe.substituteNext (quantity_allSubst (m := m) (k := k + 1) (p := .entry))
  refine ⟨u, ?_, substitutes.safe⟩
  rw [Automaton.takes, htaken, Attempt.bind_ok, hu]

theorem Translatable.someJump : ∃ u, m.someJump k = .ok u ∧ u.Safe noPrimitive := by
  rw [Automaton.someJump]
  exact Attempt.exists_collect_all (fun j hj => translatable.takes hj)
    fun us safe => connectives_safe.mkOr safe

section

variable {md : Mode} (hmd : md ∈ m.modes) {time : Term} (htime : time.Quantity noPrimitive)
include hmd htime

theorem Translatable.expandable : (m.segment md time k).Expandable where
  parts a ha := by
    simp only [SegmentOf.parts, segment, List.mem_cons, List.mem_map, List.mem_append] at ha
    obtain rfl | ⟨e, (he | he) | he, rfl⟩ := ha
    · exact htime
    · exact (isSymbol_state he).quantity
    · exact (isSymbol_state he).quantity
    · exact (isSymbol_discrete he).quantity
  flow := translatable.flow md hmd
  exits id hid := by
    rw [segment, names_stateSubst] at hid ⊢
    exact hid

theorem Translatable.flows : ∃ u, m.flows md time k = .ok u ∧ u.Safe Expands := by
  obtain ⟨guard, hguard, safe⟩ := translatable.guard_spec (k := k) hmd
  have expandable := translatable.expandable (k := k) hmd htime
  refine ⟨_, by rw [Automaton.flows, hguard]; rfl, connectives_safe.mkAnd ?_⟩
  simpa using ⟨safe_expands safe, safe_integral expandable,
    safe_throughout expandable (translatable.invariant md hmd)⟩

theorem Translatable.agreesIn {name : String} {definition : Term}
    (hd : definition.Safe noPrimitive) :
    ∃ us, m.agreesIn time k name definition md = .ok us ∧ ∀ u ∈ us, u.Safe Expands := by
  obtain ⟨guard, hguard, safe⟩ := translatable.guard_spec (k := k) hmd
  have expandable := translatable.expandable (k := k) hmd htime
  have symbol : (Term.var (Symbol.discrete name .bool k)).Safe Expands := quantity_var.safe
  have implied {a b : Term} (ha : a.Safe Expands) (hb : b.Safe Expands) :
      (mkImplies (mkAnd [a, guard]) b).Safe Expands :=
    connectives_safe.mkImplies (connectives_safe.mkAnd (by simpa using ⟨ha, safe_expands safe⟩)) hb
  refine ⟨_, by rw [Automaton.agreesIn, hguard]; rfl, ?_⟩
  simp only [List.mem_cons, List.not_mem_nil, or_false, forall_eq_or_imp, forall_eq]
  exact ⟨implied symbol (safe_throughout expandable hd),
    implied (connectives_safe.mkNot symbol)
      (safe_throughout expandable (connectives_safe.mkNot hd))⟩

end

/-! ## The constraints of a trace -/

theorem Translatable.beforeFlow :
    ∃ u, m.beforeFlow (.var (Symbol.time k)) k = .ok u ∧ u.Safe Expands := by
  obtain ⟨jump, hjump, safe⟩ := translatable.someJump (k := k)
  rw [Automaton.beforeFlow, hjump, Attempt.bind_ok]
  refine Attempt.exists_collect_all (fun md hmd => ?_) fun us safe => connectives_safe.mkOr safe
  obtain ⟨flow, hflow, safe_flow⟩ := translatable.flows (k := k) hmd quantity_var
  refine ⟨mkAnd [flow, jump], by rw [hflow]; rfl, connectives_safe.mkAnd ?_⟩
  simpa using ⟨safe_flow, safe_expands safe⟩

theorem Translatable.afterFlow :
    ∃ u, m.afterFlow (.var (Symbol.time k)) k = .ok u ∧ u.Safe Expands := by
  rw [Automaton.afterFlow]
  exact Attempt.exists_collect_all (fun md hmd => translatable.flows hmd quantity_var)
    fun us safe => connectives_safe.mkOr safe

theorem Translatable.unroll (N : Nat) : ∃ ts, m.unroll N = .ok ts ∧ ∀ t ∈ ts, t.Safe Expands := by
  obtain ⟨first, hfirst, safe_first⟩ := translatable.initial
  obtain ⟨inner, hinner, safe_inner⟩ := Attempt.exists_mapM_all fun k (_ : k ∈ steps N) =>
    translatable.beforeFlow (k := k)
  obtain ⟨last, hlast, safe_last⟩ := translatable.afterFlow (k := N)
  refine ⟨first :: (inner ++ [last]), ?_, ?_⟩
  · rw [Automaton.unroll, if_neg (by omega), hfirst]
    simp only [Attempt.bind_ok, hinner, hlast, Attempt.pure_eq_ok]
  · refine List.forall_mem_cons.2 ⟨safe_expands safe_first, ?_⟩
    refine List.forall_mem_append.2 ⟨safe_inner, ?_⟩
    simpa using safe_last

theorem Translatable.propConstraint {props : List String}
    (declared : ∀ p ∈ props, m.props.has p = true) :
    ∃ ts, m.propConstraint (.var (Symbol.time k)) k props = .ok ts ∧
      ∀ t ∈ ts, t.Safe Expands := by
  rw [Automaton.propConstraint]
  refine Attempt.exists_collect_all (P := fun part => ∀ us ∈ part, ∀ u ∈ us, u.Safe Expands)
    (fun name hname => ?_) fun parts safe t ht => ?_
  · obtain ⟨definition, hdef⟩ :=
      Option.isSome_iff_exists.1 (declared name (List.mem_mergeSort.1 hname))
    rw [hdef]
    exact Attempt.exists_mapM_all fun md hmd => translatable.agreesIn hmd quantity_var
      (translatable.props _ (Table.mem_of_get? hdef))
  · obtain ⟨us, hus, ht⟩ := List.mem_flatten.1 ht
    obtain ⟨part, hpart, hus⟩ := List.mem_flatten.1 hus
    exact safe part hpart us hus t ht

omit translatable in
theorem safe_timestamps (N : Nat) :
    ∃ ts, timestamps N = .ok ts ∧ ∀ t ∈ ts, t.Safe Expands := by
  have tau (k : Int) : (Term.var (Symbol.tau k)).Quantity Expands := quantity_var
  have time (k : Int) : (Term.var (Symbol.time k)).Quantity Expands := quantity_var
  rw [timestamps]
  refine Attempt.exists_collect_all (P := fun us => ∀ u ∈ us, u.Safe Expands)
    (fun k _ => ?_) fun later safe => List.forall_mem_append.2 ⟨?_, fun t ht => ?_⟩
  · obtain ⟨length, hlength, quantity⟩ := (tau (k + 1)).mkSub (tau k)
    refine ⟨_, by rw [hlength]; rfl, ?_⟩
    simpa using ⟨inherited_safe.mkCmp .eq (time (k + 1)).safe quantity.safe,
      inherited_safe.mkCmp .lt (tau k).safe (tau (k + 1)).safe⟩
  · simpa using ⟨inherited_safe.mkCmp .ge (tau 0).safe quantity_zero.safe,
      inherited_safe.mkCmp .eq (time 0).safe (tau 0).safe⟩
  · obtain ⟨us, hus, ht⟩ := List.mem_flatten.1 ht
    exact safe us hus t ht

omit translatable in
theorem safe_timeBound {terms : List Term} {T : Rat} :
    ∀ t ∈ timeBoundConstraints terms T, t.Safe Expands := by
  intro t ht
  obtain ⟨v, -, rfl⟩ := List.mem_map.1 ht
  have point : (Term.var v).Safe Expands := quantity_var.safe
  refine connectives_safe.mkAnd ?_
  simpa using ⟨inherited_safe.mkCmp .ge point quantity_zero.safe,
    inherited_safe.mkCmp .le point (inherited_quantity.num .real T).safe⟩

theorem Translatable.constraints (N : Nat) (T : Option Rat) {props : List String}
    (declared : ∀ p ∈ props, m.props.has p = true) (placement formula : List Term) :
    ∃ ts, m.constraints N T props placement formula = .ok ts ∧ ∀ t ∈ ts, t.Safe Expands := by
  obtain ⟨unrolled, hunrolled, safe_unrolled⟩ := translatable.unroll N
  obtain ⟨times, htimes, safe_times⟩ := safe_timestamps N
  obtain ⟨signs, hsigns, safe_signs⟩ := Attempt.exists_mapM_all fun k (_ : k ∈ steps (N + 1)) =>
    translatable.propConstraint (k := k) declared
  have trace : ∀ t ∈ unrolled ++ times ++ signs.flatten, t.Safe Expands := by
    refine List.forall_mem_append.2 ⟨List.forall_mem_append.2 ⟨safe_unrolled, safe_times⟩, ?_⟩
    intro t ht
    obtain ⟨us, hus, ht⟩ := List.mem_flatten.1 ht
    exact safe_signs us hus t ht
  cases T with
  | none =>
    refine ⟨unrolled ++ times ++ signs.flatten, ?_, trace⟩
    simp only [Automaton.constraints, hunrolled, htimes, hsigns, Attempt.bind_ok,
      Attempt.pure_eq_ok]
  | some tb =>
    refine ⟨unrolled ++ times ++ signs.flatten ++
      timeBoundConstraints (unrolled ++ times ++ signs.flatten ++ placement ++ formula) tb, ?_,
      List.forall_mem_append.2 ⟨trace, safe_timeBound⟩⟩
    simp only [Automaton.constraints, hunrolled, htimes, hsigns, Attempt.bind_ok,
      Attempt.pure_eq_ok]

end

/-- The constraints of a trace can be built for every accepted automaton without arithmetic on truth
values, and all of them can be expanded. -/
theorem constraints_translatable {d : Definition} (h : ofDefinition d = .ok m)
    (arith : m.Arithmetical) (N : Nat) (T : Option Rat) {props : List String}
    (declared : ∀ p ∈ props, m.props.has p = true) (placement formula : List Term) :
    ∃ ts, m.constraints N T props placement formula = .ok ts ∧
      ∀ t ∈ ts, ∃ u, t.expand = .ok u := by
  obtain ⟨ts, hts, safe⟩ :=
    (arith.translatable h).constraints N T declared placement formula
  refine ⟨ts, hts, fun t ht => ?_⟩
  obtain ⟨u, hu, -⟩ := (safe t ht).expand
  exact ⟨u, hu⟩

theorem thermostat_translatable :
    ofDefinition heater = .ok thermostat ∧ thermostat.Arithmetical ∧
    thermostat.props.has "hot" = true ∧
    ∃ ts, thermostat.constraints 2 (some 10) ["hot"] [] [] = .ok ts ∧
      ∀ t ∈ ts, ∃ u, t.expand = .ok u := by
  have arith := wellSorted_thermostat.arithmetical
  have declared : thermostat.props.has "hot" = true := by decide
  exact ⟨ofDefinition_heater, arith, declared, constraints_translatable ofDefinition_heater arith 2
    (some 10) (by simpa using declared) [] []⟩

/-! ## A drift -/

def drift : Definition where
  stateVars := [("x", .real)]
  modes := [{ id := 0, flow := ⟨⟨"t", .real, .bound⟩, [("x", .bool true)], []⟩ }]

def driftingMode : Mode where
  id := 0
  name := "mode0"
  guard := .top
  flow := ⟨⟨"t", .real, .bound⟩, [("x", .bool true)], []⟩
  invariant := .top

def drifting : Automaton where
  stateVars := [("x", .real)]
  modeVars := []
  props := []
  init := .top
  modes := [driftingMode]
  jumps := []
  logic := ""

theorem ofDefinition_drift : ofDefinition drift = .ok drifting := by cbv

def driftStep : Term :=
  .and [.integral (drifting.segment driftingMode (.var (Symbol.time 0)) 0),
    .throughout (drifting.segment driftingMode (.var (Symbol.time 0)) 0) .top]

theorem constraints_drift : drifting.constraints 0 none [] [] [] =
    .ok [.top, driftStep, .mkGe (.var (Symbol.tau 0)) .zero,
      .mkEq (.var (Symbol.time 0)) (.var (Symbol.tau 0))] := by
  cbv

/-- The way covered is the product of a truth value and a duration. -/
theorem expand_driftStep : driftStep.expand = .error (.fault .booleanOperand) := by cbv

/-- The drift is accepted, and its only step cannot be expanded. -/
theorem drift_untranslatable :
    ¬ ∀ (d : Definition) (m : Automaton), ofDefinition d = .ok m →
      ∀ (N : Nat) (T : Option Rat) (props : List String), (∀ p ∈ props, m.props.has p = true) →
        ∀ placement formula, ∃ ts, m.constraints N T props placement formula = .ok ts ∧
          ∀ t ∈ ts, ∃ u, t.expand = .ok u := by
  intro h
  obtain ⟨ts, hts, expands⟩ := h drift drifting ofDefinition_drift 0 none [] (by simp) [] []
  obtain rfl := Except.ok.inj (constraints_drift.symm.trans hts)
  obtain ⟨u, hu⟩ := expands driftStep (by simp)
  cases expand_driftStep.symm.trans hu

end Automaton

end HybridCheck
