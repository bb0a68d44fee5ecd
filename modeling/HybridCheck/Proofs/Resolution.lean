import HybridCheck.Proofs.Unrolling

/-!
# What is left unresolved

Every reference of an accepted definition is declared for its place. The encoding replaces the
identifiers of each place by symbols of a step, and the references after a jump by symbols of the
next step or, in an invariant, by the exit values of the segment. All that is left in an expanded
constraint are the references of an invariant to a mode variable after the jump: the definition may
hold them, and the exit values of a segment are those of the state variables only.
-/

namespace HybridCheck

/-! ## Places of a definition -/

namespace Definition

/-- A variable that a place may refer to: the clock, a bound variable, or an identifier. -/
def Sees (d : Definition) (a : Access) (v : Var) : Prop :=
  a.clock = some v ∨ v.role = .bound ∨ v.role = .logical ∧ d.sort? a v.name = some v.sort

/-- What is no identifier is bound. -/
theorem Sees.bound {d : Definition} {a : Access} {v : Var}
    (clock : ∀ c, a.clock = some c → c.role = .bound) (h : d.Sees a v) (hv : v.role ≠ .logical) :
    v.role = .bound := by
  rcases h with h | h | ⟨h, -⟩
  · exact clock v h
  · exact h
  · exact absurd h hv

/-- A variable whose value after a jump a place may refer to. -/
def Foresees (d : Definition) (a : Access) (v : Var) : Prop :=
  a.postJump = true ∧ (d.sort? { state := true, mode := true } v.name).isSome = true

theorem uses_of_checkReferences {d : Definition} {place : String} {a : Access} {t : Term}
    (h : d.checkReferences place a t = .ok ()) :
    t.Uses (d.Sees a) (d.Foresees a) Term.anyBinder Term.noPrimitive := by
  rw [checkReferences] at h
  split at h
  · cases h
  · next hnone =>
    intro n hn
    have := List.findSome?_eq_none_iff.1 hnone n hn
    cases n with
    | var v =>
      rw [nodeProblem?] at this
      split at this
      · next hc => exact Or.inl hc
      · split at this
        · next hr =>
          split at this
          · cases this
          · next s hs =>
            split at this
            · next hsv => exact Or.inr (Or.inr ⟨hr, hsv ▸ hs⟩)
            · cases this
        · next hr => exact Or.inr (Or.inl hr)
        · cases this
    | next v =>
      rw [nodeProblem?] at this
      split at this
      · cases this
      · next hp =>
        split at this
        · cases this
        · next hs =>
          refine ⟨by simpa using hp, ?_⟩
          simpa [Option.isSome_iff_ne_none] using hs
    | integral seg => cases this
    | throughout seg body => cases this
    | _ => trivial

theorem uses_of_checkConstraint {d : Definition} {place : String} {a : Access} {t : Term}
    (h : d.checkConstraint place a t = .ok ()) :
    t.Uses (d.Sees a) (d.Foresees a) Term.anyBinder Term.noPrimitive := by
  rw [checkConstraint] at h
  split at h
  · cases h
  · exact uses_of_checkReferences h

theorem mem_names_of_sort? {d : Definition} {a : Access} {id : String} {s : TermSort}
    (h : d.sort? a id = some s) :
    a.state = true ∧ id ∈ Table.names d.stateVars ∨
      a.mode = true ∧ id ∈ Table.names d.modeVars := by
  have found {sorts : Table TermSort} (h : sorts.get? id = some s) : id ∈ Table.names sorts :=
    List.mem_map.2 ⟨_, Table.mem_of_get? h, rfl⟩
  rw [sort?, Option.or_eq_some_iff] at h
  rcases h with h | ⟨-, h⟩
  · split at h
    · next ha => exact Or.inl ⟨ha, found h⟩
    · cases h
  · split at h
    · next ha => exact Or.inr ⟨ha, found h⟩
    · cases h

end Definition

/-- A variable that is an identifier with one of the names, or known. -/
structure Refers (R : String → Prop) (K : Var → Prop) (v : Var) : Prop where
  identifier : v.role = .logical → R v.name
  known : v.role ≠ .logical → K v

namespace Automaton

def HasName (m : Automaton) (name : String) : Prop :=
  name ∈ Table.names m.stateVars ∨ name ∈ Table.names m.modeVars

/-- The identifiers among the variables are state or mode variables, and the others are known. -/
abbrev Identifies (m : Automaton) (K : Var → Prop) : Var → Prop := Refers m.HasName K

/-- The identifiers among the variables are mode variables, and the others are known. -/
abbrev IdentifiesMode (m : Automaton) (K : Var → Prop) : Var → Prop :=
  Refers (· ∈ Table.names m.modeVars) K

/-- Every condition of an automaton, its flows apart, refers only to what is declared for it and to
variables that are known, and its quantifiers bind variables with `B`. -/
structure ConditionsRefer (m : Automaton) (K B : Var → Prop) : Prop where
  init : m.init.Uses (m.Identifies K) Term.noReference B Term.noPrimitive
  props : ∀ e ∈ m.props, e.2.Uses (m.Identifies K) Term.noReference B Term.noPrimitive
  guard : ∀ md ∈ m.modes, md.guard.Uses (m.IdentifiesMode K) Term.noReference B Term.noPrimitive
  invariant : ∀ md ∈ m.modes,
    md.invariant.Uses (m.Identifies K) (fun v => m.HasName v.name) B Term.noPrimitive
  jumps : ∀ j ∈ m.jumps, j.guard.Uses (m.Identifies K) Term.noReference B Term.noPrimitive ∧
    j.reset.Uses (m.Identifies K) (fun v => m.HasName v.name) B Term.noPrimitive

/-- Every part of an automaton refers only to what is declared for it and to variables that are
known, among them the clocks of its modes, which may be bound, too. -/
structure Referring (m : Automaton) (K B : Var → Prop) : Prop extends m.ConditionsRefer K B where
  clock : ∀ md ∈ m.modes, K md.flow.clock ∧ B md.flow.clock
  flow : ∀ md ∈ m.modes, ∀ id a,
    Table.get? md.flow.solution id = some a ∨ Table.get? md.flow.rates id = some a →
      a.Uses (m.Identifies K) Term.noReference B Term.noPrimitive

/-- The symbols of step `k` are known, and so is its duration. -/
structure Sights (m : Automaton) (K : Var → Prop) (k : Int) : Prop where
  symbol : ∀ p, ∀ e ∈ m.discreteSubst k ++ m.stateSubst k p, ∃ v, e.2 = .var v ∧ K v
  prop : ∀ name ∈ Table.names m.props, K (Symbol.discrete name .bool k)
  time : K (Symbol.time k)

/-- The symbols of the state and mode variables at the start of step `k` are known. -/
def Lands (m : Automaton) (K : Var → Prop) (k : Int) : Prop :=
  ∀ id, m.HasName id → ∀ a, (m.allSubst k .entry).get? id = some a → ∃ v, a = .var v ∧ K v

end Automaton

theorem Definition.uses_of_checkFlowTerms {d : Definition} {place : String} {f : Flow}
    {ids : List String} (h : d.checkFlowTerms place f ids = .ok ()) :
    ∀ id ∈ ids, ∀ a, (Table.get? f.rates id).or (Table.get? f.solution id) = some a →
      a.Uses (d.Sees { state := true, mode := true, clock := some f.clock })
        (d.Foresees { state := true, mode := true, clock := some f.clock }) Term.anyBinder
        Term.noPrimitive := by
  induction ids with
  | nil => simp
  | cons id ids ih =>
    rw [checkFlowTerms] at h
    obtain ⟨_, hid, h⟩ := Attempt.bind_eq_ok.1 h
    simp only [List.mem_cons, forall_eq_or_imp]
    refine ⟨fun a ha => ?_, ih h⟩
    rw [ha] at hid
    exact uses_of_checkReferences hid

/-- A term refers to what its place sees now and foresees after a jump, and has no flow
primitives. -/
abbrev Definition.Admits (d : Definition) (a : Access) (t : Term) : Prop :=
  t.Uses (d.Sees a) (d.Foresees a) Term.anyBinder Term.noPrimitive

/-- The parts of a mode refer to what their places admit. -/
structure Definition.ModeAdmitted (d : Definition) (md : Mode) : Prop where
  guard : d.Admits { mode := true } md.guard
  invariant : d.Admits { state := true, mode := true, postJump := true } md.invariant
  clock : md.flow.clock.role = .bound
  flow : ∀ id a, Table.get? md.flow.solution id = some a ∨ Table.get? md.flow.rates id = some a →
    d.Admits { state := true, mode := true, clock := some md.flow.clock } a

theorem Definition.modeAdmitted_of_checkMode {d : Definition} {x : ModeDef} {md : Mode}
    (h : d.checkMode x = .ok md) : d.ModeAdmitted md := by
  obtain ⟨_, hguard, h⟩ := Attempt.bind_eq_ok.1 h
  obtain ⟨_, hinvariant, h⟩ := Attempt.bind_eq_ok.1 h
  split at h
  · cases h
  · next hflow =>
    obtain ⟨_, hterms, h⟩ := Attempt.bind_eq_ok.1 h
    cases h
    refine ⟨uses_of_checkConstraint hguard, uses_of_checkConstraint hinvariant,
      (FlowOf.of_valid hflow).1, fun id a ha => ?_⟩
    have moves : x.complete.flow.moves id = true := by
      rcases ha with ha | ha <;> simp [FlowOf.moves, Table.has, ha]
    refine uses_of_checkFlowTerms hterms id (FlowOf.mem_flowing moves) a ?_
    rcases ha with ha | ha
    · have := (FlowOf.of_moves hflow moves).2.resolve_right (by simp [ha])
      rw [this, ha]
      rfl
    · rw [ha]
      rfl

namespace Automaton

section

variable {d : Definition} {m : Automaton} (built : Built d m)
include built

theorem Built.identifies {a : Access} (clock : ∀ c, a.clock = some c → c.role = .bound) {v : Var}
    (h : d.Sees a v) (hv : v.role = .logical) : a.state = true ∧ v.name ∈ Table.names m.stateVars ∨
      a.mode = true ∧ v.name ∈ Table.names m.modeVars := by
  rcases h with h | h | ⟨-, h⟩
  · rw [clock v h] at hv
    cases hv
  · rw [h] at hv
    cases hv
  · rw [built.stateVars, built.modeVars]
    exact Definition.mem_names_of_sort? h

variable {K : Var → Prop} (bound : ∀ v, v.role = .bound → K v)
include bound

/-- A constraint without references after a jump. -/
theorem Built.uses {a : Access} {t : Term} (clock : ∀ c, a.clock = some c → c.role = .bound)
    (postJump : a.postJump = false)
    (h : t.Uses (d.Sees a) (d.Foresees a) Term.anyBinder Term.noPrimitive) :
    t.Uses (m.Identifies K) Term.noReference Term.anyBinder Term.noPrimitive := by
  refine h.mono (fun v hv => ⟨fun hr => ?_, fun hr => bound v (hv.bound clock hr)⟩) (fun v hv => ?_)
    fun _ h => h
  · exact (built.identifies clock hv hr).imp And.right And.right
  · rw [hv.1] at postJump
    cases postJump

/-- A constraint with references after a jump. -/
theorem Built.uses_next {a : Access} {t : Term} (clock : a.clock = none)
    (h : t.Uses (d.Sees a) (d.Foresees a) Term.anyBinder Term.noPrimitive) :
    t.Uses (m.Identifies K) (fun v => m.HasName v.name) Term.anyBinder Term.noPrimitive := by
  have noClock (c : Var) (h : a.clock = some c) : c.role = .bound := by
    rw [clock] at h
    cases h
  refine h.mono (fun v hv => ⟨fun hr => ?_, fun hr => bound v (hv.bound noClock hr)⟩)
    (fun v hv => ?_) fun _ h => h
  · exact (built.identifies noClock hv hr).imp And.right And.right
  · obtain ⟨s, hs⟩ := Option.isSome_iff_exists.1 hv.2
    rw [HasName, built.stateVars, built.modeVars]
    exact (Definition.mem_names_of_sort? hs).imp And.right And.right

/-- The parts of an automaton that was built refer to identifiers and to bound variables. -/
theorem Built.referring : m.Referring K Term.anyBinder := by
  have noClock (c : Var) (h : (none : Option Var) = some c) : c.role = .bound := by cases h
  have plain {place : String} {t : Term}
      (h : d.checkConstraint place { state := true, mode := true } t = .ok ()) :
      t.Uses (m.Identifies K) Term.noReference Term.anyBinder Term.noPrimitive :=
    built.uses bound noClock rfl (Definition.uses_of_checkConstraint h)
  have jumping {place : String} {t : Term}
      (h : d.checkConstraint place { state := true, mode := true, postJump := true } t = .ok ()) :
      t.Uses (m.Identifies K) (fun v => m.HasName v.name) Term.anyBinder Term.noPrimitive :=
    built.uses_next bound rfl (Definition.uses_of_checkConstraint h)
  have checked (md : Mode) (hmd : md ∈ m.modes) : d.ModeAdmitted md := by
    obtain ⟨x, -, hx⟩ := built.modes md hmd
    exact Definition.modeAdmitted_of_checkMode hx
  have mode (md : Mode) (hmd : md ∈ m.modes) :
      md.guard.Uses (m.IdentifiesMode K) Term.noReference Term.anyBinder Term.noPrimitive := by
    refine (checked md hmd).guard.mono
      (fun v hv => ⟨fun hr => ?_, fun hr => bound v (hv.bound noClock hr)⟩) (fun v hv => ?_)
        fun _ h => h
    · rcases built.identifies noClock hv hr with ⟨h, -⟩ | ⟨-, h⟩
      · cases h
      · exact h
    · cases hv.1
  refine ⟨⟨plain built.init, fun e he => ?_, mode,
    fun md hmd => built.uses_next bound rfl (checked md hmd).invariant, fun j hj => ?_⟩,
    fun md hmd => ⟨bound _ (checked md hmd).clock, trivial⟩, fun md hmd id a ha => ?_⟩
  · obtain ⟨_, he⟩ := Definition.exists_of_checkProps built.definitions e (built.props ▸ he)
    exact plain he
  · obtain ⟨-, _, _, hguard, hreset⟩ := Definition.exists_of_checkJumps built.jumps j hj
    exact ⟨plain hguard, jumping hreset⟩
  · refine built.uses bound (fun c hc => ?_) rfl ((checked md hmd).flow id a ha)
    cases hc
    exact (checked md hmd).clock

end

theorem referring_of_ofDefinition {d : Definition} {m : Automaton} (h : ofDefinition d = .ok m) :
    m.Referring (fun v => v.role ≠ .logical) Term.anyBinder :=
  (built_of_ofDefinition h).referring fun v hv => by rw [hv]; decide

/-- The symbols of a step are no identifiers. -/
theorem sights_of_role (m : Automaton) (k : Int) : m.Sights (fun v => v.role ≠ .logical) k := by
  refine ⟨fun p e he => ?_, fun _ _ => nofun, nofun⟩
  have symbol : IsSymbol e.2 := (List.mem_append.1 he).elim isSymbol_discrete isSymbol_state
  obtain ⟨v, hv, hrole, -⟩ := symbol.var
  exact ⟨v, hv, hrole⟩

end Automaton

/-! ## Segments -/

namespace Term

/-- All variables of a term are known, its quantifiers bind variables with `B`, no flow primitive is
left in it, and no reference after a jump but those with `Q`. -/
abbrev Resolved (K B Q : Var → Prop) (t : Term) : Prop := t.Uses K Q B noPrimitive

variable {K B Q Q' : Var → Prop} {t u : Term}

theorem resolved_mono (hQ : ∀ v, Q v → Q' v) (h : t.Resolved K B Q) : t.Resolved K B Q' :=
  h.mono (fun _ h => h) hQ fun _ h => h

theorem Uses.resolve {R : String → Prop} {s : Subst} (h : t.Uses (Refers R K) Q B noPrimitive)
    (covers : ∀ name, R name → name ∈ Table.names s)
    (values : ∀ e ∈ s, e.2.Resolved K B noReference) (hu : t.substitute s = .ok u) :
    u.Resolved K B Q := by
  refine h.substitute (fun v hv => ?_) (fun _ hv => hv) hu
  by_cases hr : v.role = .logical
  · obtain ⟨a, ha⟩ := Table.exists_get?_of_mem_names (covers v.name (hv.identifier hr))
    rw [if_pos hr, ha]
    exact resolved_mono (fun _ h => h.elim) (values _ (Table.mem_of_get? ha))
  · rw [if_neg hr]
    exact uses_var.2 (hv.known hr)

end Term

namespace SegmentOf

open Term

/-- Flowing for a duration turns the values of a segment into terms with `H`. -/
structure Advances (H : Term → Prop) (seg : Segment) (d : Term) : Prop where
  duration : H d
  entry : ∀ e ∈ seg.entry, H e.2
  solution : ∀ id sol a u, Table.get? seg.flow.solution id = some sol →
    sol.substitute seg.context = .ok a → a.replace seg.flow.clock d = .ok u → H u
  rate : ∀ id rate a, Table.get? seg.flow.rates id = some rate →
    rate.substitute seg.context = .ok a → H a

section

variable {H : Term → Prop} (hH : Kept H) {seg : Segment} {d : Term}
include hH

section

variable (advances : Advances H seg d)
include advances

theorem Advances.valueAt {id : String} {v u : Term} (hv : H v)
    (hu : seg.flow.valueAt seg.context d id v = .ok u) : H u := by
  rw [FlowOf.valueAt] at hu
  split at hu
  · next sol hsol =>
    obtain ⟨a, ha, hu⟩ := Attempt.bind_eq_ok.1 hu
    exact advances.solution id sol a u hsol ha hu
  · split at hu
    · cases hu
      exact hv
    · next rate hrate =>
      split at hu
      · cases hu
      · obtain ⟨speed, hspeed, hu⟩ := Attempt.bind_eq_ok.1 hu
        obtain ⟨way, hway, hu⟩ := Attempt.bind_eq_ok.1 hu
        have speed := advances.rate id rate speed hrate hspeed
        have hway := hH.mkMul (by simpa using ⟨speed, advances.duration⟩) hway
        exact hH.mkAdd (by simpa using ⟨hv, hway⟩) hu

/-- The state that a flow reaches has the names of the state that it starts from. -/
theorem Advances.after {reached : Subst}
    (h : seg.flow.after seg.entry seg.mode d = .ok reached) :
    Table.names reached = Table.names seg.entry ∧ ∀ e ∈ reached, H e.2 := by
  have step {e e' : String × Term}
      (h : (do return (e.1, ← seg.flow.valueAt seg.context d e.1 e.2) : Attempt (String × Term)) =
        .ok e') : e.1 = e'.1 ∧ seg.flow.valueAt seg.context d e.1 e.2 = .ok e'.2 := by
    obtain ⟨u, hu, h⟩ := Attempt.bind_eq_ok.1 h
    cases h
    exact ⟨rfl, hu⟩
  constructor
  · have same : List.Forall₂ (fun e e' : String × Term => e.1 = e'.1) seg.entry reached :=
      (Attempt.mapM_eq_ok.1 h).imp fun _ _ h => (step h).1
    rw [← List.forall₂_map_right_iff, ← List.forall₂_map_left_iff, List.forall₂_eq_eq_eq] at same
    exact same.symm
  · intro e' he'
    obtain ⟨e, he, h⟩ := Attempt.mem_of_mapM h he'
    exact advances.valueAt hH (advances.entry e he) (step h).2

end

theorem forall_exitEquations {reached exit : Subst} {es : List Term}
    (hr : ∀ e ∈ reached, H e.2) (hx : ∀ e ∈ exit, H e.2)
    (h : exitEquations reached exit = .ok es) : ∀ a ∈ es, H a := by
  induction exit generalizing es with
  | nil =>
    cases h
    simp
  | cons e exit ih =>
    obtain ⟨id, x⟩ := e
    rw [exitEquations] at h
    split at h
    · cases h
    · next v hv =>
      obtain ⟨rest, hrest, h⟩ := Attempt.bind_eq_ok.1 h
      cases h
      refine List.forall_mem_cons.2 ⟨?_, ih (fun e he => hx e (by simp [he])) hrest⟩
      exact hH.mkCmp _ (hx (id, x) (by simp)) (hr _ (Table.mem_of_get? hv))

theorem Advances.expandIntegral (advances : Advances H seg seg.time)
    (exit : ∀ e ∈ seg.exit, H e.2) {u : Term} (h : expandIntegral seg = .ok u) : H u := by
  obtain ⟨reached, hreached, h⟩ := Attempt.bind_eq_ok.1 h
  obtain ⟨es, hes, h⟩ := Attempt.bind_eq_ok.1 h
  cases h
  refine hH.mkAnd (List.forall_mem_cons.2 ⟨?_, ?_⟩)
  · exact hH.mkCmp _ advances.duration (hH.num _ _)
  · exact forall_exitEquations hH (advances.after hH hreached).2 exit hes

/-- A flow universal is expanded to what its body is at one instant: when it does not depend on the
clock, at both ends, or at every value of the clock. -/
theorem forall_expandThroughout {body u : Term} (time : H seg.time)
    (instant : ∀ state now b, seg.flow.after seg.entry seg.mode (var seg.flow.clock) = .ok state →
      body.substitute (Table.merge seg.mode state) = .ok now →
      now.substituteNext seg.exit = .ok b →
      (b.mentions seg.flow.clock = false → H b) ∧
        (∀ d, H d → ∀ v, b.replace seg.flow.clock d = .ok v → H v) ∧
        H (mkAll seg.flow.clock (mkImplies (mkAnd [mkGe (var seg.flow.clock) Term.zero,
          mkLe (var seg.flow.clock) seg.time]) b)))
    (h : expandThroughout seg body = .ok u) : H u := by
  obtain ⟨state, hstate, h⟩ := Attempt.bind_eq_ok.1 h
  obtain ⟨now, hnow, h⟩ := Attempt.bind_eq_ok.1 h
  obtain ⟨b, hb, h⟩ := Attempt.bind_eq_ok.1 h
  obtain ⟨still, replaced, within⟩ := instant state now b hstate hnow hb
  have zero : H Term.zero := hH.num _ _
  have ended : H (mkLt seg.time Term.zero) := hH.mkCmp _ time zero
  split at h
  · next hm =>
    cases h
    exact hH.mkOr (by simpa using ⟨ended, still (by simpa using hm)⟩)
  · split at h
    · obtain ⟨first, hfirst, h⟩ := Attempt.bind_eq_ok.1 h
      obtain ⟨last, hlast, h⟩ := Attempt.bind_eq_ok.1 h
      cases h
      have ends : H (mkAnd [first, last]) :=
        hH.mkAnd (by simpa using ⟨replaced _ zero _ hfirst, replaced _ time _ hlast⟩)
      exact hH.mkOr (by simpa using ⟨ended, ends⟩)
    · cases h
      exact within

end

/-- What a flow refers to is read from the values at the start of a segment. -/
theorem resolve_context {K B : Var → Prop} {seg : Segment}
    (parts : ∀ a ∈ seg.parts, a.Resolved K B noReference) {a u : Term}
    (h : a.Uses (Refers (· ∈ Table.names seg.context) K) noReference B noPrimitive)
    (hu : a.substitute seg.context = .ok u) : u.Resolved K B noReference := by
  refine h.resolve (fun _ h => h) (fun e he => ?_) hu
  rcases Table.mem_of_mem_putAll he with he | he
  · exact parts _ (mem_parts (Or.inl he))
  · exact parts _ (mem_parts (Or.inr (Or.inr he)))

/-- The terms of a segment are resolved, and what its flow refers to has a value in it. -/
structure Grounded (K B : Var → Prop) (seg : Segment) : Prop where
  clock : K seg.flow.clock ∧ B seg.flow.clock
  parts : ∀ a ∈ seg.parts, a.Resolved K B noReference
  flow : ∀ id a, Table.get? seg.flow.solution id = some a ∨ Table.get? seg.flow.rates id = some a →
    a.Uses (Refers (· ∈ Table.names seg.context) K) noReference B noPrimitive

variable {K B : Var → Prop} {seg : Segment} (grounded : seg.Grounded K B)
include grounded

theorem Grounded.read {id : String} {a u : Term}
    (ha : Table.get? seg.flow.solution id = some a ∨ Table.get? seg.flow.rates id = some a)
    (hu : a.substitute seg.context = .ok u) : u.Resolved K B noReference :=
  resolve_context grounded.parts (grounded.flow id a ha) hu

theorem Grounded.advances {d : Term} (hd : d.Resolved K B noReference) :
    Advances (Resolved K B noReference) seg d where
  duration := hd
  entry _ he := grounded.parts _ (mem_parts (Or.inl he))
  solution _ _ _ _ hsol ha hu := (grounded.read (Or.inl hsol) ha).replace hd hu
  rate _ _ _ hrate ha := grounded.read (Or.inr hrate) ha

/-- The state that a flow reaches is resolved. -/
theorem Grounded.after {d : Term} (hd : d.Resolved K B noReference) {reached : Subst}
    (h : seg.flow.after seg.entry seg.mode d = .ok reached) :
    Table.names reached = Table.names seg.entry ∧ ∀ e ∈ reached, e.2.Resolved K B noReference :=
  (grounded.advances hd).after hereditary_uses.kept h

theorem Grounded.time : seg.time.Resolved K B noReference :=
  grounded.parts _ (by simp [SegmentOf.parts])

theorem Grounded.expandIntegral {u : Term} (h : expandIntegral seg = .ok u) :
    u.Resolved K B noReference :=
  (grounded.advances grounded.time).expandIntegral hereditary_uses.kept
    (fun _ he => grounded.parts _ (mem_parts (Or.inr (Or.inl he)))) h

/-- The instants of a segment lie between zero and its duration. -/
theorem Grounded.within {b : Term} {Q : Var → Prop} (hb : b.Resolved K B Q) :
    (mkImplies (mkAnd [mkGe (var seg.flow.clock) Term.zero,
      mkLe (var seg.flow.clock) seg.time]) b).Resolved K B Q := by
  have clock : (var seg.flow.clock).Resolved K B noReference := uses_var.2 grounded.clock.1
  have ends : (mkAnd [mkGe (var seg.flow.clock) Term.zero,
      mkLe (var seg.flow.clock) seg.time]).Resolved K B noReference :=
    hereditary_uses.mkAnd (by
      simpa using ⟨hereditary_uses.mkCmp .ge clock (hereditary_uses.num _ _),
        hereditary_uses.mkCmp .le clock grounded.time⟩)
  exact hereditary_uses.mkImplies (resolved_mono (fun _ h => h.elim) ends) hb

section

variable {body : Term} {Q : Var → Prop}
  (hb : body.Uses (Refers (· ∈ Table.names seg.context) K) Q B noPrimitive)
include hb

/-- The body of a flow universal at one instant keeps the references after a jump that the exit does
not map. -/
theorem Grounded.instant {state : Subst} {now b : Term}
    (hstate : seg.flow.after seg.entry seg.mode (var seg.flow.clock) = .ok state)
    (hnow : body.substitute (Table.merge seg.mode state) = .ok now)
    (h : now.substituteNext seg.exit = .ok b) :
    b.Resolved K B fun v => Q v ∧ v.name ∉ Table.names seg.exit := by
  obtain ⟨names, values⟩ := grounded.after (uses_var.2 grounded.clock.1) hstate
  have now : now.Resolved K B Q := by
    refine hb.resolve (fun name hname => ?_) (fun e he => ?_) hnow
    · rw [Table.mem_names_merge, names]
      exact Table.mem_names_merge.1 hname
    · rcases Table.mem_of_mem_putAll he with he | he
      · exact values e he
      · exact grounded.parts _ (mem_parts (Or.inr (Or.inr he)))
  refine now.substituteNext (fun v hv => ?_) h
  cases hx : Table.get? seg.exit v.name with
  | none => exact uses_next.2 ⟨hv, Table.get?_eq_none.1 hx⟩
  | some x =>
    exact resolved_mono (fun _ h => h.elim)
      (grounded.parts _ (mem_parts (Or.inr (Or.inl (Table.mem_of_get? hx)))))

/-- A flow universal keeps the references after a jump that the exit does not map. -/
theorem Grounded.expandThroughout {u : Term} (h : expandThroughout seg body = .ok u) :
    u.Resolved K B fun v => Q v ∧ v.name ∉ Table.names seg.exit := by
  refine forall_expandThroughout hereditary_uses.kept
    (resolved_mono (fun _ h => h.elim) grounded.time) (fun state now b hstate hnow hb' => ?_) h
  have instant := grounded.instant hb hstate hnow hb'
  exact ⟨fun _ => instant, fun d hd v hv => instant.replace hd hv,
    (grounded.within instant).mkQuant _ grounded.clock.2⟩

end

end SegmentOf

/-! ## Constraints before their expansion -/

namespace Term

/-- All variables of a term are known, its quantifiers bind variables with `B`, and its flow
primitives expand to terms with `H`. -/
abbrev Awaits (K B Q : Var → Prop) (H : Term → Prop) (t : Term) : Prop :=
  t.Uses K Q B fun a => ∀ u, a.transform expander = .ok u → H u

/-- A term whose flow primitives expand to resolved terms is itself resolved but for them. -/
abbrev Pending (K B Q : Var → Prop) (t : Term) : Prop := t.Awaits K B Q (Resolved K B Q)

variable {K B Q Q' : Var → Prop} {H : Term → Prop} {t u : Term}

theorem pending_mono (hQ : ∀ v, Q v → Q' v) (h : t.Pending K B Q) : t.Pending K B Q' :=
  h.mono (fun _ h => h) hQ fun _ ha u hu => resolved_mono hQ (ha u hu)

theorem Uses.awaits (h : t.Resolved K B noReference) : t.Awaits K B Q H :=
  h.mono (fun _ h => h) (fun _ h => h.elim) fun _ h => h.elim

theorem transform_integral {seg : Segment} :
    (integral seg).transform expander = .ok u ↔ expandIntegral seg = .ok u := by
  rw [transform, transform?_integral]
  cases expandIntegral seg <;> exact Iff.rfl

theorem transform_throughout {seg : Segment} {body : Term} :
    (throughout seg body).transform expander = .ok u ↔ expandThroughout seg body = .ok u := by
  rw [transform, transform?_throughout]
  cases expandThroughout seg body <;> exact Iff.rfl

theorem awaits_flow {seg : Segment} (ht : t = integral seg ∨ ∃ body, t = throughout seg body)
    (parts : ∀ a ∈ seg.parts, a.Resolved K B noReference)
    (h : ∀ u, t.transform expander = .ok u → H u) : t.Awaits K B Q H := by
  intro n hn
  rcases (mem_subterms_flow ht).1 hn with rfl | ⟨a, ha, hn⟩
  · rcases ht with rfl | ⟨body, rfl⟩
    · exact h
    · exact h
  · exact (parts a ha).awaits n hn

/-- What operators and quantifiers inherit, an expanded term has if its variables, references and
expanded flow primitives have it. -/
theorem Uses.expand_keeps (hH : Hereditary H)
    (quant : ∀ q v body, B v → H body → H (.quant q v body)) (now : ∀ v, K v → H (var v))
    (next : ∀ v, Q v → H (next v)) (h : t.Awaits K B Q H) (hu : t.expand = .ok u) : H u :=
  Uses.transform_keeps hH quant now next (fun _ ha => ha)
    (fun _ _ _ hv => absurd hv Bool.false_ne_true) h (expand_eq_ok.1 hu)

theorem Uses.expand (h : t.Pending K B Q) (hu : t.expand = .ok u) : u.Resolved K B Q :=
  h.expand_keeps hereditary_uses (fun _ _ _ hv h => uses_quant.2 ⟨hv, h⟩) (fun _ => uses_var.2)
    (fun _ => uses_next.2) hu

end Term

namespace Automaton

open Term

variable {m : Automaton} {K B : Var → Prop} {k : Int}

/-- An invariant refers to the value of a mode variable after the jump. -/
def PostJumpMode (m : Automaton) (v : Var) : Prop :=
  v.name ∈ Table.names m.modeVars ∧ ∃ md ∈ m.modes, Term.next v ∈ md.invariant.subterms

theorem mem_names_discreteSubst {name : String} : name ∈ Table.names (m.discreteSubst k) ↔
    name ∈ Table.names m.modeVars ∨ name ∈ Table.names m.props := by
  rw [discreteSubst, Table.ofEntries, ← Table.merge, Table.mem_names_merge]
  simp [Table.names]

theorem mem_names_allSubst {name : String} {p : Phase} (h : m.HasName name) :
    name ∈ Table.names (m.allSubst k p) := by
  rw [allSubst, Table.mem_names_merge, names_stateSubst, mem_names_discreteSubst]
  exact h.symm.imp_left Or.inl

/-! ## One step -/

section

variable {p : Phase} {u : Term}

theorem Sights.mono {K' : Var → Prop} (hK : ∀ v, K v → K' v) (sights : m.Sights K k) :
    m.Sights K' k := by
  refine ⟨fun p e he => ?_, fun name h => hK _ (sights.prop name h), hK _ sights.time⟩
  obtain ⟨v, hv, known⟩ := sights.symbol p e he
  exact ⟨v, hv, hK v known⟩

theorem Sights.symbol_resolved (sights : m.Sights K k) {e : String × Term}
    (he : e ∈ m.discreteSubst k ∨ e ∈ m.stateSubst k p) : e.2.Resolved K B noReference := by
  obtain ⟨v, hv, known⟩ := sights.symbol p e (List.mem_append.2 he)
  rw [hv]
  exact uses_var.2 known

theorem Sights.allSubst (sights : m.Sights K k) :
    ∀ e ∈ m.allSubst k p, e.2.Resolved K B noReference :=
  fun _ he => sights.symbol_resolved (Table.mem_of_mem_putAll he).symm

theorem Sights.lands (sights : m.Sights K k) : m.Lands K k := fun _ _ _ ha =>
  sights.symbol .entry _ (List.mem_append.2 (Table.mem_of_mem_putAll (Table.mem_of_get? ha)).symm)

variable (conditions : m.ConditionsRefer K B)
include conditions

/-- A guard read in a step. -/
theorem ConditionsRefer.guard_resolved (sights : m.Sights K k) {md : Mode} (hmd : md ∈ m.modes)
    (hu : md.guard.substitute (m.discreteSubst k) = .ok u) : u.Resolved K B noReference := by
  refine (conditions.guard md hmd).resolve (fun name hname => ?_) (fun e he => ?_) hu
  · exact mem_names_discreteSubst.2 (Or.inl hname)
  · exact sights.symbol_resolved (p := .entry) (Or.inl he)

theorem ConditionsRefer.initial (sights : m.Sights K 0) (hu : m.initial = .ok u) :
    u.Resolved K B noReference :=
  conditions.init.resolve (fun _ => mem_names_allSubst) sights.allSubst hu

/-- A jump reads the identifiers in its own step and the values after it in the next. -/
theorem ConditionsRefer.takes (sights : m.Sights K k) (lands : m.Lands K (k + 1)) {j : Jump}
    (hj : j ∈ m.jumps) (hu : m.takes k j = .ok u) : u.Resolved K B noReference := by
  obtain ⟨taken, htaken, hu⟩ := Attempt.bind_eq_ok.1 hu
  obtain ⟨guard, reset⟩ := conditions.jumps j hj
  have both : (mkAnd [j.guard, j.reset]).Uses (m.Identifies K) (fun v => m.HasName v.name)
      B noPrimitive := hereditary_uses.mkAnd (by
    simpa using ⟨guard.mono (fun _ h => h) (fun _ h => h.elim) fun _ h => h, reset⟩)
  have taken := both.resolve (fun _ => mem_names_allSubst) sights.allSubst htaken
  refine taken.substituteNext (fun v hv => ?_) hu
  obtain ⟨a, ha⟩ :=
    Table.exists_get?_of_mem_names (mem_names_allSubst (k := k + 1) (p := .entry) hv)
  obtain ⟨w, rfl, known⟩ := lands v.name hv a ha
  rw [ha]
  exact uses_var.2 known

theorem ConditionsRefer.someJump (sights : m.Sights K k) (lands : m.Lands K (k + 1))
    (hu : m.someJump k = .ok u) : u.Resolved K B noReference := by
  obtain ⟨js, hjs, hu⟩ := Attempt.bind_eq_ok.1 hu
  cases hu
  refine hereditary_uses.mkOr fun j hj => ?_
  obtain ⟨_, hmem, hj⟩ := Attempt.mem_of_mapM hjs hj
  exact conditions.takes sights lands hmem hj

end

/-- The flow primitives of a step wait for an expansion with `H`. -/
structure Spends (m : Automaton) (K B Q : Var → Prop) (H : Term → Prop) (time : Term) (k : Int) :
    Prop where
  integral : ∀ md ∈ m.modes, (Term.integral (m.segment md time k)).Awaits K B Q H
  invariant : ∀ md ∈ m.modes, (Term.throughout (m.segment md time k) md.invariant).Awaits K B Q H
  prop : ∀ md ∈ m.modes, ∀ e ∈ m.props,
    (Term.throughout (m.segment md time k) e.2).Awaits K B Q H ∧
      (Term.throughout (m.segment md time k) e.2.mkNot).Awaits K B Q H

section

variable {Q : Var → Prop} {H : Term → Prop} {time u : Term} {us : List Term}
  (conditions : m.ConditionsRefer K B) (sights : m.Sights K k) (spends : m.Spends K B Q H time k)
include conditions sights spends

theorem ConditionsRefer.flows {md : Mode} (hmd : md ∈ m.modes) (hu : m.flows md time k = .ok u) :
    u.Awaits K B Q H := by
  obtain ⟨guard, hguard, hu⟩ := Attempt.bind_eq_ok.1 hu
  cases hu
  have active := conditions.guard_resolved sights hmd hguard
  exact hereditary_uses.mkAnd (by
    simpa using ⟨active.awaits, spends.integral md hmd, spends.invariant md hmd⟩)

theorem ConditionsRefer.afterFlow (hu : m.afterFlow time k = .ok u) : u.Awaits K B Q H := by
  obtain ⟨us, hus, hu⟩ := Attempt.bind_eq_ok.1 hu
  cases hu
  refine hereditary_uses.mkOr fun u hu => ?_
  obtain ⟨md, hmd, hu⟩ := Attempt.mem_of_mapM hus hu
  exact conditions.flows sights spends hmd hu

theorem ConditionsRefer.beforeFlow (lands : m.Lands K (k + 1))
    (hu : m.beforeFlow time k = .ok u) : u.Awaits K B Q H := by
  obtain ⟨jump, hjump, hu⟩ := Attempt.bind_eq_ok.1 hu
  obtain ⟨us, hus, hu⟩ := Attempt.bind_eq_ok.1 hu
  cases hu
  refine hereditary_uses.mkOr fun u hu => ?_
  obtain ⟨md, hmd, hu⟩ := Attempt.mem_of_mapM hus hu
  obtain ⟨flow, hflow, hu⟩ := Attempt.bind_eq_ok.1 hu
  cases hu
  have taken := conditions.someJump sights lands hjump
  exact hereditary_uses.mkAnd (by
    simpa using ⟨conditions.flows sights spends hmd hflow, taken.awaits⟩)

theorem ConditionsRefer.agreesIn {md : Mode} (hmd : md ∈ m.modes) {e : String × Term}
    (he : e ∈ m.props) (hus : m.agreesIn time k e.1 e.2 md = .ok us) :
    ∀ u ∈ us, u.Awaits K B Q H := by
  obtain ⟨guard, hguard, hus⟩ := Attempt.bind_eq_ok.1 hus
  cases hus
  have symbol : (Term.var (Symbol.discrete e.1 .bool k)).Awaits K B Q H :=
    uses_var.2 (sights.prop e.1 (List.mem_map_of_mem he))
  have active : guard.Awaits K B Q H := (conditions.guard_resolved sights hmd hguard).awaits
  have implied {a b : Term} (ha : a.Awaits K B Q H) (hb : b.Awaits K B Q H) :
      (mkImplies (mkAnd [a, guard]) b).Awaits K B Q H :=
    hereditary_uses.mkImplies (hereditary_uses.mkAnd (by simpa using ⟨ha, active⟩)) hb
  obtain ⟨holds, fails⟩ := spends.prop md hmd e he
  simp only [List.mem_cons, List.not_mem_nil, or_false, forall_eq_or_imp, forall_eq]
  exact ⟨implied symbol holds, implied (hereditary_uses.mkNot symbol) fails⟩

theorem ConditionsRefer.propConstraint {props : List String} {ts : List Term}
    (h : m.propConstraint time k props = .ok ts) : ∀ t ∈ ts, t.Awaits K B Q H := by
  obtain ⟨parts, hparts, h⟩ := Attempt.bind_eq_ok.1 h
  cases h
  intro t ht
  obtain ⟨us, hus, ht⟩ := List.mem_flatten.1 ht
  obtain ⟨part, hpart, hus⟩ := List.mem_flatten.1 hus
  obtain ⟨name, -, hpart⟩ := Attempt.mem_of_mapM hparts hpart
  split at hpart
  · cases hpart
  · next definition hdef =>
    obtain ⟨md, hmd, hus⟩ := Attempt.mem_of_mapM hpart hus
    exact conditions.agreesIn sights spends hmd (e := (name, definition)) (Table.mem_of_get? hdef)
      hus t ht

end

/-! ## All steps -/

/-- A step that the constraints of a trace look at. -/
def Visits (bound k : Int) : Prop := k = 0 ∨ k = bound ∨ 0 ≤ k ∧ k < bound

theorem mem_steps_iff {n k : Int} : k ∈ steps n ↔ 0 ≤ k ∧ k < n := by
  simp only [steps, List.mem_map, List.mem_range]
  constructor
  · rintro ⟨i, hi, rfl⟩
    exact ⟨Int.natCast_nonneg i, by simp only [Int.ofNat_eq_natCast]; omega⟩
  · rintro ⟨h0, hk⟩
    exact ⟨k.toNat, by omega, by simp [h0]⟩

theorem visits_of_mem {bound : Int} (h : k ∈ steps bound) :
    Visits bound k ∧ Visits bound (k + 1) := by
  obtain ⟨h0, hk⟩ := mem_steps_iff.1 h
  unfold Visits
  omega

theorem visits_of_mem_succ {bound : Int} (h : k ∈ steps (bound + 1)) : Visits bound k := by
  obtain ⟨h0, hk⟩ := mem_steps_iff.1 h
  unfold Visits
  omega

section

variable {bound : Int} {Q : Var → Prop} {H : Term → Prop} (conditions : m.ConditionsRefer K B)
  (sights : ∀ k, Visits bound k → m.Sights K k)
  (spends : ∀ k, Visits bound k → m.Spends K B Q H (.var (Symbol.time k)) k)

section

include conditions spends sights

theorem ConditionsRefer.unroll {ts : List Term} (h : m.unroll bound = .ok ts) :
    ∀ t ∈ ts, t.Awaits K B Q H := by
  rw [Automaton.unroll] at h
  split at h
  · cases h
  · obtain ⟨first, hfirst, h⟩ := Attempt.bind_eq_ok.1 h
    obtain ⟨inner, hinner, h⟩ := Attempt.bind_eq_ok.1 h
    obtain ⟨last, hlast, h⟩ := Attempt.bind_eq_ok.1 h
    cases h
    have begins : Visits bound 0 := Or.inl rfl
    have ends : Visits bound bound := Or.inr (Or.inl rfl)
    simp only [List.mem_cons, List.mem_append, List.not_mem_nil, or_false]
    rintro t (rfl | ht | rfl)
    · exact (conditions.initial (sights 0 begins) hfirst).awaits
    · obtain ⟨k, hk, ht⟩ := Attempt.mem_of_mapM hinner ht
      obtain ⟨here, there⟩ := visits_of_mem hk
      exact conditions.beforeFlow (sights k here) (spends k here) (sights _ there).lands ht
    · exact conditions.afterFlow (sights bound ends) (spends bound ends) hlast

end

variable (tau : ∀ k, Visits bound k → K (Symbol.tau k))

include sights tau in
theorem resolved_timestamps {ts : List Term} (h : Automaton.timestamps bound = .ok ts) :
    ∀ t ∈ ts, t.Resolved K B noReference := by
  have tau (k : Int) (hk : Visits bound k) : (Term.var (Symbol.tau k)).Resolved K B noReference :=
    uses_var.2 (tau k hk)
  have time (k : Int) (hk : Visits bound k) : (Term.var (Symbol.time k)).Resolved K B noReference :=
    uses_var.2 (sights k hk).time
  have begins : Visits bound 0 := Or.inl rfl
  obtain ⟨later, hlater, h⟩ := Attempt.bind_eq_ok.1 h
  cases h
  simp only [List.mem_append, List.mem_cons, List.not_mem_nil, or_false]
  rintro t ((rfl | rfl) | ht)
  · exact hereditary_uses.mkCmp _ (tau 0 begins) (hereditary_uses.num _ _)
  · exact hereditary_uses.mkCmp _ (time 0 begins) (tau 0 begins)
  · obtain ⟨us, hus, ht⟩ := List.mem_flatten.1 ht
    obtain ⟨k, hk, hus⟩ := Attempt.mem_of_mapM hlater hus
    obtain ⟨here, there⟩ := visits_of_mem hk
    obtain ⟨length, hlength, hus⟩ := Attempt.bind_eq_ok.1 hus
    cases hus
    have length := hereditary_uses.mkSub (tau (k + 1) there) (tau k here) hlength
    simp only [List.mem_cons, List.not_mem_nil, or_false] at ht
    obtain rfl | rfl := ht
    · exact hereditary_uses.mkCmp _ (time (k + 1) there) length
    · exact hereditary_uses.mkCmp _ (tau k here) (tau (k + 1) there)

theorem resolved_timeBound {terms : List Term} {T : Rat}
    (points : ∀ t ∈ terms, ∀ v, t.mentions v = true → v.role = .timestamp → K v) :
    ∀ t ∈ timeBoundConstraints terms T, t.Resolved K B noReference := by
  intro t ht
  obtain ⟨v, hv, rfl⟩ := List.mem_map.1 ht
  have point : (Term.var v).Resolved K B noReference := by
    obtain ⟨free, role⟩ := List.mem_filter.1 hv
    obtain ⟨t, ht, mentioned⟩ := mem_freeVarsOf.1 free
    exact uses_var.2 (points t ht v mentioned (of_decide_eq_true role))
  refine hereditary_uses.mkAnd ?_
  simpa using ⟨hereditary_uses.mkCmp .ge point (hereditary_uses.num .real 0),
    hereditary_uses.mkCmp .le point (hereditary_uses.num .real T)⟩

include conditions spends sights tau in
/-- The constraints of a trace, if the points in time that a formula brings in are known. -/
theorem ConditionsRefer.constraints_of_points {T : Option Rat} {props : List String}
    {placement formula ts : List Term}
    (points : ∀ t ∈ placement ++ formula, ∀ v, t.mentions v = true → v.role = .timestamp → K v)
    (h : m.constraints bound T props placement formula = .ok ts) : ∀ t ∈ ts, t.Awaits K B Q H := by
  obtain ⟨unrolled, hunrolled, h⟩ := Attempt.bind_eq_ok.1 h
  obtain ⟨times, htimes, h⟩ := Attempt.bind_eq_ok.1 h
  obtain ⟨signs, hsigns, h⟩ := Attempt.bind_eq_ok.1 h
  have trace : ∀ t ∈ unrolled ++ times ++ signs.flatten, t.Awaits K B Q H := by
    simp only [List.mem_append]
    rintro t ((ht | ht) | ht)
    · exact conditions.unroll sights spends hunrolled t ht
    · exact (resolved_timestamps sights tau htimes t ht).awaits
    · obtain ⟨us, hus, ht⟩ := List.mem_flatten.1 ht
      obtain ⟨k, hk, hus⟩ := Attempt.mem_of_mapM hsigns hus
      have here := visits_of_mem_succ hk
      exact conditions.propConstraint (sights k here) (spends k here) hus t ht
  cases T with
  | none =>
    cases h
    exact trace
  | some T =>
    cases h
    refine List.forall_mem_append.2 ⟨trace, fun t ht => (resolved_timeBound ?_ t ht).awaits⟩
    rw [List.append_assoc]
    refine List.forall_mem_append.2 ⟨fun t ht v hv _ => ?_, points⟩
    exact trace t ht _ (mem_subterms_of_mentions hv)

end

/-! ## Expanding the segments of a step -/

/-- The identifiers of an automaton have values in every segment. -/
theorem uses_context {md : Mode} {time body : Term} {Q : Var → Prop}
    (h : body.Uses (m.Identifies K) Q B noPrimitive) :
    body.Uses (Refers (· ∈ Table.names (m.segment md time k).context) K) Q B noPrimitive :=
  h.mono (fun _ hv => ⟨fun hr => mem_names_allSubst (hv.identifier hr), hv.known⟩) (fun _ h => h)
    fun _ h => h

section

variable {md : Mode} {time : Term} (sights : m.Sights K k) (htime : time.Resolved K B noReference)
include sights htime

theorem Sights.segment {a : Term} (ha : a ∈ (m.segment md time k).parts) :
    a.Resolved K B noReference := by
  simp only [SegmentOf.parts, Automaton.segment, List.mem_cons, List.mem_map, List.mem_append] at ha
  obtain rfl | ⟨e, (he | he) | he, rfl⟩ := ha
  · exact htime
  · exact sights.symbol_resolved (Or.inr he)
  · exact sights.symbol_resolved (Or.inr he)
  · exact sights.symbol_resolved (p := .entry) (Or.inl he)

variable (referring : m.Referring K B) (hmd : md ∈ m.modes)
include referring hmd

/-- The segment of a step is resolved, and its flow refers to what has a value in it. -/
theorem Referring.grounded : (m.segment md time k).Grounded K B where
  clock := referring.clock md hmd
  parts _ := sights.segment htime
  flow id a ha := uses_context (referring.flow md hmd id a ha)

/-- A body that holds throughout a step keeps the references to mode variables after the jump. -/
theorem Referring.throughout {body : Term} {Q : Var → Prop}
    (hb : body.Uses (m.Identifies K) (fun v => m.HasName v.name ∧ Q v) B noPrimitive) :
    (Term.throughout (m.segment md time k) body).Pending K B
      fun v => v.name ∈ Table.names m.modeVars ∧ Q v := by
  have grounded := referring.grounded sights htime hmd
  refine awaits_flow (Or.inr ⟨_, rfl⟩) grounded.parts fun u hu => ?_
  refine resolved_mono (fun v hv => ?_)
    (grounded.expandThroughout (uses_context hb) (transform_throughout.1 hu))
  rw [Automaton.segment, names_stateSubst] at hv
  exact ⟨hv.1.1.resolve_left hv.2, hv.1.2⟩

omit hmd in
theorem Referring.spends :
    m.Spends K B m.PostJumpMode (Resolved K B m.PostJumpMode) time k where
  integral md hmd := by
    have grounded := referring.grounded sights htime hmd
    refine awaits_flow (Or.inl rfl) grounded.parts fun u hu => ?_
    exact resolved_mono (fun _ h => h.elim) (grounded.expandIntegral (transform_integral.1 hu))
  invariant md hmd :=
    pending_mono (fun _ hv => ⟨hv.1, md, hmd, hv.2⟩)
      (referring.throughout sights htime hmd (referring.invariant md hmd).of_next)
  prop md hmd e he := by
    have body {a : Term} (ha : a.Uses (m.Identifies K) noReference B noPrimitive) :
        (Term.throughout (m.segment md time k) a).Pending K B m.PostJumpMode :=
      pending_mono (fun _ hv => hv.2.elim) (referring.throughout sights htime hmd (Q := noReference)
        (ha.mono (fun _ h => h) (fun _ h => h.elim) fun _ h => h))
    have definition := referring.props e he
    exact ⟨body definition, body (hereditary_uses.mkNot definition)⟩

end

theorem Referring.constraints {bound : Int}
    (referring : m.Referring (fun v => v.role ≠ .logical) B)
    {T : Option Rat} {props : List String} {placement formula ts : List Term}
    (h : m.constraints bound T props placement formula = .ok ts) :
    ∀ t ∈ ts, t.Pending (fun v => v.role ≠ .logical) B m.PostJumpMode := by
  refine referring.constraints_of_points (fun k _ => sights_of_role m k)
    (fun k _ => referring.spends (sights_of_role m k) (uses_var.2 nofun)) (fun k _ => nofun)
    (fun _ _ v _ hr => ?_) h
  rw [hr]
  decide

/-- No identifier, no flow primitive and no reference after a jump is left in the expanded
constraints of an accepted automaton, but references to mode variables that its invariants hold. -/
theorem constraints_resolved {d : Definition} {m : Automaton} (h : ofDefinition d = .ok m)
    {bound : Int} {T : Option Rat} {props : List String} {placement formula ts : List Term}
    (hts : m.constraints bound T props placement formula = .ok ts) {t u : Term} (ht : t ∈ ts)
    (hu : t.expand = .ok u) : u.flowFree = true ∧
      (∀ v, Term.var v ∈ u.subterms → v.role ≠ .logical) ∧
      ∀ v, Term.next v ∈ u.subterms → v.name ∈ Table.names m.modeVars ∧
        ∃ md ∈ m.modes, Term.next v ∈ md.invariant.subterms := by
  have resolved := ((referring_of_ofDefinition h).constraints hts t ht).expand hu
  refine ⟨List.all_eq_true.2 fun n hn => ?_, fun v hv => resolved _ hv, fun v hv => resolved _ hv⟩
  have := resolved n hn
  cases n with
  | integral | throughout => exact this.elim
  | _ => rfl

/-! ## A latch -/

/-- A mode that is to be left with its own variable set: the invariant reads it after the jump. -/
def latch : Definition where
  modeVars := [("on", .bool)]
  modes := [
    { id := 0
      guard := some (.var ⟨"on", .bool, .logical⟩)
      flow := ⟨⟨"t", .real, .bound⟩, [], []⟩
      invariant := some (.next ⟨"on", .bool, .logical⟩) }]

def latching : Mode where
  id := 0
  name := "mode0"
  guard := .var ⟨"on", .bool, .logical⟩
  flow := ⟨⟨"t", .real, .bound⟩, [], []⟩
  invariant := .next ⟨"on", .bool, .logical⟩

def latched : Automaton where
  stateVars := []
  modeVars := [("on", .bool)]
  props := []
  init := .top
  modes := [latching]
  jumps := []
  logic := ""

theorem ofDefinition_latch : ofDefinition latch = .ok latched := by cbv

/-- The only step of the latch, which spends its time in the mode. -/
def latchStep : Term :=
  .and [.var (Symbol.discrete "on" .bool 0),
    .integral (latched.segment latching (.var (Symbol.time 0)) 0),
    .throughout (latched.segment latching (.var (Symbol.time 0)) 0) latching.invariant]

def latchExpanded : Term :=
  .and [.var (Symbol.discrete "on" .bool 0), .mkGe (.var (Symbol.time 0)) .zero,
    .or [.mkLt (.var (Symbol.time 0)) .zero, .next ⟨"on", .bool, .logical⟩]]

theorem constraints_latch : latched.constraints 0 none [] [] [] =
    .ok [.top, latchStep, .mkGe (.var (Symbol.tau 0)) .zero,
      .mkEq (.var (Symbol.time 0)) (.var (Symbol.tau 0))] := by
  cbv

theorem expand_latchStep : latchStep.expand = .ok latchExpanded := by rfl

theorem latch_resolved :
    ofDefinition latch = .ok latched ∧
    latched.constraints 0 none [] [] [] = .ok [.top, latchStep, .mkGe (.var (Symbol.tau 0)) .zero,
      .mkEq (.var (Symbol.time 0)) (.var (Symbol.tau 0))] ∧
    latchStep.expand = .ok latchExpanded ∧ latchExpanded.flowFree = true ∧
    (∀ v, Term.var v ∈ latchExpanded.subterms → v.role ≠ .logical) ∧
    ∀ v, Term.next v ∈ latchExpanded.subterms → v.name ∈ ["on"] ∧
      Term.next v ∈ latching.invariant.subterms := by
  obtain ⟨flowFree, now, next⟩ := constraints_resolved ofDefinition_latch constraints_latch
    (List.mem_cons_of_mem _ List.mem_cons_self) expand_latchStep
  refine ⟨ofDefinition_latch, constraints_latch, expand_latchStep, flowFree, now, fun v hv => ?_⟩
  obtain ⟨hname, md, hmd, hv⟩ := next v hv
  obtain rfl := List.mem_singleton.1 hmd
  exact ⟨hname, hv⟩

/-- The invariant of the latch leaves a reference after a jump in the expanded constraints. -/
theorem latch_unresolved :
    ¬ ∀ (d : Definition) (m : Automaton), ofDefinition d = .ok m →
      ∀ (N : Nat) (T : Option Rat) (props : List String), (∀ p ∈ props, m.props.has p = true) →
        ∀ placement formula ts, m.constraints N T props placement formula = .ok ts →
          ∀ t ∈ ts, ∀ u, t.expand = .ok u → (∀ v, Term.var v ∈ u.subterms → v.role ≠ .logical) ∧
            ∀ v, Term.next v ∉ u.subterms := by
  intro h
  obtain ⟨-, next⟩ := h latch latched ofDefinition_latch 0 none [] (by simp) [] [] _
    constraints_latch latchStep (by simp) _ expand_latchStep
  exact next ⟨"on", .bool, .logical⟩ (by simp [latchExpanded, subterms, nodes, nodesAll, mkGe, mkLt,
    mkCmp, truth?, Term.zero, real])

end Automaton

end HybridCheck
