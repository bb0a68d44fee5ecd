import HybridCheck.Automaton.Encoding
import HybridCheck.Proofs.Expansion
import HybridCheck.Proofs.Reading

/-!
# Accepted and well-sorted automata

A definition that is accepted has valid and distinct names, Boolean constraints and flows that can
be integrated. An automaton is well-sorted if each of its terms is, every variable being declared
with its sort for the place where it stands. The names of an accepted automaton can be told apart in
the text of formulas.
-/

namespace HybridCheck

/-! ## Accepted definitions -/

namespace Definition

theorem of_checkNames {seen : Table String} {ds : List (String × String)}
    (h : checkNames seen ds = .ok ()) : (∀ e ∈ ds, isIdentifier e.1 = true) ∧
      (ds.map Prod.fst).Nodup ∧ ∀ e ∈ ds, seen.get? e.1 = none := by
  induction ds generalizing seen with
  | nil => simp
  | cons e ds ih =>
    obtain ⟨id, what⟩ := e
    rw [checkNames] at h
    split at h
    · cases h
    · next hid =>
      split at h
      · cases h
      · next hseen =>
        obtain ⟨identifiers, distinct, fresh⟩ := ih h
        have hid : isIdentifier id = true := by simpa using hid
        have later (e : String × String) (he : e ∈ ds) : id ≠ e.1 ∧ seen.get? e.1 = none := by
          have hne : id ≠ e.1 := by
            rintro rfl
            have := fresh e he
            simp at this
          have := fresh e he
          rw [Table.get?_put_of_ne _ _ hne] at this
          exact ⟨hne, this⟩
        refine ⟨?_, ?_, ?_⟩
        · simpa [hid] using identifiers
        · simp only [List.map_cons, List.nodup_cons]
          refine ⟨fun hm => ?_, distinct⟩
          obtain ⟨e, he, heq⟩ := List.mem_map.1 hm
          exact (later e he).1 heq.symm
        · simpa [hseen] using fun a b he => (later (a, b) he).2

theorem sort_of_checkConstraint {d : Definition} {place : String} {a : Access} {t : Term}
    {u : Unit} (h : d.checkConstraint place a t = .ok u) : t.sort = .bool := by
  rw [checkConstraint] at h
  split at h
  · cases h
  · next hs => simpa using hs

/-- What was checked of a mode. -/
structure Checked (state : Table TermSort) (md : Mode) : Prop where
  guard : md.guard.sort = .bool
  invariant : md.invariant.sort = .bool
  flow : md.flow.problem? state = none

theorem of_checkMode {d : Definition} {m : ModeDef} {md : Mode} (h : d.checkMode m = .ok md) :
    Checked d.stateVars md := by
  obtain ⟨_, hguard, h⟩ := Attempt.bind_eq_ok.1 h
  obtain ⟨_, hinvariant, h⟩ := Attempt.bind_eq_ok.1 h
  split at h
  · cases h
  · next hflow =>
    obtain ⟨_, -, h⟩ := Attempt.bind_eq_ok.1 h
    cases h
    exact ⟨sort_of_checkConstraint hguard, sort_of_checkConstraint hinvariant, hflow⟩

theorem complete_of_checkMode {d : Definition} {m : ModeDef} {md : Mode}
    (h : d.checkMode m = .ok md) : m.complete = md := by
  obtain ⟨_, -, h⟩ := Attempt.bind_eq_ok.1 h
  obtain ⟨_, -, h⟩ := Attempt.bind_eq_ok.1 h
  split at h
  · cases h
  · obtain ⟨_, -, h⟩ := Attempt.bind_eq_ok.1 h
    cases h
    rfl

theorem exists_of_checkModes {d : Definition} {seen : List Int} {ms : List ModeDef}
    {mds : List Mode} (h : d.checkModes seen ms = .ok mds) :
    ∀ md ∈ mds, ∃ x ∈ ms, d.checkMode x = .ok md := by
  induction ms generalizing seen mds with
  | nil =>
    cases h
    simp
  | cons m ms ih =>
    rw [checkModes] at h
    split at h
    · cases h
    · obtain ⟨md, hmd, h⟩ := Attempt.bind_eq_ok.1 h
      obtain ⟨rest, hrest, h⟩ := Attempt.bind_eq_ok.1 h
      cases h
      refine List.forall_mem_cons.2 ⟨⟨m, by simp, hmd⟩, fun md hmd => ?_⟩
      obtain ⟨x, hx, hchecked⟩ := ih hrest md hmd
      exact ⟨x, by simp [hx], hchecked⟩

theorem exists_of_checkJumps {d : Definition} {i : Nat} {ds : List JumpDef} {js : List Jump}
    (h : d.checkJumps i ds = .ok js) : ∀ j ∈ js, (∃ x ∈ ds, x.complete = j) ∧ ∃ place place',
      d.checkConstraint place { state := true, mode := true } j.guard = .ok () ∧
      d.checkConstraint place' { state := true, mode := true, postJump := true } j.reset =
        .ok () := by
  induction ds generalizing i js with
  | nil =>
    cases h
    simp
  | cons j ds ih =>
    rw [checkJumps] at h
    obtain ⟨_, hguard, h⟩ := Attempt.bind_eq_ok.1 h
    obtain ⟨_, hreset, h⟩ := Attempt.bind_eq_ok.1 h
    obtain ⟨rest, hrest, h⟩ := Attempt.bind_eq_ok.1 h
    cases h
    refine List.forall_mem_cons.2 ⟨⟨⟨j, by simp, rfl⟩, _, _, hguard, hreset⟩, fun j hj => ?_⟩
    obtain ⟨⟨x, hx, made⟩, checked⟩ := ih hrest j hj
    exact ⟨⟨x, by simp [hx], made⟩, checked⟩

theorem exists_of_checkProps {d : Definition} {props : Table Term}
    (h : d.checkProps props = .ok ()) : ∀ e ∈ props, ∃ place,
      d.checkConstraint place { state := true, mode := true } e.2 = .ok () := by
  induction props with
  | nil => simp
  | cons e props ih =>
    obtain ⟨id, t⟩ := e
    rw [checkProps] at h
    obtain ⟨_, ht, h⟩ := Attempt.bind_eq_ok.1 h
    simp only [List.mem_cons, forall_eq_or_imp]
    exact ⟨⟨_, ht⟩, ih h⟩

end Definition

namespace Automaton

def declaredNames (m : Automaton) : List String :=
  Table.names m.stateVars ++ Table.names m.modeVars ++ Table.names m.props

/-- What was checked of an automaton. -/
structure Accepted (m : Automaton) : Prop where
  distinct : m.declaredNames.Nodup
  identifier : ∀ id ∈ m.declaredNames, isIdentifier id = true
  init : m.init.sort = .bool
  props : ∀ e ∈ m.props, e.2.sort = .bool
  modes : ∀ md ∈ m.modes, Definition.Checked m.stateVars md
  jumps : ∀ j ∈ m.jumps, j.guard.sort = .bool ∧ j.reset.sort = .bool

structure Built (d : Definition) (m : Automaton) : Prop where
  stateVars : m.stateVars = d.stateVars
  modeVars : m.modeVars = d.modeVars
  props : m.props = d.props
  names : Definition.checkNames [] d.declarations = .ok ()
  start : d.init.getD .top = m.init
  init : d.checkConstraint "init" { state := true, mode := true } m.init = .ok ()
  definitions : d.checkProps d.props = .ok ()
  modes : ∀ md ∈ m.modes, ∃ x ∈ d.modes, d.checkMode x = .ok md
  jumps : d.checkJumps 0 d.jumps = .ok m.jumps

theorem built_of_ofDefinition {d : Definition} {m : Automaton} (h : ofDefinition d = .ok m) :
    Built d m := by
  obtain ⟨_, hnames, h⟩ := Attempt.bind_eq_ok.1 h
  obtain ⟨_, hinit, h⟩ := Attempt.bind_eq_ok.1 h
  obtain ⟨_, hprops, h⟩ := Attempt.bind_eq_ok.1 h
  split at h
  · cases h
  · obtain ⟨modes, hmodes, h⟩ := Attempt.bind_eq_ok.1 h
    obtain ⟨jumps, hjumps, h⟩ := Attempt.bind_eq_ok.1 h
    cases h
    exact ⟨rfl, rfl, rfl, hnames, rfl, hinit, hprops,
      fun md hmd => Definition.exists_of_checkModes hmodes md (by simpa using hmd), hjumps⟩

theorem accepted_of_ofDefinition {d : Definition} {m : Automaton}
    (h : ofDefinition d = .ok m) : m.Accepted := by
  have built := built_of_ofDefinition h
  obtain ⟨identifiers, distinct, -⟩ := Definition.of_checkNames built.names
  have hdecl : d.declarations.map Prod.fst = m.declaredNames := by
    simp [Definition.declarations, declaredNames, Table.names, Function.comp_def, built.stateVars,
      built.modeVars, built.props]
  rw [hdecl] at distinct
  refine ⟨distinct, fun id hid => ?_, Definition.sort_of_checkConstraint built.init, fun e he => ?_,
    fun md hmd => ?_, fun j hj => ?_⟩
  · rw [← hdecl] at hid
    obtain ⟨e, he, rfl⟩ := List.mem_map.1 hid
    exact identifiers e he
  · obtain ⟨_, he⟩ := Definition.exists_of_checkProps built.definitions e (built.props ▸ he)
    exact Definition.sort_of_checkConstraint he
  · obtain ⟨_, -, hx⟩ := built.modes md hmd
    exact built.stateVars ▸ Definition.of_checkMode hx
  · obtain ⟨-, _, _, hguard, hreset⟩ := Definition.exists_of_checkJumps built.jumps j hj
    exact ⟨Definition.sort_of_checkConstraint hguard, Definition.sort_of_checkConstraint hreset⟩

variable {m : Automaton}

section

variable (accepted : m.Accepted)
include accepted

theorem Accepted.distinct_state : (Table.names m.stateVars).Nodup :=
  (List.nodup_append.1 (List.nodup_append.1 accepted.distinct).1).1

theorem Accepted.distinct_mode : (Table.names m.modeVars).Nodup :=
  (List.nodup_append.1 (List.nodup_append.1 accepted.distinct).1).2.1

theorem Accepted.distinct_props : (Table.names m.props).Nodup :=
  (List.nodup_append.1 accepted.distinct).2.1

theorem Accepted.state_ne_mode {a b : String} (ha : a ∈ Table.names m.stateVars)
    (hb : b ∈ Table.names m.modeVars) : a ≠ b :=
  (List.nodup_append.1 (List.nodup_append.1 accepted.distinct).1).2.2 a ha b hb

theorem Accepted.ne_prop {a b : String}
    (ha : a ∈ Table.names m.stateVars ∨ a ∈ Table.names m.modeVars)
    (hb : b ∈ Table.names m.props) : a ≠ b :=
  (List.nodup_append.1 accepted.distinct).2.2 a (List.mem_append.2 ha) b hb

end

end Automaton

/-! ## Well-sorted automata -/

/-- A term is well-sorted and free of quantifiers and flow primitives, and reads only given
variables now and after a jump. -/
structure Term.Scoped (now next : Var → Prop) (t : Term) : Prop where
  sorted : t.plain = true
  quantFree : t.quantFree = true
  now : ∀ v, t.mentions v = true → now v
  next : ∀ v, Term.next v ∈ t.subterms → next v

theorem Term.Scoped.built {now next : Var → Prop} {t : Term} (h : t.Scoped now next) :
    Over now next (fun _ => False) t :=
  over_of_quantFree (flowFree_of_plain h.sorted) h.quantFree h.now h.next

def Term.reference? : Term → Option Var
  | .next v => some v
  | _ => none

theorem Term.scoped_iff {now next : Var → Prop} {t : Term} : t.Scoped now next ↔
    (t.plain = true ∧ t.quantFree = true) ∧ (∀ v ∈ t.occurrences [], now v) ∧
      ∀ n ∈ t.subterms, ∀ v ∈ n.reference?, next v := by
  have occurs {v : Var} : v ∈ t.occurrences [] ↔ t.mentions v = true := by simp [mentions]
  constructor
  · intro h
    refine ⟨⟨h.sorted, h.quantFree⟩, fun v hv => h.now v (occurs.1 hv), fun n hn v hv => ?_⟩
    cases n with
    | next w =>
      cases hv
      exact h.next v hn
    | _ => cases hv
  · rintro ⟨⟨sorted, quantFree⟩, now, next⟩
    exact ⟨sorted, quantFree, fun v hv => now v (occurs.2 hv), fun v hv => next _ hv v rfl⟩

instance (now next : Var → Prop) [DecidablePred now] [DecidablePred next] (t : Term) :
    Decidable (t.Scoped now next) :=
  decidable_of_iff _ Term.scoped_iff.symm

theorem Term.Scoped.constraint {now next : Var → Prop} {t : Term} (h : t.Scoped now next)
    (hs : t.sort = .bool) : t.Constraint noFlow :=
  ⟨h.sorted, hs⟩

namespace Automaton

def IsState (m : Automaton) (v : Var) : Prop := m.stateVars.get? v.name = some v.sort

def IsMode (m : Automaton) (v : Var) : Prop := m.modeVars.get? v.name = some v.sort

def Declares (m : Automaton) (v : Var) : Prop := v.role = .logical ∧ (m.IsState v ∨ m.IsMode v)

instance (m : Automaton) : DecidablePred m.IsState := fun v =>
  inferInstanceAs (Decidable (m.stateVars.get? v.name = some v.sort))

instance (m : Automaton) : DecidablePred m.IsMode := fun v =>
  inferInstanceAs (Decidable (m.modeVars.get? v.name = some v.sort))

instance (m : Automaton) : DecidablePred m.Declares := fun v =>
  inferInstanceAs (Decidable (v.role = .logical ∧ (m.IsState v ∨ m.IsMode v)))

/-- Every term of an automaton is well-sorted and free of quantifiers, and reads what is declared
for its place: guards of modes the mode variables, flows and invariants also the clock, resets also
the values after the jump, and invariants the state after it. Flow terms are numbers. -/
structure WellSorted (m : Automaton) : Prop where
  init : m.init.Scoped m.Declares fun _ => False
  props : ∀ e ∈ m.props, e.2.Scoped m.Declares fun _ => False
  guard : ∀ md ∈ m.modes, md.guard.Scoped (fun v => v.role = .logical ∧ m.IsMode v) fun _ => False
  flow : ∀ md ∈ m.modes, ∀ a ∈ md.flow.terms, a.sort.numeric = true ∧
    a.Scoped (fun v => m.Declares v ∨ v = md.flow.clock) fun _ => False
  invariant : ∀ md ∈ m.modes,
    md.invariant.Scoped (fun v => m.Declares v ∨ v = md.flow.clock) m.IsState
  jumps : ∀ j ∈ m.jumps, j.guard.Scoped m.Declares (fun _ => False) ∧
    j.reset.Scoped m.Declares fun v => m.IsState v ∨ m.IsMode v

theorem wellSorted_iff {m : Automaton} : m.WellSorted ↔
    (m.init.Scoped m.Declares fun _ => False) ∧
      (∀ e ∈ m.props, e.2.Scoped m.Declares fun _ => False) ∧
      (∀ md ∈ m.modes, (md.guard.Scoped (fun v => v.role = .logical ∧ m.IsMode v) fun _ => False) ∧
        (∀ a ∈ md.flow.terms, a.sort.numeric = true ∧
          a.Scoped (fun v => m.Declares v ∨ v = md.flow.clock) fun _ => False) ∧
        md.invariant.Scoped (fun v => m.Declares v ∨ v = md.flow.clock) m.IsState) ∧
      ∀ j ∈ m.jumps, j.guard.Scoped m.Declares (fun _ => False) ∧
        j.reset.Scoped m.Declares fun v => m.IsState v ∨ m.IsMode v := by
  constructor
  · intro h
    exact ⟨h.init, h.props, fun md hmd => ⟨h.guard md hmd, h.flow md hmd, h.invariant md hmd⟩,
      h.jumps⟩
  · rintro ⟨init, props, modes, jumps⟩
    exact ⟨init, props, fun md hmd => (modes md hmd).1, fun md hmd => (modes md hmd).2.1,
      fun md hmd => (modes md hmd).2.2, jumps⟩

instance (m : Automaton) : Decidable m.WellSorted := decidable_of_iff _ wellSorted_iff.symm

/-! ## Names in formulas -/

variable {m : Automaton}

theorem mem_of_scope {name : String} {d : Decl} (h : m.scope.get? name = some d) :
    ((name, d.sort) ∈ m.stateVars ∨ (name, d.sort) ∈ m.modeVars) ∧ d.role = .logical ∧
        d.isProp = false ∨
      name ∈ Table.names m.props ∧ d.isProp = true := by
  have hm := Table.mem_of_get?_merge (t := []) h
  simp only [List.not_mem_nil, false_or, List.mem_append, List.mem_map, Prod.mk.injEq] at hm
  obtain (⟨e, he, rfl, rfl⟩ | ⟨e, he, rfl, rfl⟩) | ⟨e, he, rfl, rfl⟩ := hm
  · exact Or.inl ⟨Or.inl he, rfl, rfl⟩
  · exact Or.inl ⟨Or.inr he, rfl, rfl⟩
  · exact Or.inr ⟨List.mem_map_of_mem he, rfl⟩

theorem Accepted.declares_of_scope (accepted : m.Accepted) {v : Var} (h : m.scope.Declares v) :
    m.Declares v := by
  obtain ⟨d, hd, hprop, hsort, hrole⟩ := h.declared
  rcases mem_of_scope hd with ⟨hm, hlogical, -⟩ | ⟨-, hp⟩
  · rw [hsort] at hm
    refine ⟨hrole ▸ hlogical, hm.imp (fun hm => ?_) fun hm => ?_⟩
    · exact Table.get?_of_mem accepted.distinct_state hm
    · exact Table.get?_of_mem accepted.distinct_mode hm
  · rw [hprop] at hp
    cases hp

/-- Every declaration of an accepted automaton is found under its name. -/
theorem Accepted.get?_scope (accepted : m.Accepted) {name : String} {d : Decl}
    (h : (name, d) ∈ (m.stateVars.map fun e => (e.1, ({ sort := e.2 } : Decl))) ++
      (m.modeVars.map fun e => (e.1, { sort := e.2 })) ++
      (m.props.map fun e => (e.1, { sort := .bool, isProp := true }))) :
    m.scope.get? name = some d := by
  have distinct : (Table.names ((m.stateVars.map fun e => (e.1, ({ sort := e.2 } : Decl))) ++
      (m.modeVars.map fun e => (e.1, { sort := e.2 })) ++
      (m.props.map fun e => (e.1, { sort := .bool, isProp := true })))).Nodup := by
    simpa [Table.names, Function.comp_def, declaredNames] using accepted.distinct
  rw [scope, Table.get?_ofEntries distinct]
  exact Table.get?_of_mem distinct h

/-- Formulas can refer to every identifier that is not named like a constant. -/
theorem Accepted.scope_of_declares (accepted : m.Accepted) {v : Var} (h : m.Declares v)
    (constant : v.name ≠ "true" ∧ v.name ≠ "false") : m.scope.Declares v := by
  refine ⟨constant, { sort := v.sort }, accepted.get?_scope ?_, rfl, rfl, h.1.symm⟩
  simp only [List.mem_append, List.mem_map]
  refine Or.inl (h.2.imp (fun hs => ?_) fun hm => ?_)
  · exact ⟨_, Table.mem_of_get? hs, rfl⟩
  · exact ⟨_, Table.mem_of_get? hm, rfl⟩

theorem definition_of_scope {name : String} (h : m.scope.Proposes name) :
    ∃ t, m.props.get? name = some t := by
  obtain ⟨d, hd, hprop⟩ := h.declared
  rcases mem_of_scope hd with ⟨-, -, hp⟩ | ⟨hm, -⟩
  · rw [hprop] at hp
    cases hp
  · exact Table.exists_get?_of_mem_names hm

theorem Accepted.identifier_of_scope (accepted : m.Accepted) {name : String} {d : Decl}
    (h : m.scope.get? name = some d) : isIdentifier name = true := by
  refine accepted.identifier name ?_
  simp only [declaredNames, List.mem_append, Table.names]
  rcases mem_of_scope h with ⟨hm | hm, -⟩ | ⟨hm, -⟩
  · exact Or.inl (Or.inl (List.mem_map_of_mem hm))
  · exact Or.inl (Or.inr (List.mem_map_of_mem hm))
  · exact Or.inr hm

/-- The names of an accepted automaton can be told apart in the text of formulas. -/
theorem Accepted.vocabulary (accepted : m.Accepted) :
    Vocabulary m.scope.Declares m.scope.Proposes :=
  Scope.vocabulary fun _ _ h => accepted.identifier_of_scope h

end Automaton

end HybridCheck
