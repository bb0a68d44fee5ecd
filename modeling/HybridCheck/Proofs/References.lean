import HybridCheck.Proofs.Files
import HybridCheck.Proofs.Resolution

/-!
# References of accepted definitions

A definition is accepted part by part, each with what it may refer to. An accepted part holds no
flow primitive, its identifiers are declared with their sorts in a class that the part may refer to,
and it refers to values after a jump only where that is allowed. Two things are taken on trust: the
sort that a reference after a jump carries, and that a variable of the role of a bound one stands
under its quantifier. The reader gives references the sorts that are declared and writes no
quantifiers, so the definitions of model files keep both.
-/

namespace HybridCheck

open Term

namespace Definition

/-! ## Parts -/

/-- A part of a definition, with what it may refer to. -/
inductive Part (d : Definition) : Access → Term → Prop
  | init {t : Term} (h : d.init = some t) : d.Part { state := true, mode := true } t
  | prop {id : String} {t : Term} (h : (id, t) ∈ d.props) :
      d.Part { state := true, mode := true } t
  | guard {x : ModeDef} {t : Term} (hx : x ∈ d.modes) (h : x.guard = some t) :
      d.Part { mode := true } t
  | invariant {x : ModeDef} {t : Term} (hx : x ∈ d.modes) (h : x.invariant = some t) :
      d.Part { state := true, mode := true, postJump := true } t
  | rate {x : ModeDef} {id : String} {t : Term} (hx : x ∈ d.modes)
      (h : Table.get? x.flow.rates id = some t) :
      d.Part { state := true, mode := true, clock := some x.flow.clock } t
  | solution {x : ModeDef} {id : String} {t : Term} (hx : x ∈ d.modes)
      (h : Table.get? x.flow.solution id = some t) :
      d.Part { state := true, mode := true, clock := some x.flow.clock } t
  | jump {j : JumpDef} {t : Term} (hj : j ∈ d.jumps) (h : j.guard = some t) :
      d.Part { state := true, mode := true } t
  | reset {j : JumpDef} {t : Term} (hj : j ∈ d.jumps) (h : j.reset = some t) :
      d.Part { state := true, mode := true, postJump := true } t

/-- A name is declared with a sort in a class that a place may refer to. -/
def Declares (d : Definition) (a : Access) (id : String) (s : TermSort) : Prop :=
  a.state = true ∧ d.stateVars.get? id = some s ∨ a.mode = true ∧ d.modeVars.get? id = some s

/-- A name is declared with a sort, as a state or as a mode variable. -/
abbrev DeclaresSome (d : Definition) : String → TermSort → Prop :=
  d.Declares { state := true, mode := true }

variable {d : Definition} {a : Access} {t : Term}

theorem declares_of_sort? {id : String} {s : TermSort} (h : d.sort? a id = some s) :
    d.Declares a id s := by
  rw [sort?, Option.or_eq_some_iff] at h
  rcases h with h | ⟨-, h⟩
  · split at h
    · next ha => exact Or.inl ⟨ha, h⟩
    · cases h
  · split at h
    · next ha => exact Or.inr ⟨ha, h⟩
    · cases h

/-! ## What the check sees to -/

/-- Every reference in a term is allowed at its place. Nothing is said of the sort of a reference
after a jump, and a variable that is no identifier may have the role of a bound one. -/
structure Vets (d : Definition) (a : Access) (t : Term) : Prop where
  identifier : ∀ v, .var v ∈ t.subterms → v.role = .logical → d.Declares a v.name v.sort
  next : ∀ v, .next v ∈ t.subterms → a.postJump = true ∧ ∃ s, d.DeclaresSome v.name s
  other : ∀ v, .var v ∈ t.subterms → v.role ≠ .logical → a.clock = some v ∨ v.role = .bound
  primitive : t.flowFree = true

/-- Every reference in a term is declared for its place, with its sort, and what is no identifier is
the clock of the place or stands under a quantifier that binds it. -/
structure Resolves (d : Definition) (a : Access) (t : Term) : Prop where
  identifier : ∀ v, .var v ∈ t.subterms → v.role = .logical → d.Declares a v.name v.sort
  next : ∀ v, .next v ∈ t.subterms → a.postJump = true ∧ d.DeclaresSome v.name v.sort
  other : ∀ v, t.mentions v = true → v.role ≠ .logical → a.clock = some v
  primitive : t.flowFree = true

theorem Vets.of_admits (clock : ∀ c, a.clock = some c → c.role = .bound) (h : d.Admits a t) :
    d.Vets a t where
  identifier v hv logical := by
    rcases h _ hv with here | bound | ⟨-, declared⟩
    · cases (clock v here).symm.trans logical
    · cases bound.symm.trans logical
    · exact declares_of_sort? declared
  next v hv := by
    obtain ⟨postJump, declared⟩ := h _ hv
    obtain ⟨s, hs⟩ := Option.isSome_iff_exists.1 declared
    exact ⟨postJump, s, declares_of_sort? hs⟩
  other v hv other := by
    rcases h _ hv with here | bound | ⟨logical, -⟩
    · exact Or.inl here
    · exact Or.inr bound
    · exact absurd logical other
  primitive := h.flowFree

/-! ## Every part is checked -/

theorem modes_of_checkModes {seen : List Int} {xs : List ModeDef} {mds : List Mode}
    (h : d.checkModes seen xs = .ok mds) : ∀ x ∈ xs, ∃ md, d.checkMode x = .ok md := by
  induction xs generalizing seen mds with
  | nil => simp
  | cons x xs ih =>
    rw [checkModes] at h
    split at h
    · cases h
    · obtain ⟨md, hmd, h⟩ := Attempt.bind_eq_ok.1 h
      obtain ⟨rest, hrest, h⟩ := Attempt.bind_eq_ok.1 h
      exact List.forall_mem_cons.2 ⟨⟨md, hmd⟩, ih hrest⟩

theorem jumps_of_checkJumps {i : Nat} {xs : List JumpDef} {js : List Jump}
    (h : d.checkJumps i xs = .ok js) : js = xs.map JumpDef.complete := by
  induction xs generalizing i js with
  | nil =>
    cases h
    rfl
  | cons x xs ih =>
    obtain ⟨_, -, h⟩ := Attempt.bind_eq_ok.1 h
    obtain ⟨_, -, h⟩ := Attempt.bind_eq_ok.1 h
    obtain ⟨rest, hrest, h⟩ := Attempt.bind_eq_ok.1 h
    cases h
    rw [ih hrest, List.map_cons]

variable {m : Automaton} (made : Automaton.ofDefinition d = .ok m)
include made

theorem admitted_of_mem {x : ModeDef} (hx : x ∈ d.modes) : d.ModeAdmitted x.complete := by
  obtain ⟨_, -, made⟩ := Attempt.bind_eq_ok.1 made
  obtain ⟨_, -, made⟩ := Attempt.bind_eq_ok.1 made
  obtain ⟨_, -, made⟩ := Attempt.bind_eq_ok.1 made
  split at made
  · cases made
  · obtain ⟨_, hmodes, -⟩ := Attempt.bind_eq_ok.1 made
    obtain ⟨md, hmd⟩ := modes_of_checkModes hmodes x hx
    rw [complete_of_checkMode hmd]
    exact modeAdmitted_of_checkMode hmd

/-- Every part of an accepted definition refers to what its place admits. -/
theorem Part.admitted (part : d.Part a t) : d.Admits a t := by
  have built := Automaton.built_of_ofDefinition made
  have jumps (x : JumpDef) (hx : x ∈ d.jumps) :
      d.Admits { state := true, mode := true } x.complete.guard ∧
        d.Admits { state := true, mode := true, postJump := true } x.complete.reset := by
    have made : x.complete ∈ m.jumps :=
      jumps_of_checkJumps built.jumps ▸ List.mem_map_of_mem hx
    obtain ⟨-, _, _, hguard, hreset⟩ := exists_of_checkJumps built.jumps _ made
    exact ⟨uses_of_checkConstraint hguard, uses_of_checkConstraint hreset⟩
  cases part with
  | init h =>
    have start : t = m.init := by simpa [h] using built.start
    exact start ▸ uses_of_checkConstraint built.init
  | prop h =>
    obtain ⟨_, h⟩ := exists_of_checkProps built.definitions _ h
    exact uses_of_checkConstraint h
  | @guard x _ hx h => simpa [ModeDef.complete, h] using (admitted_of_mem made hx).guard
  | @invariant x _ hx h => simpa [ModeDef.complete, h] using (admitted_of_mem made hx).invariant
  | rate hx h => exact (admitted_of_mem made hx).flow _ _ (Or.inr h)
  | solution hx h => exact (admitted_of_mem made hx).flow _ _ (Or.inl h)
  | @jump x _ hx h => simpa [JumpDef.complete, h] using (jumps x hx).1
  | @reset x _ hx h => simpa [JumpDef.complete, h] using (jumps x hx).2

theorem Part.vetted (part : d.Part a t) : d.Vets a t := by
  refine .of_admits (fun c hc => ?_) (part.admitted made)
  cases part with
  | rate hx | solution hx =>
    cases hc
    exact (admitted_of_mem made hx).clock
  | _ => cases hc

omit made in
/-- A place with a clock has no references after a jump. -/
theorem Part.postJump_of_clock (part : d.Part a t) {c : Var} (h : a.clock = some c) :
    a.postJump = false := by
  cases part <;> first | rfl | cases h

omit made in
/-- Every part of a definition that a file wrote is spelled with its names and its clock. -/
theorem Spelled.part (spelled : d.Spelled) (part : d.Part a t) :
    t.Spelled fun v => d.Lists v ∨ a.clock = some v := by
  have names {t : Term} (h : t.Spelled d.Lists) : t.Spelled fun v => d.Lists v ∨ a.clock = some v :=
    h.mono (fun _ => Or.inl) (fun _ => Or.inl) fun _ h => h
  cases part with
  | init h => exact names (spelled.init _ h)
  | prop h => exact names (spelled.props _ h)
  | guard hx h => exact names ((spelled.modes _ hx).guard _ h)
  | invariant hx h => exact names ((spelled.modes _ hx).invariant _ h)
  | rate hx h => exact names ((spelled.modes _ hx).rates _ (Table.mem_of_get? h))
  | solution hx h =>
    exact ((spelled.modes _ hx).solution _ (Table.mem_of_get? h)).mono
      (fun _ => Or.imp_right fun h => h ▸ rfl) (fun _ => Or.imp_right fun h => h ▸ rfl) fun _ h => h
  | jump hj h => exact names ((spelled.jumps _ hj).1 _ h)
  | reset hj h => exact names ((spelled.jumps _ hj).2 _ h)

theorem declares_of_lists {v : Var} (h : d.Lists v) : d.DeclaresSome v.name v.sort := by
  have built := Automaton.built_of_ofDefinition made
  have accepted := Automaton.accepted_of_ofDefinition made
  refine h.2.imp (fun h => ⟨rfl, ?_⟩) fun h => ⟨rfl, ?_⟩
  · exact Table.get?_of_mem (built.stateVars ▸ accepted.distinct_state) h
  · exact Table.get?_of_mem (built.modeVars ▸ accepted.distinct_mode) h

theorem Spelled.resolves (spelled : d.Spelled) (part : d.Part a t) : d.Resolves a t where
  identifier := (part.vetted made).identifier
  next v hv := by
    have postJump := ((part.vetted made).next v hv).1
    refine ⟨postJump, ?_⟩
    rcases (spelled.part part).of_next hv with listed | clock
    · exact declares_of_lists made listed
    · cases (part.postJump_of_clock clock).symm.trans postJump
  other v hv other := ((spelled.part part).of_mentions hv).resolve_left fun h => other h.1
  primitive := (part.vetted made).primitive

end Definition

open Definition

/-- In every part of an accepted definition, identifiers are declared with their sorts in a class
that the part may refer to, references after a jump stand in invariants and resets and name what is
declared, other variables are the clock in the flow of its mode or have the role of bound ones, and
there are no flow primitives. If the definition is that of a model file, references after a jump
carry the sorts that are declared, and the clocks are the only other variables that occur free. -/
theorem references_declared {d : Definition} {m : Automaton}
    (made : Automaton.ofDefinition d = .ok m) : (∀ a t, d.Part a t → d.Vets a t) ∧
      ∀ file : ModelFile, file.definition = .ok d → ∀ a t, d.Part a t → d.Resolves a t :=
  ⟨fun _ _ part => part.vetted made,
    fun _ written _ _ part => (ModelFile.spelled_of_definition written).resolves made part⟩

/-! ## A ramp -/

/-- What a definition is made into whose parts are taken over as they are. -/
def Definition.taken (d : Definition) : Automaton where
  stateVars := d.stateVars
  modeVars := d.modeVars
  props := d.props
  init := d.init.getD .top
  modes := d.modes.map ModeDef.complete
  jumps := d.jumps.map JumpDef.complete
  logic := d.logic

/-- A model file in which a variable rises while a switch is on, and is reset by every jump. -/
def rampFile : ModelFile where
  stateVars := [("x", "real")]
  modeVariables := [("on", "bool")]
  init := "x = 0 & on"
  modes := [{ guard := "on", clock := "t", solution := [("x", "x + t")], invariant := "x <= 3" }]
  jumps := [{ guard := "x > 1", reset := "x' = 0 & on'" }]

def risen : Var := ⟨"x", .real, .logical⟩

def rampReset : Term := .and [.mkEq (.next risen) .zero, .next ⟨"on", .bool, .logical⟩]

def ramp : Definition where
  stateVars := [("x", .real)]
  modeVars := [("on", .bool)]
  init := some (.and [.mkEq (.var risen) .zero, .var ⟨"on", .bool, .logical⟩])
  modes := [{
    id := 0
    guard := some (.var ⟨"on", .bool, .logical⟩)
    flow := ⟨⟨"t", .real, .bound⟩, [], [("x", .add .real [.var risen, .var ⟨"t", .real, .bound⟩])]⟩
    invariant := some (.mkLe (.var risen) (.real 3)) }]
  jumps := [{ guard := some (.mkGt (.var risen) (.real 1)), reset := some rampReset }]

theorem definition_ramp : rampFile.definition = .ok ramp := by cbv

theorem ofDefinition_ramp : Automaton.ofDefinition ramp = .ok ramp.taken := by cbv

/-- The reset of the ramp is resolved. -/
theorem references_declared_ramp : Automaton.ofDefinition ramp = .ok ramp.taken ∧
    rampFile.definition = .ok ramp ∧
    ramp.Part { state := true, mode := true, postJump := true } rampReset ∧
    ramp.Resolves { state := true, mode := true, postJump := true } rampReset := by
  have part : ramp.Part { state := true, mode := true, postJump := true } rampReset :=
    .reset (j := ⟨some (.mkGt (.var risen) (.real 1)), some rampReset⟩) (by simp [ramp]) rfl
  exact ⟨ofDefinition_ramp, definition_ramp, part,
    (references_declared ofDefinition_ramp).2 rampFile definition_ramp _ _ part⟩

/-! ## What is taken on trust -/

def still : Flow := ⟨⟨"t", .real, .bound⟩, [], []⟩

def mistakenReset : Term := .cmp .eq (.next ⟨"x", .int, .logical⟩) (.num .int 0)

/-- The variable is declared as a real one. -/
def mistaken : Definition where
  stateVars := [("x", .real)]
  modes := [{ id := 0, flow := still }]
  jumps := [{ reset := some mistakenReset }]

/-- An initial condition that reads the clock of a mode. -/
def untimely : Definition where
  init := some (.cmp .eq (.var still.clock) .zero)
  modes := [{ id := 0, flow := still }]

theorem ofDefinition_mistaken : Automaton.ofDefinition mistaken = .ok mistaken.taken := by cbv

theorem ofDefinition_untimely : Automaton.ofDefinition untimely = .ok untimely.taken := by cbv

/-- An accepted definition may refer to a value after a jump with a sort that is not declared, and
to a bound variable outside of any quantifier. -/
theorem references_unchecked :
    ¬ (∀ (d : Definition) (m : Automaton), Automaton.ofDefinition d = .ok m → ∀ a t, d.Part a t →
      ∀ v, .next v ∈ t.subterms → d.DeclaresSome v.name v.sort) ∧
    ¬ ∀ (d : Definition) (m : Automaton), Automaton.ofDefinition d = .ok m → ∀ a t, d.Part a t →
      ∀ v, t.mentions v = true → v.role ≠ .logical → a.clock = some v := by
  refine ⟨fun h => ?_, fun h => ?_⟩
  · have part : mistaken.Part { state := true, mode := true, postJump := true } mistakenReset :=
      .reset (j := { reset := some mistakenReset }) (by simp [mistaken]) rfl
    have declared := h _ _ ofDefinition_mistaken _ _ part ⟨"x", .int, .logical⟩
      (by simp [mistakenReset, subterms, nodes])
    simp [Definition.Declares, mistaken, Table.get?] at declared
  · have clock := h _ _ ofDefinition_untimely _ _ (.init rfl) still.clock (by decide) (by decide)
    cases clock

end HybridCheck
