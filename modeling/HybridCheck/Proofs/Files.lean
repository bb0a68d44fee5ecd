import HybridCheck.ModelFile.Basic
import HybridCheck.Proofs.Acceptance
import HybridCheck.Proofs.Declarations

/-!
# What a model file says

Whatever a model file writes is read over its names, which the reader looks up together with their
sorts. So every constraint and every expression of a file is built by operators from declared names,
as they are or after a jump, and the solutions of a mode from its clock besides. There are no
quantifiers and no flow primitives in a file.
-/

namespace HybridCheck

open Term

/-- A term is built by operators from variables with `N`, as they are and after a jump. -/
abbrev Term.Spelled (N : Var → Prop) : Term → Prop := Over N N noPrimitive

theorem Term.hereditary_spelled {N : Var → Prop} : Hereditary (Spelled N) :=
  hereditary_over fun _ _ _ h => h.elim

/-! ## What is read over a scope -/

namespace Parser

variable {cx : Context} {N : Var → Prop}

theorem spelled_comparisonOf {a b c : Term} {op : String} (ha : a.Spelled N) (hb : b.Spelled N)
    (h : comparisonOf? op a b = some c) : c.Spelled N := by
  unfold comparisonOf? at h
  repeat' split at h
  all_goals cases h
  all_goals first
    | exact hereditary_spelled.mkCmp _ ha hb
    | exact hereditary_spelled.mkNot (hereditary_spelled.mkCmp _ ha hb)

theorem spelled_grammar (names : ∀ v, cx.scope.Declares v → N v) :
    Grammar cx (Spelled N) (Spelled N) where
  real := hereditary_spelled.num .real
  bool := hereditary_spelled.bool
  var hv := .var (names _ hv)
  next hv _ := .next (names _ hv)
  mkAdd ha hb := hereditary_spelled.mkAdd (by simpa using ⟨ha, hb⟩)
  mkMul ha hb := hereditary_spelled.mkMul (by simpa using ⟨ha, hb⟩)
  mkSub := hereditary_spelled.mkSub
  mkDiv := hereditary_spelled.mkDiv
  mkNeg := hereditary_spelled.mkNeg
  signal hv _ _ := .var (names _ hv)
  signalNext hv _ _ := .next (names _ hv)
  comparison ha hb _ := spelled_comparisonOf ha hb

end Parser

section

variable {scope : Scope} {N : Var → Prop} (names : ∀ v, scope.Declares v → N v) {s : String}
  {t : Term}
include names

theorem Term.spelled_of_constraintOfText (h : constraintOfText scope s = .ok t) : t.Spelled N := by
  obtain ⟨ts, hts, h⟩ := Attempt.bind_eq_ok.1 h
  obtain ⟨p, hp, h⟩ := Attempt.bind_eq_ok.1 h
  obtain ⟨f, hf, h⟩ := Attempt.bind_eq_ok.1 h
  exact (Parser.formed_of_finished (Parser.spelled_grammar names) hts hp hf).toConstraint
    (hereditary_spelled.inherited _) h

theorem Term.spelled_of_ofText (h : Term.ofText scope s = .ok t) : t.Spelled N := by
  obtain ⟨ts, hts, h⟩ := Attempt.bind_eq_ok.1 h
  obtain ⟨p, hp, h⟩ := Attempt.bind_eq_ok.1 h
  have grammar : Parser.Grammar ⟨scope, true, (byteChars s).length⟩ (Spelled N) (Spelled N) :=
    Parser.spelled_grammar names
  have plain := Token.plain_of_scanFrom hts
  have read := ((Parser.reads_arithmetic grammar _ ts rfl plain).sum p hp).1
  unfold Parser.finished at h
  split at h
  · cases h
    exact read
  · cases h

end

/-! ## Definitions -/

/-- A variable is an identifier that is listed with its sort. -/
def Definition.Lists (d : Definition) (v : Var) : Prop :=
  v.role = .logical ∧ ((v.name, v.sort) ∈ d.stateVars ∨ (v.name, v.sort) ∈ d.modeVars)

/-- The constraints and rates of a mode are built from names with `N`, and its solutions from its
clock, too. -/
structure ModeDef.Spelled (N : Var → Prop) (x : ModeDef) : Prop where
  guard : ∀ t ∈ x.guard, t.Spelled N
  invariant : ∀ t ∈ x.invariant, t.Spelled N
  rates : ∀ e ∈ x.flow.rates, e.2.Spelled N
  solution : ∀ e ∈ x.flow.solution, e.2.Spelled fun v => N v ∨ v = x.flow.clock

/-- The constraints of a definition are built from the names that it lists, and its modes, too. -/
structure Definition.Spelled (d : Definition) : Prop where
  init : ∀ t ∈ d.init, t.Spelled d.Lists
  props : ∀ e ∈ d.props, e.2.Spelled d.Lists
  modes : ∀ x ∈ d.modes, x.Spelled d.Lists
  jumps : ∀ j ∈ d.jumps, (∀ t ∈ j.guard, t.Spelled d.Lists) ∧ ∀ t ∈ j.reset, t.Spelled d.Lists

namespace ModelFile

variable {scope : Scope} {N : Var → Prop}

section

variable (names : ∀ v, scope.Declares v → N v)
include names

theorem spelled_constraint {place text : String} {o : Option Term}
    (h : constraint? place text scope = .ok o) : ∀ t ∈ o, t.Spelled N := by
  unfold constraint? at h
  split at h
  · cases h
    simp
  · obtain ⟨t, ht, h⟩ := Attempt.bind_eq_ok.1 h
    cases h
    simpa using spelled_of_constraintOfText names (Attempt.within_eq_ok.1 ht)

theorem spelled_expressions {place : String} {texts : Table String} {ts : Table Term}
    (h : expressions place scope texts = .ok ts) : ∀ e ∈ ts, e.2.Spelled N := by
  induction texts generalizing ts with
  | nil =>
    cases h
    simp
  | cons e texts ih =>
    obtain ⟨t, ht, h⟩ := Attempt.bind_eq_ok.1 h
    obtain ⟨rest, hrest, h⟩ := Attempt.bind_eq_ok.1 h
    cases h
    exact List.forall_mem_cons.2
      ⟨spelled_of_ofText names (Attempt.within_eq_ok.1 ht), ih hrest⟩

theorem spelled_definitions {texts : Table String} {ts : Table Term}
    (h : definitions scope texts = .ok ts) : ∀ e ∈ ts, e.2.Spelled N := by
  induction texts generalizing ts with
  | nil =>
    cases h
    simp
  | cons e texts ih =>
    obtain ⟨o, ho, h⟩ := Attempt.bind_eq_ok.1 h
    cases o with
    | none => cases h
    | some t =>
      obtain ⟨rest, hrest, h⟩ := Attempt.bind_eq_ok.1 h
      cases h
      exact List.forall_mem_cons.2 ⟨spelled_constraint names ho t rfl, ih hrest⟩

theorem spelled_jumpDefs {files : List JumpFile} {i : Nat} {js : List JumpDef}
    (h : jumpDefs scope i files = .ok js) :
    ∀ j ∈ js, (∀ t ∈ j.guard, t.Spelled N) ∧ ∀ t ∈ j.reset, t.Spelled N := by
  induction files generalizing i js with
  | nil =>
    cases h
    simp
  | cons file files ih =>
    obtain ⟨guard, hguard, h⟩ := Attempt.bind_eq_ok.1 h
    obtain ⟨reset, hreset, h⟩ := Attempt.bind_eq_ok.1 h
    obtain ⟨rest, hrest, h⟩ := Attempt.bind_eq_ok.1 h
    cases h
    exact List.forall_mem_cons.2
      ⟨⟨spelled_constraint names hguard, spelled_constraint names hreset⟩, ih hrest⟩

/-- A clock is put into scope for the solutions of its mode. -/
theorem names_put {c : Var} {d : Decl} (hc : d.sort = c.sort ∧ d.role = c.role) {v : Var}
    (hv : Scope.Declares (scope.put c.name d) v) : N v ∨ v = c := by
  obtain ⟨d', hd', prop, sort, role⟩ := hv.declared
  by_cases hname : c.name = v.name
  · rw [← hname, Table.get?_put_self] at hd'
    cases hd'
    refine Or.inr ?_
    obtain ⟨cname, cs, cr⟩ := c
    obtain ⟨vname, vs, vr⟩ := v
    simp only at hname sort role hc
    rw [← hname, ← sort, ← role, hc.1, hc.2]
  · rw [Table.get?_put_of_ne _ _ hname] at hd'
    exact Or.inl (names _ ⟨hv.constant, d', hd', prop, sort, role⟩)

theorem spelled_modeDef {file : ModeFile} {x : ModeDef} (h : modeDef scope file = .ok x) :
    x.Spelled N := by
  obtain ⟨guard, hguard, h⟩ := Attempt.bind_eq_ok.1 h
  obtain ⟨invariant, hinvariant, h⟩ := Attempt.bind_eq_ok.1 h
  generalize hscope : (if file.clock = "" then _ else _) = clocked at h
  obtain ⟨clock, flowScope⟩ := clocked
  have flowNames (v : Var) (hv : flowScope.Declares v) : N v ∨ v = clock := by
    split at hscope
    · cases hscope
      exact Or.inl (names v hv)
    · cases hscope
      exact names_put names (c := ⟨file.clock, .real, .bound⟩) ⟨rfl, rfl⟩ hv
  obtain ⟨rates, hrates, h⟩ := Attempt.bind_eq_ok.1 h
  obtain ⟨solution, hsolution, h⟩ := Attempt.bind_eq_ok.1 h
  cases h
  exact ⟨spelled_constraint names hguard, spelled_constraint names hinvariant,
    spelled_expressions names hrates, spelled_expressions flowNames hsolution⟩

end

/-- What the scope of a model file declares is listed in its definition. -/
theorem mem_of_declares {sorts : Table TermSort} {v : Var}
    (h : Scope.Declares (Table.ofEntries (sorts.map fun e => (e.1, { sort := e.2 }))) v) :
    v.role = .logical ∧ (v.name, v.sort) ∈ sorts := by
  obtain ⟨d, hd, -, sort, role⟩ := h.declared
  rcases Table.mem_of_get?_merge (t := []) hd with hd | hd
  · cases hd
  · obtain ⟨e, he, heq⟩ := List.mem_map.1 hd
    obtain ⟨name, rfl⟩ := Prod.mk.inj heq
    refine ⟨role.symm, ?_⟩
    rw [← name, ← sort]
    exact he

theorem spelled_of_definition {file : ModelFile} {d : Definition} (h : file.definition = .ok d) :
    d.Spelled := by
  obtain ⟨stateVars, -, h⟩ := Attempt.bind_eq_ok.1 h
  obtain ⟨modeVars, -, h⟩ := Attempt.bind_eq_ok.1 h
  obtain ⟨props, hprops, h⟩ := Attempt.bind_eq_ok.1 h
  obtain ⟨init, hinit, h⟩ := Attempt.bind_eq_ok.1 h
  obtain ⟨modes, hmodes, h⟩ := Attempt.bind_eq_ok.1 h
  obtain ⟨jumps, hjumps, h⟩ := Attempt.bind_eq_ok.1 h
  cases h
  have names (v : Var) (hv : Scope.Declares (Table.ofEntries
      ((stateVars ++ modeVars).map fun e => (e.1, { sort := e.2 }))) v) :
      v.role = .logical ∧ ((v.name, v.sort) ∈ stateVars ∨ (v.name, v.sort) ∈ modeVars) :=
    (mem_of_declares hv).imp_right List.mem_append.1
  refine ⟨spelled_constraint names hinit, spelled_definitions names hprops, fun x hx => ?_,
    spelled_jumpDefs names hjumps⟩
  obtain ⟨file, -, hfile⟩ := Attempt.mem_of_mapM hmodes hx
  exact spelled_modeDef names hfile

/-- A model that was loaded is made of the definition of a file. -/
theorem definition_of_load {text : String} {m : Automaton} {file : ModelFile}
    (h : load text = .ok (m, file)) :
    ∃ d : Definition, file.definition = .ok d ∧ Automaton.ofDefinition d = .ok m := by
  obtain ⟨file', -, h⟩ := Attempt.bind_eq_ok.1 h
  obtain ⟨m', hm, h⟩ := Attempt.bind_eq_ok.1 h
  cases h
  exact Attempt.bind_eq_ok.1 hm

end ModelFile

end HybridCheck
