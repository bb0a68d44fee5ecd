import HybridCheck.Proofs.Files
import HybridCheck.Proofs.Provenance

/-!
# Steps and their neighbours

Whatever a model file writes is read over its identifiers. Only the solutions of a mode see its
clock besides. So once the flow primitives are turned into arithmetic, the clock of a mode is
replaced by a duration or bound by a quantifier, and all other variables are symbols of the step
that is encoded. A jump adds the symbols at the start of the next step, and nothing else of it.
-/

namespace HybridCheck

/-! ## What is read -/

namespace Term

/-- A term reads nothing that is bound but variables with `B`, and has no flow primitives. -/
abbrev Reads (B : Var → Prop) (t : Term) : Prop :=
  t.Uses (fun v => v.role = .logical ∨ B v) (fun _ => True) anyBinder noPrimitive

theorem Uses.refers_mono {R : String → Prop} {K L Q B : Var → Prop} {F : Term → Prop} {t : Term}
    (h : t.Uses (Refers R K) Q B F) (hK : ∀ v, K v → L v) : t.Uses (Refers R L) Q B F :=
  h.mono (fun v hv => ⟨hv.identifier, fun hr => hK v (hv.known hr)⟩) (fun _ h => h) fun _ h => h

/-- Whatever in a part of an automaton is not an identifier was read. -/
theorem Uses.of_reads {R : String → Prop} {B Q : Var → Prop} {t : Term}
    (h : t.Uses (Refers R fun v => v.role = .bound) Q anyBinder noPrimitive) (reads : t.Reads B) :
    t.Uses (Refers R B) Q anyBinder noPrimitive := by
  intro n hn
  have used := h n hn
  have read := reads n hn
  cases n with
  | var v => exact ⟨used.identifier, fun hr => read.resolve_left hr⟩
  | _ => exact used

end Term

open Term

/-- A term reads identifiers only. -/
abbrev Term.Unclocked (t : Term) : Prop := t.Reads fun _ => False

/-- The constraints and rates of a mode read identifiers, and its solutions its clock, too. -/
structure ModeDef.Written (x : ModeDef) : Prop where
  guard : ∀ t ∈ x.guard, t.Unclocked
  invariant : ∀ t ∈ x.invariant, t.Unclocked
  rates : ∀ e ∈ x.flow.rates, e.2.Unclocked
  solution : ∀ e ∈ x.flow.solution, e.2.Reads (· = x.flow.clock)

/-- The constraints of a definition read identifiers, and its modes are so written. -/
structure Definition.Written (d : Definition) : Prop where
  init : ∀ t ∈ d.init, t.Unclocked
  props : ∀ e ∈ d.props, e.2.Unclocked
  modes : ∀ x ∈ d.modes, x.Written
  jumps : ∀ j ∈ d.jumps, (∀ t ∈ j.guard, t.Unclocked) ∧ ∀ t ∈ j.reset, t.Unclocked

/-- What is spelled with declared names reads identifiers. -/
theorem Term.Spelled.reads {N B : Var → Prop} {t : Term} (h : t.Spelled N)
    (names : ∀ v, N v → v.role = .logical ∨ B v) : t.Reads B :=
  h.uses.mono names (fun _ _ => trivial) fun _ h => h

theorem Definition.Spelled.written {d : Definition} (h : d.Spelled) : d.Written := by
  have unclocked {t : Term} (ht : t.Spelled d.Lists) : t.Unclocked :=
    ht.reads fun _ hv => Or.inl hv.1
  refine ⟨fun t ht => unclocked (h.init t ht), fun e he => unclocked (h.props e he),
    fun x hx => ?_, fun j hj => ?_⟩
  · have mode := h.modes x hx
    exact ⟨fun t ht => unclocked (mode.guard t ht), fun t ht => unclocked (mode.invariant t ht),
      fun e he => unclocked (mode.rates e he),
      fun e he => (mode.solution e he).reads fun _ hv => hv.imp_left And.left⟩
  · obtain ⟨guard, reset⟩ := h.jumps j hj
    exact ⟨fun t ht => unclocked (guard t ht), fun t ht => unclocked (reset t ht)⟩

/-! ## Clocks -/

namespace Automaton

/-- No condition or rate of an automaton reads anything but identifiers, and a solution reads the
clock of its mode besides. -/
structure KeepsClocks (m : Automaton) : Prop
    extends m.ConditionsRefer (fun _ => False) anyBinder where
  rate : ∀ md ∈ m.modes, ∀ id a, Table.get? md.flow.rates id = some a →
    a.Uses (m.Identifies fun _ => False) noReference anyBinder noPrimitive
  solution : ∀ md ∈ m.modes, ∀ id a, Table.get? md.flow.solution id = some a →
    a.Uses (m.Identifies (· = md.flow.clock)) noReference anyBinder noPrimitive

theorem unclocked_getD {o : Option Term} (h : ∀ t ∈ o, t.Unclocked) : (o.getD .top).Unclocked := by
  cases o with
  | none => exact hereditary_uses.bool true
  | some t => exact h t rfl

theorem keepsClocks_of_written {d : Definition} (written : d.Written) {m : Automaton}
    (h : ofDefinition d = .ok m) : m.KeepsClocks := by
  have built := built_of_ofDefinition h
  have referring : m.Referring (fun v => v.role = .bound) anyBinder := built.referring fun _ => id
  have mode {md : Mode} (hmd : md ∈ m.modes) : ∃ x : ModeDef, x.Written ∧ x.complete = md := by
    obtain ⟨x, hx, checked⟩ := built.modes md hmd
    exact ⟨x, written.modes x hx, Definition.complete_of_checkMode checked⟩
  refine ⟨⟨?_, fun e he => ?_, fun md hmd => ?_, fun md hmd => ?_, fun j hj => ?_⟩,
    fun md hmd id a ha => ?_, fun md hmd id a ha => ?_⟩
  · exact referring.init.of_reads (built.start ▸ unclocked_getD written.init)
  · exact (referring.props e he).of_reads (written.props e (built.props ▸ he))
  · obtain ⟨x, hx, rfl⟩ := mode hmd
    exact (referring.guard _ hmd).of_reads (unclocked_getD hx.guard)
  · obtain ⟨x, hx, rfl⟩ := mode hmd
    exact (referring.invariant _ hmd).of_reads (unclocked_getD hx.invariant)
  · obtain ⟨⟨x, hx, rfl⟩, -⟩ := Definition.exists_of_checkJumps built.jumps j hj
    obtain ⟨guard, reset⟩ := written.jumps x hx
    obtain ⟨hguard, hreset⟩ := referring.jumps _ hj
    exact ⟨hguard.of_reads (unclocked_getD guard), hreset.of_reads (unclocked_getD reset)⟩
  · obtain ⟨x, hx, rfl⟩ := mode hmd
    exact (referring.flow _ hmd id a (Or.inr ha)).of_reads (hx.rates _ (Table.mem_of_get? ha))
  · obtain ⟨x, hx, rfl⟩ := mode hmd
    exact (referring.flow _ hmd id a (Or.inl ha)).of_reads (hx.solution _ (Table.mem_of_get? ha))

end Automaton

/-- A model that was loaded is made of a definition that was written in a file. -/
theorem ModelFile.exists_of_load {text : String} {m : Automaton} {file : ModelFile}
    (h : load text = .ok (m, file)) :
    ∃ d : Definition, d.Written ∧ Automaton.ofDefinition d = .ok m := by
  obtain ⟨d, hd, made⟩ := definition_of_load h
  exact ⟨d, (spelled_of_definition hd).written, made⟩

/-! ## Free variables -/

namespace Term

/-- A term in plain arithmetic all of whose free variables are known. -/
structure OpenIn (K : Var → Prop) (t : Term) : Prop where
  flowFree : t.flowFree = true
  free : ∀ v, t.mentions v = true → K v

variable {K B Q : Var → Prop} {c : Var} {t u : Term}

theorem hereditary_openIn : Hereditary (OpenIn K) := by
  intro t o ho
  constructor
  · rintro ⟨flowFree, free⟩ a ha
    exact ⟨(hereditary_flowFree t o ho).1 flowFree a ha, (hereditary_mentions K t o ho).1 free a ha⟩
  · intro h
    exact ⟨(hereditary_flowFree t o ho).2 fun a ha => (h a ha).flowFree,
      (hereditary_mentions K t o ho).2 fun a ha => (h a ha).free⟩

/-- A quantifier closes a term in the variable that it binds. -/
theorem OpenIn.close {q : Quantifier} (h : t.OpenIn fun v => K v ∨ v = c) :
    (quant q c t).OpenIn K where
  flowFree := by simpa using h.flowFree
  free v hv := by
    obtain ⟨hv, hne⟩ := mentions_quant.1 hv
    exact (h.free v hv).resolve_right hne

theorem OpenIn.mono {K' : Var → Prop} (hK : ∀ v, K v → K' v) (h : t.OpenIn K) : t.OpenIn K' :=
  ⟨h.flowFree, fun v hv => hK v (h.free v hv)⟩

theorem OpenIn.quant {q : Quantifier} {v : Var} (h : t.OpenIn K) : (Term.quant q v t).OpenIn K :=
  OpenIn.close (h.mono fun _ => Or.inl)

theorem OpenIn.mkAll (h : t.OpenIn fun v => K v ∨ v = c) : (mkAll c t).OpenIn K := by
  unfold Term.mkAll mkQuant
  split
  · next b hb =>
    rcases truth?_eq_some hb with rfl | ⟨⟨s, q, rfl⟩, -⟩
    · exact hereditary_openIn.bool b
    · exact hereditary_openIn.num s q
  · exact h.close

/-- What is resolved has no flow primitives. -/
theorem Uses.openIn (h : t.Resolved K B Q) : t.OpenIn K where
  flowFree := Uses.flowFree h
  free _ hv := h _ (mem_subterms_of_mentions hv)

/-- A clock that is replaced does not occur any more. -/
theorem Uses.replace_openIn {d : Term} (h : t.Resolved (fun v => K v ∨ v = c) B Q)
    (hd : d.OpenIn K) (hu : t.replace c d = .ok u) : u.OpenIn K := by
  refine Uses.transform_keeps hereditary_openIn (fun _ _ _ _ h => h.quant) (fun v hv => ?_)
    (fun v _ => ⟨rfl, by simp⟩) (fun _ hf => hf.elim) (fun q v body hv h => ?_) h hu
  · by_cases hvc : v = c
    · simpa [hvc] using hd
    · simp only [hvc, ↓reduceIte, Option.getD_none]
      exact ⟨rfl, fun w hw => mentions_var.1 hw ▸ hv.resolve_right hvc⟩
  · obtain rfl : v = c := by simpa using hv
    exact (uses_quant.1 h).2.openIn.close

end Term

/-! ## One step -/

namespace Automaton

open SegmentOf

variable {m : Automaton} {K : Var → Prop} {k : Int}

section

variable {md : Mode} {time : Term} (keeps : m.KeepsClocks) (sights : m.Sights K k)
  (htime : time.Resolved K anyBinder noReference) (hmd : md ∈ m.modes)
include keeps sights htime hmd

theorem KeepsClocks.grounded :
    (m.segment md time k).Grounded (fun v => K v ∨ v = md.flow.clock) anyBinder where
  clock := ⟨Or.inr rfl, trivial⟩
  parts a ha := (sights.segment htime ha).mono (fun _ => Or.inl) (fun _ h => h) fun _ h => h
  flow id a ha := by
    refine uses_context ?_
    rcases ha with ha | ha
    · exact (keeps.solution md hmd id a ha).refers_mono fun _ => Or.inr
    · exact (keeps.rate md hmd id a ha).refers_mono fun _ => False.elim

/-- The state reached after a duration does not depend on the clock any more. -/
theorem KeepsClocks.advances : Advances (OpenIn K) (m.segment md time k) time where
  duration := htime.openIn
  entry _ he := (sights.segment htime (mem_parts (Or.inl he))).openIn
  solution _ _ _ _ hsol ha hu :=
    ((keeps.grounded sights htime hmd).read (Or.inl hsol) ha).replace_openIn htime.openIn hu
  rate id rate _ hrate ha := by
    have reads := (keeps.rate md hmd id rate hrate).refers_mono (L := K) fun _ => False.elim
    exact (resolve_context (fun _ => sights.segment htime) (uses_context reads) ha).openIn

/-- A body that holds throughout a step is closed in the clock. -/
theorem KeepsClocks.throughout {body u : Term} {Q : Var → Prop}
    (hb : body.Uses (m.Identifies fun _ => False) Q anyBinder noPrimitive)
    (hu : expandThroughout (m.segment md time k) body = .ok u) : u.OpenIn K := by
  have grounded := keeps.grounded sights htime hmd
  have reads := hb.refers_mono (L := fun v => K v ∨ v = md.flow.clock) fun _ => False.elim
  refine forall_expandThroughout hereditary_openIn.kept htime.openIn
    (fun _ _ b hstate hnow hb' => ?_) hu
  have instant := grounded.instant (uses_context reads) hstate hnow hb'
  refine ⟨fun still => ⟨instant.openIn.flowFree, fun v hv => ?_⟩,
    fun d hd u hu => instant.replace_openIn hd hu, (grounded.within instant).openIn.mkAll⟩
  refine (instant.openIn.free v hv).resolve_right ?_
  rintro rfl
  exact Bool.false_ne_true (still.symm.trans hv)

omit hmd in
theorem KeepsClocks.spends : m.Spends K anyBinder (fun _ => True) (OpenIn K) time k where
  integral md hmd := awaits_flow (Or.inl rfl) (fun _ => sights.segment htime) fun u hu =>
    (keeps.advances sights htime hmd).expandIntegral hereditary_openIn.kept
      (fun _ he => (sights.segment htime (mem_parts (Or.inr (Or.inl he)))).openIn)
      (transform_integral.1 hu)
  invariant md hmd := awaits_flow (Or.inr ⟨_, rfl⟩) (fun _ => sights.segment htime) fun u hu =>
    keeps.throughout sights htime hmd (keeps.invariant md hmd) (transform_throughout.1 hu)
  prop md hmd e he := by
    have body {a : Term}
        (ha : a.Uses (m.Identifies fun _ => False) noReference anyBinder noPrimitive) :
        (Term.throughout (m.segment md time k) a).Awaits K anyBinder (fun _ => True) (OpenIn K) :=
      awaits_flow (Or.inr ⟨_, rfl⟩) (fun _ => sights.segment htime) fun u hu =>
        keeps.throughout sights htime hmd ha (transform_throughout.1 hu)
    have definition := keeps.props e he
    exact ⟨body definition, body (hereditary_uses.mkNot definition)⟩

end

end Automaton

/-! ## The symbols of a step -/

def Symbol.Origin.step? : Symbol.Origin → Option Int
  | discrete _ k | state _ k _ | time k => some k
  | tau _ | witness _ | instant _ | offset => none

namespace Automaton

variable {m : Automaton} {K : Var → Prop} {k : Int}

inductive StepSymbol (m : Automaton) (k : Int) : Var → Prop
  | time : StepSymbol m k (Symbol.time k)
  | mode {id : String} {s : TermSort} (h : (id, s) ∈ m.modeVars) :
      StepSymbol m k (Symbol.discrete id s k)
  | prop {id : String} (h : id ∈ Table.names m.props) : StepSymbol m k (Symbol.discrete id .bool k)
  | state {id : String} {s : TermSort} (h : (id, s) ∈ m.stateVars) (p : Phase) :
      StepSymbol m k (Symbol.state id s k p)

/-- The symbols at the start of step `k` that a jump into it sees. -/
inductive StartSymbol (m : Automaton) (k : Int) : Var → Prop
  | mode {id : String} {s : TermSort} (h : (id, s) ∈ m.modeVars) :
      StartSymbol m k (Symbol.discrete id s k)
  | state {id : String} {s : TermSort} (h : (id, s) ∈ m.stateVars) :
      StartSymbol m k (Symbol.state id s k .entry)

theorem sights_step (m : Automaton) (k : Int) : m.Sights (m.StepSymbol k) k where
  symbol p e he := by
    rcases List.mem_append.1 he with he | he
    · obtain ⟨d, hd, rfl⟩ | ⟨d, hd, rfl⟩ := mem_discreteSubst he
      · exact ⟨_, rfl, .mode hd⟩
      · exact ⟨_, rfl, .prop (List.mem_map_of_mem hd)⟩
    · obtain ⟨d, hd, rfl⟩ := List.mem_map.1 he
      exact ⟨_, rfl, .state hd p⟩
  prop _ h := .prop h
  time := .time

/-- No variable is replaced by the symbol of a proposition: their names are not those of
variables. -/
theorem Accepted.start_of_discrete (accepted : m.Accepted) {id : String} (hid : m.HasName id)
    {a : Term} (h : (id, a) ∈ m.discreteSubst k) : ∃ v, a = .var v ∧ m.StartSymbol k v := by
  rcases mem_discreteSubst h with ⟨d, hd, heq⟩ | ⟨d, hd, heq⟩
  · exact ⟨_, congrArg Prod.snd heq, .mode hd⟩
  · obtain rfl : id = d.1 := congrArg Prod.fst heq
    exact absurd rfl (accepted.ne_prop hid (List.mem_map_of_mem hd))

theorem Accepted.lands_start (accepted : m.Accepted) (k : Int) : m.Lands (m.StartSymbol k) k := by
  intro id hid a ha
  rcases Table.mem_of_get?_merge ha with h | h
  · exact accepted.start_of_discrete hid h
  · obtain ⟨d, hd, heq⟩ := List.mem_map.1 h
    exact ⟨_, (congrArg Prod.snd heq).symm, .state hd⟩

theorem StepSymbol.role_ne {v : Var} (h : m.StepSymbol k v) : v.role ≠ .bound := by
  cases h <;> exact nofun

theorem StartSymbol.step {v : Var} (h : m.StartSymbol k v) : m.StepSymbol k v := by
  cases h with
  | mode h => exact .mode h
  | state h => exact .state h .entry

section

variable (accepted : m.Accepted)
include accepted

theorem Accepted.identifier_of_mem {id : String} (h : id ∈ Table.names m.stateVars ∨
    id ∈ Table.names m.modeVars ∨ id ∈ Table.names m.props) : isIdentifier id = true :=
  accepted.identifier id (by simpa [declaredNames, or_assoc] using h)

theorem Accepted.exists_step {v : Var} (h : m.StepSymbol k v) :
    ∃ (o : Symbol.Origin) (s : TermSort), o.Valid ∧ v = o.symbol s ∧ o.step? = some k := by
  cases h with
  | time => exact ⟨.time k, .real, trivial, rfl, rfl⟩
  | @mode id s h =>
    have valid := accepted.identifier_of_mem (Or.inr (Or.inl (List.mem_map_of_mem h)))
    exact ⟨.discrete id k, s, valid, rfl, rfl⟩
  | @prop id h =>
    exact ⟨.discrete id k, .bool, accepted.identifier_of_mem (Or.inr (Or.inr h)), rfl, rfl⟩
  | @state id s h p =>
    have valid := accepted.identifier_of_mem (Or.inl (List.mem_map_of_mem h))
    exact ⟨.state id k p, s, valid, rfl, rfl⟩

/-- A symbol tells its step. -/
theorem Accepted.step_unique {j : Int} {v : Var} (hj : m.StepSymbol j v) (hk : m.StepSymbol k v) :
    j = k := by
  obtain ⟨o, s, valid, rfl, step⟩ := accepted.exists_step hj
  obtain ⟨o', s', valid', same, step'⟩ := accepted.exists_step hk
  obtain rfl := Symbol.Origin.eq_of_name valid valid' (congrArg Var.name same)
  exact Option.some.inj (step.symm.trans step')

/-- A jump does not see where the step that it leads to ends. -/
theorem Accepted.start_ne_exit {v : Var} (h : m.StartSymbol k v) {e : String × TermSort}
    (he : e ∈ m.stateVars) : v ≠ Symbol.state e.1 e.2 k .exit := by
  have exit : (Symbol.Origin.state e.1 k .exit).Valid :=
    accepted.identifier_of_mem (Or.inl (List.mem_map_of_mem he))
  rintro same
  cases h with
  | @mode id s h =>
    have valid : (Symbol.Origin.discrete id k).Valid :=
      accepted.identifier_of_mem (Or.inr (Or.inl (List.mem_map_of_mem h)))
    exact nomatch Symbol.Origin.eq_of_name valid exit (congrArg Var.name same)
  | @state id s h =>
    have valid : (Symbol.Origin.state id k .entry).Valid :=
      accepted.identifier_of_mem (Or.inl (List.mem_map_of_mem h))
    exact nomatch Symbol.Origin.eq_of_name valid exit (congrArg Var.name same)

end

end Automaton

/-! ## Neighbours -/

namespace Term

/-- Before and after its expansion, all free variables of a term are known. -/
def Limited (K : Var → Prop) (t : Term) : Prop :=
  ∀ u, u = t ∨ t.expand = .ok u → ∀ v ∈ u.freeVars, K v

variable {K L B Q : Var → Prop} {t : Term}

theorem Limited.mono (hK : ∀ v, K v → L v) (h : t.Limited K) : t.Limited L :=
  fun u hu v hv => hK v (h u hu v hv)

theorem Uses.limited (h : t.Awaits K B Q (OpenIn K)) : t.Limited K := by
  rintro u (rfl | hu) v hv
  · exact h _ (mem_subterms_of_mentions (mem_freeVars.1 hv))
  · refine OpenIn.free ?_ v (mem_freeVars.1 hv)
    exact h.expand_keeps hereditary_openIn (fun _ _ _ _ h => h.quant)
      (fun v hv => ⟨rfl, fun w hw => mentions_var.1 hw ▸ hv⟩) (fun v _ => ⟨rfl, by simp⟩) hu

end Term

namespace Automaton

variable {m : Automaton} {K L B : Var → Prop} {k : Int}

theorem ConditionsRefer.mono (hK : ∀ v, K v → L v) (conditions : m.ConditionsRefer K B) :
    m.ConditionsRefer L B where
  init := conditions.init.refers_mono hK
  props e he := (conditions.props e he).refers_mono hK
  guard md hmd := (conditions.guard md hmd).refers_mono hK
  invariant md hmd := (conditions.invariant md hmd).refers_mono hK
  jumps j hj := ⟨(conditions.jumps j hj).1.refers_mono hK, (conditions.jumps j hj).2.refers_mono hK⟩

section

variable (keeps : m.KeepsClocks) (sights : m.Sights K k)
include keeps sights

theorem KeepsClocks.limited_beforeFlow (lands : m.Lands K (k + 1)) {t : Term}
    (h : m.beforeFlow (.var (Symbol.time k)) k = .ok t) : t.Limited K :=
  ((keeps.toConditionsRefer.mono fun _ => False.elim).beforeFlow sights
    (keeps.spends sights (uses_var.2 sights.time)) lands h).limited

theorem KeepsClocks.limited_afterFlow {t : Term}
    (h : m.afterFlow (.var (Symbol.time k)) k = .ok t) : t.Limited K :=
  ((keeps.toConditionsRefer.mono fun _ => False.elim).afterFlow sights
    (keeps.spends sights (uses_var.2 sights.time)) h).limited

theorem KeepsClocks.limited_propConstraint {props : List String} {ts : List Term}
    (h : m.propConstraint (.var (Symbol.time k)) k props = .ok ts) : ∀ t ∈ ts, t.Limited K :=
  fun t ht => ((keeps.toConditionsRefer.mono fun _ => False.elim).propConstraint sights
    (keeps.spends sights (uses_var.2 sights.time)) h t ht).limited

end

theorem KeepsClocks.limited_unroll (keeps : m.KeepsClocks) {N : Nat} {ts : List Term}
    (h : m.unroll N = .ok ts) :
    ∀ t ∈ ts, t.Limited fun v => ∃ j : Nat, j ≤ N ∧ m.StepSymbol j v := by
  have sights (k : Int) (hk : Visits N k) :
      m.Sights (fun v => ∃ j : Nat, j ≤ N ∧ m.StepSymbol j v) k := by
    unfold Visits at hk
    lift k to Nat using by omega
    exact (sights_step m k).mono fun v hv => ⟨k, by omega, hv⟩
  intro t ht
  exact ((keeps.toConditionsRefer.mono fun _ => False.elim).unroll sights
    (fun k hk => keeps.spends (sights k hk) (uses_var.2 (sights k hk).time)) h t ht).limited

end Automaton

open Automaton

/-- The steps of a loaded model meet only at their ends. Before and after its expansion, a step with
the jump after it has no free variables but the symbols of the step and those at the start of the
next, and a step without a jump, or the constraint on the propositions in it, no free variables but
the symbols of the step. So a trace has no symbols of later steps free in it, and no clocks. Every
symbol belongs to one step, and those at the start of a step are not those at its end. -/
theorem step_symbols_local {text : String} {m : Automaton} {file : ModelFile}
    (h : ModelFile.load text = .ok (m, file)) :
    (∀ k : Nat,
      (∀ t, m.beforeFlow (.var (Symbol.time k)) k = .ok t →
        t.Limited fun v => m.StepSymbol k v ∨ m.StartSymbol (k + 1) v) ∧
      (∀ t, m.afterFlow (.var (Symbol.time k)) k = .ok t → t.Limited (m.StepSymbol k)) ∧
      ∀ props ts, m.propConstraint (.var (Symbol.time k)) k props = .ok ts →
        ∀ t ∈ ts, t.Limited (m.StepSymbol k)) ∧
    (∀ (N : Nat) (ts : List Term), m.unroll N = .ok ts → ∀ t ∈ ts, t.Limited fun v =>
      (∃ j : Nat, j ≤ N ∧ m.StepSymbol j v) ∧ ∀ md ∈ m.modes, v ≠ md.flow.clock) ∧
    (∀ (j k : Int) (v : Var), m.StepSymbol j v → m.StepSymbol k v → j = k) ∧
    ∀ (k : Int) (v : Var), m.StartSymbol k v → m.StepSymbol k v ∧
      ∀ e ∈ m.stateVars, v ≠ Symbol.state e.1 e.2 k .exit := by
  obtain ⟨d, written, made⟩ := ModelFile.exists_of_load h
  have accepted := accepted_of_ofDefinition made
  have keeps := keepsClocks_of_written written made
  refine ⟨fun k => ⟨fun t ht => ?_, fun t ht => ?_, fun props ts hts => ?_⟩,
    fun N ts hts t ht => ?_, fun j k v => accepted.step_unique,
    fun k v hv => ⟨hv.step, fun e => accepted.start_ne_exit hv⟩⟩
  · refine keeps.limited_beforeFlow ((sights_step m k).mono fun _ => Or.inl) ?_ ht
    intro id hid a ha
    obtain ⟨v, hv, start⟩ := accepted.lands_start (k + 1) id hid a ha
    exact ⟨v, hv, Or.inr start⟩
  · exact keeps.limited_afterFlow (sights_step m k) ht
  · exact keeps.limited_propConstraint (sights_step m k) hts
  · refine (keeps.limited_unroll hts t ht).mono fun v hv => ⟨hv, fun md hmd clock => ?_⟩
    obtain ⟨j, -, symbol⟩ := hv
    exact symbol.role_ne (clock ▸ (FlowOf.of_valid (accepted.modes md hmd).flow).1)

/-! ## A creep -/

/-- The text of a model in which a variable creeps until its square is nine. -/
def creepText : String :=
  "\x7b\"variables\": \x7b\"x\": \"real\"\x7d, \"modes\": [\x7b\"clock\": \"t\", " ++
  "\"solution\": \x7b\"x\": \"x + t\"\x7d, \"invariant\": \"x * x < 9\"\x7d], " ++
  "\"jumps\": [\x7b\"reset\": \"x' = x\"\x7d]\x7d"

def creepFile : ModelFile where
  stateVars := [("x", "real")]
  modes := [{ clock := "t", solution := [("x", "x + t")], invariant := "x * x < 9" }]
  jumps := [{ reset := "x' = x" }]

def crept : Var := ⟨"x", .real, .logical⟩

def creepMode : Mode where
  id := 0
  name := "mode0"
  guard := .top
  flow := ⟨⟨"t", .real, .bound⟩, [], [("x", .add .real [.var crept, .var ⟨"t", .real, .bound⟩])]⟩
  invariant := .mkLt (.mul .real [.var crept, .var crept]) (.real 9)

def creeping : Automaton where
  stateVars := [("x", .real)]
  modeVars := []
  props := []
  init := .top
  modes := [creepMode]
  jumps := [⟨.top, .mkEq (.next crept) (.var crept)⟩]
  logic := ""

theorem decode_creep : ModelFile.decode creepText = .ok creepFile := by cbv

theorem build_creep : creepFile.build = .ok creeping := by cbv

theorem load_creep : ModelFile.load creepText = .ok (creeping, creepFile) := by
  rw [ModelFile.load, decode_creep, Attempt.bind_ok, build_creep]
  rfl

/-- How far the creep is after some time in the first step. -/
def creptAfter (t : Term) : Term := .add .real [.var (Symbol.state "x" .real 0 .entry), t]

def creepJump : Term :=
  .mkEq (.var (Symbol.state "x" .real 1 .entry)) (.var (Symbol.state "x" .real 0 .exit))

def creepStep : Term :=
  .and [.integral (creeping.segment creepMode (.var (Symbol.time 0)) 0),
    .throughout (creeping.segment creepMode (.var (Symbol.time 0)) 0) creepMode.invariant,
    creepJump]

/-- The first step in plain arithmetic, in which the clock is bound. -/
def creepExpanded : Term :=
  .and [.mkGe (.var (Symbol.time 0)) .zero,
    .mkEq (.var (Symbol.state "x" .real 0 .exit)) (creptAfter (.var (Symbol.time 0))),
    .quant .all ⟨"t", .real, .bound⟩ (.implies
      (.and [.mkGe (.var ⟨"t", .real, .bound⟩) .zero,
        .mkLe (.var ⟨"t", .real, .bound⟩) (.var (Symbol.time 0))])
      (.mkLt (.mul .real [creptAfter (.var ⟨"t", .real, .bound⟩),
        creptAfter (.var ⟨"t", .real, .bound⟩)]) (.real 9))),
    creepJump]

theorem creep_symbols_local :
    ModelFile.load creepText = .ok (creeping, creepFile) ∧
    creeping.beforeFlow (.var (Symbol.time 0)) 0 = .ok creepStep ∧
    creepStep.expand = .ok creepExpanded ∧
    Symbol.state "x" .real 1 .entry ∈ creepExpanded.freeVars ∧
    creepMode.flow.clock ∉ creepExpanded.freeVars ∧
    ∀ v ∈ creepExpanded.freeVars, creeping.StepSymbol 0 v ∨ creeping.StartSymbol 1 v := by
  have made : creeping.beforeFlow (.var (Symbol.time 0)) 0 = .ok creepStep := by cbv
  have expanded : creepStep.expand = .ok creepExpanded := by cbv
  obtain ⟨steps, -⟩ := step_symbols_local load_creep
  refine ⟨load_creep, made, expanded, mem_freeVars.2 (by decide), ?_,
    (steps 0).1 creepStep made creepExpanded (Or.inr expanded)⟩
  rw [mem_freeVars]
  decide

end HybridCheck
