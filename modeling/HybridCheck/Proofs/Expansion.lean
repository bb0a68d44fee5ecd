import HybridCheck.Proofs.Convexity
import HybridCheck.Proofs.Substitution

/-!
# Expansion keeps values

Expansion turns the flow primitives of a term into plain arithmetic. The state that a flow reaches
is built from the values at entry, the discrete values and the duration, and has the value of the
state that the flow reaches in the meaning of the term. An integral becomes equations with that
state. A body that holds throughout is read in the state after the clock; if it does not mention the
clock, one instant decides, if it is convex in the clock, the two ends do, and otherwise the clock
is quantified.

Two things are asked of a segment beyond being well-formed: the terms it is made of have no flow
primitives of their own, since what was expanded is not looked at again, and the values that a body
is read with do not refer to values after the jump that the exit of the segment maps, since these
are resolved in the body only after the values were put in.
-/

namespace HybridCheck

def FlowOf.terms (f : Flow) : List Term := (f.rates ++ f.solution).map Prod.snd

namespace SegmentOf

/-- The values of the identifiers at the start of a segment. -/
def context (seg : Segment) : Subst := Table.merge seg.mode seg.entry

def parts (seg : Segment) : List Term :=
  seg.time :: (seg.entry ++ seg.exit ++ seg.mode).map Prod.snd

/-- An identifier has a value of its kind at the exit of a segment. -/
def Resolves (seg : Segment) (v : Var) : Prop :=
  ∃ u, Table.get? seg.exit v.name = some u ∧ u.sort.alike v.sort = true

/-- A variable is the clock of a segment or an identifier with a value of its kind at the start. -/
def Knows (seg : Segment) (v : Var) : Prop :=
  v = seg.flow.clock ∨
    v.role = .logical ∧ ∃ u, seg.context.get? v.name = some u ∧ u.sort.alike v.sort = true

/-- A rate, a solution or a body has no quantifier and reads only what a segment has values for. -/
structure Reads (seg : Segment) (a : Term) : Prop where
  quantFree : a.quantFree = true
  now : ∀ v, a.mentions v = true → seg.Knows v
  next : ∀ v, Term.next v ∈ a.subterms → seg.Resolves v

/-- A segment is well-formed: its flow is valid, and its terms are well-sorted and fit together. -/
structure Proper (seg : Segment) : Prop where
  valid : ∃ state, seg.flow.problem? state = none
  exits : ∀ id ∈ Table.names seg.exit, id ∈ Table.names seg.entry
  sorted : ∀ a ∈ seg.parts, a.sorted Term.anyFlow = true
  unclocked : ∀ a ∈ seg.parts, a.mentions seg.flow.clock = false
  time : seg.time.sort.numeric = true
  moving : ∀ e ∈ seg.entry, seg.flow.moves e.1 = true → e.2.sort.numeric = true
  ends : ∀ e ∈ seg.exit, ∀ v, Table.get? seg.entry e.1 = some v → e.2.sort.alike v.sort = true
  flow : ∀ a ∈ seg.flow.terms, a.Amount Term.noFlow ∧ seg.Reads a

end SegmentOf

namespace Term

/-- If a term is a flow primitive, it is well-formed. -/
def Proper : Term → Prop
  | integral seg => seg.Proper
  | throughout seg body => seg.Proper ∧ body.Constraint noFlow ∧ seg.Reads body
  | _ => True

/-- If a term is a flow primitive, the terms it is made of can be put into another term as they
are. -/
def Separate : Term → Prop
  | integral seg => ∀ a ∈ seg.parts, a.flowFree = true
  | throughout seg _ => (∀ a ∈ seg.parts, a.flowFree = true) ∧
      ∀ e ∈ seg.entry ++ seg.mode, ∀ v, next v ∈ e.2.subterms → Table.get? seg.exit v.name = none
  | _ => True

/-- The nodes of a flow primitive are it and those of the parts of its segment. -/
theorem mem_subterms_flow {seg : Segment} {t n : Term}
    (ht : t = integral seg ∨ ∃ body, t = throughout seg body) :
    n ∈ t.subterms ↔ n = t ∨ ∃ a ∈ seg.parts, n ∈ a.subterms := by
  have nodes : n ∈ t.subterms ↔ n = t ∨ n ∈ seg.time.subterms ∨
      n ∈ nodesTable (fun _ => true) seg.entry ∨ n ∈ nodesTable (fun _ => true) seg.exit ∨
        n ∈ nodesTable (fun _ => true) seg.mode := by
    obtain ⟨⟨_, _, _⟩, _, _, _, _, _⟩ := seg
    rcases ht with rfl | ⟨body, rfl⟩ <;> simp [subterms, Term.nodes]
  have mapped (es : List (String × Term)) :
      n ∈ nodesTable (fun _ => true) es ↔ ∃ a ∈ es.map Prod.snd, n ∈ a.subterms := by
    simp only [mem_nodesTable, List.mem_map, exists_exists_and_eq_and]
  rw [nodes, mapped, mapped, mapped]
  simp only [SegmentOf.parts, List.map_append, List.mem_cons, List.mem_append, or_and_right,
    exists_or, exists_eq_left, or_assoc]

theorem plain_iff {t : Term} :
    t.plain = true ↔ t.sorted anyFlow = true ∧ t.flowFree = true := by
  have node (n : Term) : sortedNode noFlow n = true ↔
      sortedNode anyFlow n = true ∧ (!n.isFlow) = true := by
    cases n <;> simp [sortedNode, isFlow]
  simp only [sorted, flowFree, List.all_eq_true, node]
  exact ⟨fun h => ⟨fun n hn => (h n hn).1, fun n hn => (h n hn).2⟩,
    fun h n hn => ⟨h.1 n hn, h.2 n hn⟩⟩

end Term

namespace FlowOf

/-- What a valid flow is like. -/
theorem of_valid {f : Flow} {state : Table TermSort} (h : f.problem? state = none) :
    f.clock.role = .bound ∧ f.clock.sort = .real ∧
      ∀ e ∈ f.rates, f.checkRate e.1 e.2 = none := by
  rw [problem?] at h
  split at h
  · cases h
  · split at h
    · cases h
    · next hc =>
      simp only [not_or, not_not] at hc
      rw [Option.or_eq_none_iff, List.findSome?_eq_none_iff] at h
      exact ⟨hc.1, hc.2, fun e he => List.findSome?_eq_none_iff.1 h.2 e he⟩

/-- A checked rate depends neither on what the flow changes nor on the clock. -/
theorem of_checkRate {f : Flow} {id : String} {rate : Term} (h : f.checkRate id rate = none) :
    f.movingVar? rate = none ∧ rate.mentions f.clock = false := by
  rw [checkRate, List.findSome?_eq_none_iff] at h
  constructor
  · rw [movingVar?, List.find?_eq_none]
    intro v hv hm
    have := h v hv
    split at this <;> cases this
  · by_contra hc
    have := h f.clock (Term.mem_freeVars.2 (by simpa using hc))
    rw [if_pos rfl] at this
    cases this

end FlowOf

namespace SegmentOf

open Term

variable {seg : Segment}

/-- Every value a segment starts with is one of its parts. -/
theorem mem_parts {e : String × Term} (he : e ∈ seg.entry ∨ e ∈ seg.exit ∨ e ∈ seg.mode) :
    e.2 ∈ seg.parts := by
  refine List.mem_cons_of_mem _ (List.mem_map_of_mem ?_)
  simp only [List.mem_append]
  tauto

/-- What holds of the values at the start of a segment holds of what identifiers are read from. -/
theorem of_context {H : Term → Prop} (h : ∀ e ∈ seg.entry ++ seg.mode, H e.2) {name : String}
    {u : Term} (hu : seg.context.get? name = some u) : H u := by
  refine h (name, u) (List.mem_append.2 ?_)
  exact (Table.mem_of_get?_merge hu).symm

section

variable (proper : seg.Proper) (flowFree : ∀ a ∈ seg.parts, a.flowFree = true)
include proper

theorem Proper.clock_role : seg.flow.clock.role = .bound := by
  obtain ⟨state, h⟩ := proper.valid
  exact (FlowOf.of_valid h).1

theorem Proper.clock_sort : seg.flow.clock.sort = .real := by
  obtain ⟨state, h⟩ := proper.valid
  exact (FlowOf.of_valid h).2.1

include flowFree

theorem Proper.plain {a : Term} (ha : a ∈ seg.parts) : a.plain = true :=
  plain_iff.2 ⟨proper.sorted a ha, flowFree a ha⟩

theorem Proper.fresh {a : Term} (ha : a ∈ seg.parts) : Fresh seg.flow.clock a :=
  ⟨flowFree a ha, proper.unclocked a ha⟩

theorem Proper.amount_time : seg.time.Amount noFlow :=
  ⟨proper.plain flowFree (List.mem_cons_self ..), proper.time⟩

omit flowFree in
/-- A rate, solution or body with its identifiers read from terms of their kinds. -/
theorem Proper.substitute_reads {a : Term} (ha : a.plain = true) (reads : seg.Reads a) {s : Subst}
    (fit : ∀ name u, seg.context.get? name = some u →
      ∃ w, s.get? name = some w ∧ w.plain = true ∧ w.sort.alike u.sort = true) :
    ∃ u, a.substitute s = .ok u ∧
      Becomes noFlow (fun ρ => ρ.bind (s.mapValues (·.eval ρ))) a u ∧
      ∀ H, Hereditary H → (a.mentions seg.flow.clock = true → H (var seg.flow.clock)) →
        (∀ name u w, seg.context.get? name = some u → s.get? name = some w → H w) →
        (∀ v, seg.Resolves v → H (next v)) → H u := by
  have clocked : seg.flow.clock.role ≠ .logical := by
    rw [proper.clock_role]
    exact fun h => by cases h
  have built : Over (fun v => seg.Knows v ∧ a.mentions v = true) seg.Resolves (fun _ => False) a :=
    over_of_quantFree (flowFree_of_plain ha) reads.quantFree (fun v hv => ⟨reads.now v hv, hv⟩)
      reads.next
  have known v u (hv : seg.Knows v ∧ a.mentions v = true) (hr : v.role = .logical)
      (hu : s.get? v.name = some u) : u.plain = true ∧ u.sort.alike v.sort = true := by
    rcases hv.1 with rfl | ⟨-, w, hw, alike⟩
    · exact absurd hr clocked
    · obtain ⟨w', hw', hp, ha⟩ := fit v.name w hw
      cases hu.symm.trans hw'
      exact ⟨hp, TermSort.alike_trans ha alike⟩
  obtain ⟨u, hu, becomes, keeps⟩ := substitute_over known built ha
  refine ⟨u, hu, becomes, fun H hH hc hs hn => keeps H hH (fun v ⟨hv, hm⟩ => ?_) hn⟩
  rcases hv with rfl | ⟨hr, w, hw, -⟩
  · rw [if_neg clocked]
    exact hc hm
  · obtain ⟨w', hw', -⟩ := fit v.name w hw
    rw [if_pos hr, hw']
    exact hs v.name w w' hw hw'

/-- The values at the start of a segment are terms of their own kinds. -/
theorem Proper.fit_context (name : String) (u : Term) (hu : seg.context.get? name = some u) :
    ∃ w, seg.context.get? name = some w ∧ w.plain = true ∧ w.sort.alike u.sort = true := by
  refine ⟨u, hu, ?_, TermSort.alike_refl _⟩
  refine of_context (H := fun a => a.plain = true) (fun e he => ?_) hu
  exact proper.plain flowFree (mem_parts ((List.mem_append.1 he).imp_right Or.inr))

/-- The parts of a segment do not depend on the clock. -/
theorem Proper.evalTable_set {t : Subst} (ht : ∀ e ∈ t, e.2 ∈ seg.parts) (ρ : Env) (x : Value) :
    evalTable t (ρ.set seg.flow.clock x) = evalTable t ρ := by
  rw [evalTable_eq, evalTable_eq]
  exact Table.mapValues_congr fun e he =>
    eval_set (flowFree _ (ht e he)) (proper.unclocked _ (ht e he)) ρ x

theorem Proper.eval_context (ρ : Env) (x : Value) :
    seg.context.mapValues (·.eval (ρ.set seg.flow.clock x)) =
      seg.context.mapValues (·.eval ρ) := by
  simp only [context, Table.mapValues_merge, ← evalTable_eq]
  rw [proper.evalTable_set flowFree fun e he => mem_parts (Or.inr (Or.inr he)),
    proper.evalTable_set flowFree fun e he => mem_parts (Or.inl he)]

omit proper in
/-- Parts without values after the jump that the exit maps do not depend on the exit. -/
theorem evalTable_bindNext {t : Subst} (ht : ∀ e ∈ t, e.2 ∈ seg.parts)
    (resolved : ∀ e ∈ t, ∀ v, Term.next v ∈ e.2.subterms → Table.get? seg.exit v.name = none)
    (ρ : Env) : evalTable t (ρ.bindNext (evalTable seg.exit ρ)) = evalTable t ρ := by
  simp only [evalTable_eq]
  refine Table.mapValues_congr fun e he => ?_
  refine eval_congr (flowFree _ (ht e he)) ⟨fun _ _ => rfl, fun v hv => ?_⟩
  simp [Env.bindNext, resolved e he v hv]

/-- A solution with the values at the start read in, and a duration read for the clock. -/
theorem Proper.solution_spec {d sol : Term} (hd : d.Amount noFlow) (hsol : sol ∈ seg.flow.terms)
    {H : Term → Prop} (hH : Hereditary H) (start : ∀ e ∈ seg.entry ++ seg.mode, H e.2)
    (duration : H d) (next : ∀ v, seg.Resolves v → H (next v)) :
    ∃ sol' u, sol.substitute seg.context = .ok sol' ∧ sol'.replace seg.flow.clock d = .ok u ∧
      u.Amount noFlow ∧ H u ∧ ∀ ρ : Env, ρ.Typed → u.eval ρ = sol.eval
        ((ρ.bind (evalTable seg.context ρ)).set seg.flow.clock (.number (d.amount ρ))) := by
  obtain ⟨amount, reads⟩ := proper.flow sol hsol
  obtain ⟨sol', h1, becomes, keeps⟩ :=
    proper.substitute_reads amount.sorted reads (proper.fit_context flowFree)
  have built : Over (· = seg.flow.clock) seg.Resolves
      (fun a => Fresh seg.flow.clock a ∧ H a) sol' := by
    refine keeps _ (hereditary_over fun t o ho h a ha => ?_) (fun _ => .var rfl)
      (fun name u w hu hw => ?_) fun v hv => .next hv
    · exact ⟨h.1.operand ho ha, (hH t o ho).1 h.2 a ha⟩
    · refine .whole (of_context (H := fun a => Fresh seg.flow.clock a ∧ H a) (fun e he => ?_) hw)
      have part : e.2 ∈ seg.parts := mem_parts ((List.mem_append.1 he).imp_right Or.inr)
      exact ⟨proper.fresh flowFree part, start e he⟩
  have alike : d.sort.alike seg.flow.clock.sort = true := by
    rw [proper.clock_sort]
    exact TermSort.alike_of_numeric hd.numeric rfl
  obtain ⟨u, h2, becomes', keeps'⟩ :=
    replace_over (fun a h => h.1) hd.sorted alike built becomes.sorted
  have numeric : u.sort.numeric = true :=
    TermSort.numeric_of_alike (TermSort.alike_trans becomes'.alike becomes.alike) amount.numeric
  refine ⟨sol', u, h1, h2, ⟨becomes'.sorted, numeric⟩, ?_, fun ρ hρ => ?_⟩
  · exact keeps' H hH duration (fun v hv hne => absurd hv hne) next fun a h => h.2
  · have number := eval_eq_number hd.sorted hd.numeric hρ
    have typed : (ρ.set seg.flow.clock (d.eval ρ)).Typed := by
      refine hρ.set ?_
      rw [number, proper.clock_sort]
      exact ⟨_, rfl⟩
    rw [becomes'.eval ρ hρ, becomes.eval _ typed, proper.eval_context flowFree,
      Env.bind_set (by rw [proper.clock_role]; exact fun h => by cases h), number, evalTable_eq]

/-- A value that grows at a rate with the values at the start read in. -/
theorem Proper.rate_spec {d v : Term} (hd : d.Amount noFlow) (hv : v.Amount noFlow) {id : String}
    {rate : Term} (hrate : Table.get? seg.flow.rates id = some rate)
    {H : Term → Prop} (hH : Hereditary H) (start : ∀ e ∈ seg.entry ++ seg.mode, H e.2)
    (initial : H v) (duration : H d) (next : ∀ v, seg.Resolves v → H (next v)) :
    ∃ speed way u, seg.flow.movingVar? rate = none ∧ rate.substitute seg.context = .ok speed ∧
      mkMul [speed, d] = .ok way ∧ mkAdd [v, way] = .ok u ∧ u.Amount noFlow ∧ H u ∧
      ∀ ρ : Env, ρ.Typed → u.amount ρ =
        v.amount ρ + rate.amount (ρ.bind (evalTable seg.context ρ)) * d.amount ρ := by
  have mem : rate ∈ seg.flow.terms :=
    List.mem_map.2 ⟨_, List.mem_append.2 (Or.inl (Table.mem_of_get? hrate)), rfl⟩
  obtain ⟨amount, reads⟩ := proper.flow rate mem
  obtain ⟨fixed, still⟩ : seg.flow.movingVar? rate = none ∧
      rate.mentions seg.flow.clock = false := by
    obtain ⟨state, valid⟩ := proper.valid
    exact FlowOf.of_checkRate ((FlowOf.of_valid valid).2.2 _ (Table.mem_of_get? hrate))
  obtain ⟨speed, h1, becomes, keeps⟩ :=
    proper.substitute_reads amount.sorted reads (proper.fit_context flowFree)
  have hspeed : speed.Amount noFlow :=
    ⟨becomes.sorted, TermSort.numeric_of_alike becomes.alike amount.numeric⟩
  obtain ⟨way, h2, hway, keepsWay, wayValue⟩ := hspeed.mul hd
  obtain ⟨u, h3, hu, keepsSum, sumValue⟩ := hv.add hway
  refine ⟨speed, way, u, fixed, h1, h2, h3, hu, ?_, fun ρ hρ => ?_⟩
  · refine keepsSum H hH initial (keepsWay H hH ?_ duration)
    refine keeps H hH (fun h => ?_) (fun name u w hu hw => of_context start hw) next
    rw [still] at h
    cases h
  · rw [sumValue ρ hρ, wayValue ρ hρ, Term.amount, Term.amount, Term.amount, becomes.eval ρ hρ,
      evalTable_eq]

/-- The value of one identifier after a duration. -/
theorem Proper.valueAt {d : Term} (hd : d.Amount noFlow) {id : String} {v : Term}
    (he : (id, v) ∈ seg.entry) {H : Term → Prop} (hH : Hereditary H)
    (start : ∀ e ∈ seg.entry ++ seg.mode, H e.2) (duration : H d)
    (next : ∀ v, seg.Resolves v → H (next v)) :
    ∃ u, seg.flow.valueAt seg.context d id v = .ok u ∧ u.plain = true ∧
      u.sort.alike v.sort = true ∧ H u ∧
      ∀ ρ : Env, ρ.Typed → u.eval ρ = FlowOf.moved
        (evalTable seg.flow.rates (ρ.bind (evalTable seg.context ρ)))
        (evalTable seg.flow.solution
          ((ρ.bind (evalTable seg.context ρ)).set seg.flow.clock (.number (d.amount ρ))))
        (d.amount ρ) id (v.eval ρ) := by
  have hv : v.plain = true := proper.plain flowFree (mem_parts (e := (id, v)) (Or.inl he))
  have initial : H v := start (id, v) (List.mem_append.2 (Or.inl he))
  rw [FlowOf.valueAt]
  cases hs : Table.get? seg.flow.solution id with
  | some sol =>
    have numeric := proper.moving _ he (by simp [FlowOf.moves, Table.has, hs])
    have mem : sol ∈ seg.flow.terms :=
      List.mem_map.2 ⟨_, List.mem_append.2 (Or.inr (Table.mem_of_get? hs)), rfl⟩
    obtain ⟨sol', u, h1, h2, hu, keeps, value⟩ :=
      proper.solution_spec flowFree hd mem hH start duration next
    refine ⟨u, by simp [h1, h2], hu.sorted, TermSort.alike_of_numeric hu.numeric numeric, keeps,
      fun ρ hρ => ?_⟩
    rw [value ρ hρ, FlowOf.moved, evalTable_eq seg.flow.solution, Table.get?_mapValues, hs]
    rfl
  | none =>
    cases hr : Table.get? seg.flow.rates id with
    | none =>
      refine ⟨v, rfl, hv, TermSort.alike_refl _, initial, fun ρ _ => ?_⟩
      simp [FlowOf.moved, evalTable_eq, Table.get?_mapValues, hs, hr]
    | some rate =>
      have numeric := proper.moving _ he (by simp [FlowOf.moves, Table.has, hr])
      obtain ⟨speed, way, u, fixed, h1, h2, h3, hu, keeps, value⟩ :=
        proper.rate_spec flowFree hd ⟨hv, numeric⟩ hr hH start initial duration next
      refine ⟨u, by simp [fixed, h1, h2, h3], hu.sorted,
        TermSort.alike_of_numeric hu.numeric numeric, keeps, fun ρ hρ => ?_⟩
      rw [eval_eq_number hu.sorted hu.numeric hρ]
      simp only [FlowOf.moved, evalTable_eq seg.flow.solution, evalTable_eq seg.flow.rates,
        Table.get?_mapValues, hs, hr, Option.map_none, Option.map_some]
      exact congrArg Value.number (value ρ hρ)

/-- The state after a duration is the state that the flow reaches. -/
theorem Proper.after {d : Term} (hd : d.Amount noFlow) {H : Term → Prop}
    (hH : Hereditary H) (start : ∀ e ∈ seg.entry ++ seg.mode, H e.2) (duration : H d)
    (next : ∀ v, seg.Resolves v → H (next v)) :
    ∃ g : String × Term → Term,
      seg.flow.after seg.entry seg.mode d = .ok (seg.entry.map fun e => (e.1, g e)) ∧
      (∀ e ∈ seg.entry, (g e).plain = true ∧ (g e).sort.alike e.2.sort = true ∧ H (g e)) ∧
      ∀ ρ : Env, ρ.Typed → evalTable (seg.entry.map fun e => (e.1, g e)) ρ =
        seg.flow.stateAt ρ (evalTable seg.mode ρ) (evalTable seg.entry ρ) (d.amount ρ) := by
  have : Nonempty Term := ⟨bot⟩
  have each (e : String × Term) (he : (e.1, e.2) ∈ seg.entry) :=
    proper.valueAt flowFree hd he hH start duration next
  choose! g hg plain alike keeps value using each
  refine ⟨g, ?_, fun e he => ⟨plain e he, alike e he, keeps e he⟩, fun ρ hρ => ?_⟩
  · refine Attempt.mapM_eq_map fun e he => ?_
    have := hg e he
    rw [SegmentOf.context] at this
    simp [this]
  · simp only [FlowOf.stateAt, FlowOf.reach, evalTable_eq, Table.mapValues, List.map_map]
    refine List.map_congr_left fun e he => Prod.ext rfl ?_
    have := value e he ρ hρ
    simp only [evalTable_eq, SegmentOf.context, Table.mapValues_merge] at this
    simpa [Table.mapValues] using this

omit proper flowFree in
/-- The equations of the exit values. -/
theorem exitEquations_spec {reached : Subst} {exit : Subst}
    (present : ∀ e ∈ exit, ∃ w, reached.get? e.1 = some w ∧ w.plain = true ∧
      e.2.sort.alike w.sort = true) (plain : ∀ e ∈ exit, e.2.plain = true) :
    ∃ eqs, exitEquations reached exit = .ok eqs ∧ (∀ q ∈ eqs, q.Constraint noFlow) ∧
      ∀ ρ : Env, ρ.Typed → ((∀ q ∈ eqs, q.Holds ρ) ↔
        ∀ e ∈ evalTable exit ρ, (evalTable reached ρ).get? e.1 = some e.2) := by
  induction exit with
  | nil => exact ⟨[], rfl, by simp, by simp [evalTable]⟩
  | cons e exit ih =>
    obtain ⟨id, x⟩ := e
    obtain ⟨w, hw, hp, alike⟩ := present (id, x) (by simp)
    have hx := plain (id, x) (by simp)
    obtain ⟨eqs, heqs, constraint, holds⟩ :=
      ih (fun e he => present e (by simp [he])) fun e he => plain e (by simp [he])
    refine ⟨mkEq x w :: eqs, by simp [exitEquations, hw, heqs], ?_, fun ρ hρ => ?_⟩
    · simpa using ⟨constraint_mkEq hx hp alike, constraint⟩
    · rw [List.forall_mem_cons, holds ρ hρ, holds_mkEq hx hp alike hρ, evalTable,
        List.forall_mem_cons]
      refine and_congr_left' ?_
      simp [evalTable_eq, hw, eq_comm]

/-- An integral becomes plain arithmetic. -/
theorem Proper.expandIntegral : ∃ u, expandIntegral seg = .ok u ∧
    Becomes noFlow id (integral seg) u := by
  have time := proper.amount_time flowFree
  have true_hereditary : Hereditary fun _ => True := fun _ _ _ => by simp
  obtain ⟨g, after, each, value⟩ := proper.after flowFree time true_hereditary
    (fun _ _ => trivial) trivial fun _ _ => trivial
  have present (e : String × Term) (he : e ∈ seg.exit) :
      ∃ w, Table.get? (seg.entry.map fun e => (e.1, g e)) e.1 = some w ∧ w.plain = true ∧
        e.2.sort.alike w.sort = true := by
    obtain ⟨v, hv⟩ := Table.exists_get?_of_mem_names (proper.exits e.1 (List.mem_map_of_mem he))
    obtain ⟨plain, alike, -⟩ := each _ (Table.mem_of_get? hv)
    exact ⟨_, by rw [Table.get?_map, hv]; rfl, plain,
      TermSort.alike_trans (proper.ends e he v hv) (TermSort.alike_symm alike)⟩
  obtain ⟨eqs, equations, constraint, holds⟩ := exitEquations_spec present fun e he =>
    proper.plain flowFree (mem_parts (Or.inr (Or.inl he)))
  have all : ∀ q ∈ mkGe seg.time zero :: eqs, q.Constraint noFlow := by
    simpa using ⟨time.cmp amount_zero .ge, constraint⟩
  refine ⟨mkAnd (mkGe seg.time zero :: eqs), ?_, (constraint_mkAnd all).sorted, ?_, fun ρ hρ => ?_⟩
  · simp [Term.expandIntegral, after, equations]
  · rw [(constraint_mkAnd all).sort]
    rfl
  · rw [eval_eq_truth (constraint_mkAnd all).sorted (constraint_mkAnd all).sort hρ, id,
      eval_integral]
    refine congrArg Value.truth (propext ?_)
    rw [← Term.Holds, holds_mkAnd, List.forall_mem_cons, holds_mkGe time amount_zero hρ,
      amount_zero_eq, holds ρ hρ, value ρ hρ]

omit flowFree in
/-- The state reached does not depend on what the clock showed before. -/
theorem Proper.stateAt_set (ρ : Env) (mode entry : Table Value) (x d : ℝ) :
    seg.flow.stateAt (ρ.set seg.flow.clock (.number x)) mode entry d =
      seg.flow.stateAt ρ mode entry d := by
  have role : seg.flow.clock.role ≠ .logical := by
    rw [proper.clock_role]
    exact fun h => by cases h
  have rates (ρ : Env) (y : Value) : evalTable seg.flow.rates (ρ.set seg.flow.clock y) =
      evalTable seg.flow.rates ρ := by
    rw [evalTable_eq, evalTable_eq]
    refine Table.mapValues_congr fun e he => ?_
    obtain ⟨state, valid⟩ := proper.valid
    have mem : e.2 ∈ seg.flow.terms := List.mem_map.2 ⟨e, List.mem_append.2 (Or.inl he), rfl⟩
    exact eval_set (flowFree_of_plain (proper.flow e.2 mem).1.sorted)
      (FlowOf.of_checkRate ((FlowOf.of_valid valid).2.2 e he)).2 ρ y
  simp only [FlowOf.stateAt, Env.bind_set role, Env.set_set, rates]

/-- A term read in the state after a duration. -/
theorem Proper.read_after {d : Term} (hd : d.Amount noFlow) {a : Term} (ha : a.plain = true)
    (reads : seg.Reads a) {H : Term → Prop} (hH : Hereditary H)
    (start : ∀ e ∈ seg.entry ++ seg.mode, H e.2) (duration : H d)
    (clock : a.mentions seg.flow.clock = true → H (var seg.flow.clock))
    (next : ∀ v, seg.Resolves v → H (next v)) :
    ∃ state u, seg.flow.after seg.entry seg.mode d = .ok state ∧
      a.substitute (Table.merge seg.mode state) = .ok u ∧ H u ∧
      Becomes noFlow (fun ρ => ρ.bind ((evalTable seg.mode ρ).merge (seg.flow.stateAt ρ
        (evalTable seg.mode ρ) (evalTable seg.entry ρ) (d.amount ρ)))) a u := by
  obtain ⟨g, after, each, value⟩ := proper.after flowFree hd hH start duration next
  have fit (name : String) (u : Term) (hu : seg.context.get? name = some u) :
      ∃ w, (Table.merge seg.mode (seg.entry.map fun e => (e.1, g e))).get? name = some w ∧
        w.plain = true ∧ w.sort.alike u.sort = true := by
    rcases Table.get?_merge_map seg.mode seg.entry g name with ⟨h, -⟩ | ⟨v, hv, h, h'⟩
    · rw [h]
      exact proper.fit_context flowFree name u hu
    · cases hu.symm.trans h
      exact ⟨_, h', (each _ hv).1, (each _ hv).2.1⟩
  obtain ⟨u, hu, becomes, keeps⟩ := proper.substitute_reads ha reads fit
  refine ⟨_, u, after, hu, ?_, becomes.sorted, becomes.alike, fun ρ hρ => ?_⟩
  · refine keeps H hH clock (fun name _ w _ hw => ?_) next
    rcases Table.mem_of_get?_merge hw with hw | hw
    · exact start (name, w) (List.mem_append.2 (Or.inr hw))
    · obtain ⟨e, he, heq⟩ := List.mem_map.1 hw
      cases heq
      exact (each e he).2.2
  · rw [becomes.eval ρ hρ, Table.mapValues_merge, ← evalTable_eq, ← evalTable_eq, value ρ hρ]

/-- A body read in the state after the clock, as expansion builds it. -/
theorem Proper.body {body : Term} (hb : body.Constraint noFlow) (reads : seg.Reads body)
    (resolved : ∀ e ∈ seg.entry ++ seg.mode, ∀ v, Term.next v ∈ e.2.subterms →
      Table.get? seg.exit v.name = none) :
    ∃ state body₁ body₂, seg.flow.after seg.entry seg.mode (var seg.flow.clock) = .ok state ∧
      body.substitute (Table.merge seg.mode state) = .ok body₁ ∧
      body₁.substituteNext seg.exit = .ok body₂ ∧ body₂.Constraint noFlow ∧
      Over (· = seg.flow.clock) (fun _ => False) (Fresh seg.flow.clock) body₂ ∧
      ∀ ρ : Env, ρ.Typed → ∀ x : ℝ, body₂.eval (ρ.set seg.flow.clock (.number x)) =
        body.eval (seg.flow.instant (ρ.bindNext (evalTable seg.exit ρ)) (evalTable seg.mode ρ)
          (evalTable seg.entry ρ) x) := by
  let c := seg.flow.clock
  have part {e : String × Term} (he : e ∈ seg.entry ++ seg.mode) : e.2 ∈ seg.parts :=
    mem_parts ((List.mem_append.1 he).imp_right Or.inr)
  have clock : (var c).Amount noFlow := amount_var (by rw [proper.clock_sort]; rfl)
  let F a := Fresh c a ∧ NextFree seg.exit a
  have down : ∀ t o, t.operator? = some o → F t → ∀ a ∈ t.operands, F a :=
    fun t o ho h a ha => ⟨h.1.operand ho ha, h.2.operand ho ha⟩
  have start (e) (he : e ∈ seg.entry ++ seg.mode) : F e.2 :=
    ⟨proper.fresh flowFree (part he), flowFree _ (part he), resolved e he⟩
  obtain ⟨state, body₁, after, h1, built₁, becomes₁⟩ := proper.read_after flowFree clock hb.sorted
    reads (hereditary_over (P := (· = c)) (Q := seg.Resolves) down)
    (fun e he => .whole (start e he)) (.var rfl) (fun _ => .var rfl) fun v hv => .next hv
  have exitPart {name : String} {u : Term} (hu : Table.get? seg.exit name = some u) :
      u ∈ seg.parts := mem_parts (e := (name, u)) (Or.inr (Or.inl (Table.mem_of_get? hu)))
  have exits v u (hv : seg.Resolves v) (hu : Table.get? seg.exit v.name = some u) :
      u.plain = true ∧ u.sort.alike v.sort = true := by
    obtain ⟨u', hu', alike⟩ := hv
    cases hu.symm.trans hu'
    exact ⟨proper.plain flowFree (exitPart hu), alike⟩
  obtain ⟨body₂, h2, becomes₂, keeps₂⟩ :=
    substituteNext_over (fun a h => h.2) exits built₁ becomes₁.sorted
  have built₂ : Over (· = c) (fun _ => False) (Fresh c) body₂ := by
    refine keeps₂ _ (hereditary_over fun t o ho h a ha => h.operand ho ha) (fun v hv => .var hv)
      (fun v hv => ?_) fun a h => .whole h.1
    obtain ⟨u, hu, -⟩ := hv
    rw [hu]
    exact .whole (proper.fresh flowFree (exitPart hu))
  refine ⟨_, body₁, body₂, after, h1, h2, ⟨becomes₂.sorted, ?_⟩, built₂, fun ρ hρ x => ?_⟩
  · have := TermSort.alike_trans becomes₂.alike becomes₁.alike
    rw [hb.sort] at this
    exact TermSort.alike_bool.1 this
  · -- neither the clock nor the exit values are read in what the segment starts with
    have role : c.role ≠ .logical := by
      rw [proper.clock_role]
      exact fun h => by cases h
    have typed {ρ : Env} (hρ : ρ.Typed) : (ρ.set c (.number x)).Typed :=
      hρ.set (by rw [proper.clock_sort]; exact ⟨x, rfl⟩)
    have entries (e) (he : e ∈ seg.entry) : e.2 ∈ seg.parts := mem_parts (Or.inl he)
    have modes (e) (he : e ∈ seg.mode) : e.2 ∈ seg.parts := mem_parts (Or.inr (Or.inr he))
    have hentry := evalTable_bindNext flowFree entries
      (fun e he => resolved e (List.mem_append.2 (Or.inl he))) ρ
    have hmode := evalTable_bindNext flowFree modes
      (fun e he => resolved e (List.mem_append.2 (Or.inr he))) ρ
    rw [becomes₂.eval _ (typed hρ), ← evalTable_eq,
      proper.evalTable_set flowFree fun e he => mem_parts (Or.inr (Or.inl he))]
    refine (becomes₁.eval _ (typed (hρ.bindNext (evalTable seg.exit ρ)))).trans ?_
    rw [proper.evalTable_set flowFree modes, proper.evalTable_set flowFree entries, hmode, hentry,
      proper.stateAt_set, Env.bind_set role, FlowOf.instant]
    simp only [amount, eval, Env.set_now_self, Value.toReal_number]
    rfl

/-- A term says that a body holds at every instant of a segment. -/
structure Spans (seg : Segment) (body u : Term) : Prop where
  constraint : u.Constraint noFlow
  holds : ∀ ρ : Env, ρ.Typed → (u.Holds ρ ↔ ∀ x : ℝ, 0 ≤ x → x ≤ seg.time.amount ρ →
    body.Holds (ρ.set seg.flow.clock (.number x)))

/-- A segment of negative length has no instants. -/
theorem Proper.spans_or {body u : Term} (hu : u.Constraint noFlow)
    (holds : ∀ ρ : Env, ρ.Typed → 0 ≤ seg.time.amount ρ → (u.Holds ρ ↔
      ∀ x : ℝ, 0 ≤ x → x ≤ seg.time.amount ρ → body.Holds (ρ.set seg.flow.clock (.number x)))) :
    seg.Spans body (mkOr [mkLt seg.time zero, u]) := by
  have time := proper.amount_time flowFree
  have either : ∀ a ∈ [mkLt seg.time zero, u], a.Constraint noFlow := by
    simpa using ⟨time.cmp amount_zero .lt, hu⟩
  refine ⟨constraint_mkOr either, fun ρ hρ => ?_⟩
  rw [holds_mkOr either hρ, List.exists_mem_cons_iff, List.exists_mem_cons_iff,
    holds_mkLt time amount_zero hρ, amount_zero_eq]
  simp only [List.not_mem_nil, false_and, exists_false, or_false]
  rcases lt_or_ge (seg.time.amount ρ) 0 with before | after
  · exact iff_of_true (Or.inl before) fun x h0 hx => absurd (h0.trans hx) before.not_ge
  · rw [holds ρ hρ after]
    exact or_iff_right after.not_gt

/-- A body that does not mention the clock holds at every instant if it holds at one. -/
theorem Proper.spans_unclocked {body : Term} (hb : body.Constraint noFlow)
    (still : body.mentions seg.flow.clock = false) :
    seg.Spans body (mkOr [mkLt seg.time zero, body]) := by
  refine proper.spans_or flowFree hb fun ρ _ after => ?_
  simp only [Holds, eval_set (flowFree_of_plain hb.sorted) still]
  exact ⟨fun h _ _ _ => h, fun h => h 0 le_rfl after⟩

/-- A body that is convex in the clock holds at every instant if it holds at the two ends. -/
theorem Proper.spans_ends {body : Term} (hb : body.Constraint noFlow)
    (built : Over (· = seg.flow.clock) (fun _ => False) (Fresh seg.flow.clock) body)
    (convex : convexIn seg.flow.clock body = true) :
    ∃ first last, body.replace seg.flow.clock zero = .ok first ∧
      body.replace seg.flow.clock seg.time = .ok last ∧
      seg.Spans body (mkOr [mkLt seg.time zero, mkAnd [first, last]]) := by
  have time := proper.amount_time flowFree
  have alike {d : Term} (hd : d.Amount noFlow) : d.sort.alike seg.flow.clock.sort = true := by
    rw [proper.clock_sort]
    exact TermSort.alike_of_numeric hd.numeric rfl
  obtain ⟨first, hfirst, becomes₀, -⟩ :=
    replace_over (fun a h => h) amount_zero.sorted (alike amount_zero) built hb.sorted
  obtain ⟨last, hlast, becomes₁, -⟩ :=
    replace_over (fun a h => h) time.sorted (alike time) built hb.sorted
  have bool {u : Term} (h : u.sort.alike body.sort = true) : u.sort = .bool := by
    rw [hb.sort] at h
    exact TermSort.alike_bool.1 h
  have ends : ∀ a ∈ [first, last], a.Constraint noFlow := by
    simpa using ⟨⟨becomes₀.sorted, bool becomes₀.alike⟩, ⟨becomes₁.sorted, bool becomes₁.alike⟩⟩
  refine ⟨first, last, hfirst, hlast,
    proper.spans_or flowFree (constraint_mkAnd ends) fun ρ hρ after => ?_⟩
  have atFirst : first.Holds ρ ↔ body.Holds (ρ.set seg.flow.clock (.number 0)) := by
    rw [Holds, becomes₀.eval ρ hρ, zero, real, eval, Rat.cast_zero]
  have atLast : last.Holds ρ ↔
      body.Holds (ρ.set seg.flow.clock (.number (seg.time.amount ρ))) := by
    rw [Holds, becomes₁.eval ρ hρ, ← eval_eq_number time.sorted time.numeric hρ]
  rw [holds_mkAnd, List.forall_mem_cons, List.forall_mem_singleton, atFirst, atLast]
  constructor
  · rintro ⟨h0, h1⟩ x hx0 hx1
    exact holds_between proper.clock_sort (flowFree_of_plain hb.sorted) hb.sorted convex hρ hx0 hx1
      h0 h1
  · intro h
    exact ⟨h 0 le_rfl after, h _ after le_rfl⟩

/-- Any other body is quantified over the clock. -/
theorem Proper.spans_quantified {body : Term} (hb : body.Constraint noFlow) :
    seg.Spans body (mkAll seg.flow.clock (mkImplies
      (mkAnd [mkGe (var seg.flow.clock) zero, mkLe (var seg.flow.clock) seg.time]) body)) := by
  have time := proper.amount_time flowFree
  have clock : (var seg.flow.clock).Amount noFlow := amount_var (by rw [proper.clock_sort]; rfl)
  have window : ∀ a ∈ [mkGe (var seg.flow.clock) zero, mkLe (var seg.flow.clock) seg.time],
      a.Constraint noFlow := by
    simpa using ⟨clock.cmp amount_zero .ge, clock.cmp time .le⟩
  have inner := (constraint_mkAnd window).implies hb
  refine ⟨inner.quant .all _, fun ρ hρ => ?_⟩
  rw [holds_mkAll inner, forall_isOf_real proper.clock_sort]
  refine forall_congr' fun x => ?_
  have typed : (ρ.set seg.flow.clock (.number x)).Typed :=
    hρ.set (by rw [proper.clock_sort]; exact ⟨x, rfl⟩)
  have fixed : seg.time.amount (ρ.set seg.flow.clock (.number x)) = seg.time.amount ρ := by
    rw [amount, eval_set (flowFree _ (List.mem_cons_self ..))
      (proper.unclocked _ (List.mem_cons_self ..))]
  have shows : (var seg.flow.clock).amount (ρ.set seg.flow.clock (.number x)) = x := by
    simp [amount, eval]
  rw [holds_mkImplies (constraint_mkAnd window) hb typed, holds_mkAnd, List.forall_mem_cons,
    List.forall_mem_singleton, holds_mkGe clock amount_zero typed, holds_mkLe clock time typed,
    fixed, shows, amount_zero_eq, and_imp]

/-- A body that holds throughout becomes plain arithmetic. -/
theorem Proper.expandThroughout {body : Term} (hb : body.Constraint noFlow)
    (reads : seg.Reads body)
    (resolved : ∀ e ∈ seg.entry ++ seg.mode, ∀ v, Term.next v ∈ e.2.subterms →
      Table.get? seg.exit v.name = none) :
    ∃ u, expandThroughout seg body = .ok u ∧
      Becomes noFlow id (throughout seg body) u := by
  obtain ⟨state, body₁, body₂, after, h1, h2, hb₂, built, value⟩ :=
    proper.body flowFree hb reads resolved
  have becomes {u : Term} (hu : seg.Spans body₂ u) : Becomes noFlow id (throughout seg body) u := by
    refine ⟨hu.constraint.sorted, by rw [hu.constraint.sort]; rfl, fun ρ hρ => ?_⟩
    rw [eval_eq_truth hu.constraint.sorted hu.constraint.sort hρ, id, eval_throughout]
    refine congrArg Value.truth (propext ((hu.holds ρ hρ).trans ?_))
    simp only [Holds, value ρ hρ]
  simp only [Term.expandThroughout, after, h1, h2, Attempt.bind_ok]
  split
  · next still =>
    exact ⟨_, rfl, becomes (proper.spans_unclocked flowFree hb₂ (by simpa using still))⟩
  · split
    · next convex =>
      obtain ⟨first, last, hfirst, hlast, spans⟩ := proper.spans_ends flowFree hb₂ built convex
      exact ⟨_, by simp [hfirst, hlast], becomes spans⟩
    · exact ⟨_, rfl, becomes (proper.spans_quantified flowFree hb₂)⟩

end

end SegmentOf

namespace Term

theorem transform?_integral (seg : Segment) :
    (integral seg).transform? expander = (expandIntegral seg).map some := by
  obtain ⟨⟨_, _, _⟩, _, _, _, _, _⟩ := seg
  rw [transform?]
  rfl

theorem transform?_throughout (seg : Segment) (body : Term) :
    (throughout seg body).transform? expander = (expandThroughout seg body).map some := by
  obtain ⟨⟨_, _, _⟩, _, _, _, _, _⟩ := seg
  rw [transform?]
  rfl

/-- Every term becomes one without flow primitives, with the same value in every environment. -/
theorem transform_expander {t : Term} (sorted : t.sorted anyFlow = true)
    (proper : ∀ n ∈ t.subterms, n.Proper) (separate : ∀ n ∈ t.subterms, n.Separate) :
    ∃ u, t.transform expander = .ok u ∧ Becomes noFlow id t u := by
  induction t using induct with
  | operator t o ho ih =>
    obtain ⟨accepts, sorted⟩ := (sorted_operator ho).1 sorted
    have below {a n : Term} (ha : a ∈ t.operands) (hn : n ∈ a.subterms) : n ∈ t.subterms :=
      (mem_subterms_operator ho).2 (Or.inr ⟨a, ha, hn⟩)
    obtain ⟨u, hu, becomes, -⟩ := transform_operator (r := expander) ho accepts fun a ha =>
      ih a ha (sorted a ha) (fun n hn => proper n (below ha hn))
        fun n hn => separate n (below ha hn)
    exact ⟨u, hu, becomes⟩
  | var v => exact ⟨var v, rfl, rfl, TermSort.alike_refl _, fun _ _ => rfl⟩
  | next v => exact ⟨next v, rfl, rfl, TermSort.alike_refl _, fun _ _ => rfl⟩
  | quant q v body ih =>
    obtain ⟨hs, hp⟩ := (sorted_quant q v body).1 sorted
    obtain ⟨u, hu, becomes⟩ := ih hp (fun n hn => proper n (by simp [hn]))
      fun n hn => separate n (by simp [hn])
    exact transform_quant rfl hs hu becomes fun _ _ _ _ => rfl
  | integral seg =>
    obtain ⟨u, hu, becomes⟩ := (proper _ (self_mem_subterms _)).expandIntegral
      (separate _ (self_mem_subterms _))
    refine ⟨u, transform_eq_ok.2 ⟨some u, ?_, rfl⟩, becomes⟩
    rw [transform?_integral, hu]
    rfl
  | throughout seg body =>
    obtain ⟨proper, hb, reads⟩ := proper _ (self_mem_subterms _)
    obtain ⟨flowFree, resolved⟩ := separate _ (self_mem_subterms _)
    obtain ⟨u, hu, becomes⟩ := proper.expandThroughout flowFree hb reads resolved
    refine ⟨u, transform_eq_ok.2 ⟨some u, ?_, rfl⟩, becomes⟩
    rw [transform?_throughout, hu]
    rfl

/-- Expansion succeeds on well-formed terms, leaves no flow primitive and keeps the value of a term
in every environment. -/
theorem expand_keeps_meaning {t : Term} (sorted : t.sorted anyFlow = true)
    (proper : ∀ n ∈ t.subterms, n.Proper) (separate : ∀ n ∈ t.subterms, n.Separate) :
    ∃ u, t.expand = .ok u ∧ u.flowFree = true ∧ ∀ ρ : Env, ρ.Typed → u.eval ρ = t.eval ρ := by
  obtain ⟨u, hu, becomes⟩ := transform_expander sorted proper separate
  refine ⟨u, ?_, flowFree_of_plain becomes.sorted, becomes.eval⟩
  rw [expand, hu]

/-! ## Filling a tank -/

/-- A tank fills at a rate of the mode from one level to another. -/
def filling : Segment where
  flow := ⟨⟨"c", .real, .bound⟩, [("x", var ⟨"m", .real, .logical⟩)], []⟩
  time := var ⟨"d", .real, .timestamp⟩
  entry := [("x", var ⟨"a", .real, .continuous⟩)]
  exit := [("x", var ⟨"b", .real, .continuous⟩)]
  mode := [("m", num .real 2)]

def level : Term := cmp .le (var ⟨"x", .real, .logical⟩) (num .real 10)

def fillable : Term :=
  quant .any ⟨"d", .real, .timestamp⟩ (and [integral filling, throughout filling level])

theorem filling_proper : filling.Proper where
  valid := ⟨[("x", .real)], by cbv⟩
  exits := by simp [filling, Table.names]
  sorted := by decide
  unclocked := by decide
  time := rfl
  moving := by simp [filling]; decide
  ends := by simp [filling, Table.get?]; decide
  flow := by
    intro a ha
    obtain rfl : a = var ⟨"m", .real, .logical⟩ := by simpa [filling, FlowOf.terms] using ha
    refine ⟨amount_var rfl, rfl, fun v hv => ?_, fun v hv => ?_⟩
    · obtain rfl := mentions_var.1 hv
      exact Or.inr ⟨rfl, num .real 2, rfl, rfl⟩
    · simp at hv

theorem reads_level : filling.Reads level := by
  refine ⟨rfl, fun v hv => ?_, fun v hv => ?_⟩
  · obtain rfl : v = ⟨"x", .real, .logical⟩ := by
      simpa [level, mentions, occurrences] using hv
    exact Or.inr ⟨rfl, var ⟨"a", .real, .continuous⟩, rfl, rfl⟩
  · simp [level, subterms, nodes] at hv

theorem flows_of_fillable {n : Term} (hn : n ∈ fillable.subterms) :
    n.isFlow = false ∨ n = integral filling ∨ n = throughout filling level := by
  simp only [fillable, filling, subterms, nodes, nodesAll, nodesTable, if_true, List.mem_cons,
    List.mem_append, List.not_mem_nil, or_false] at hn
  rcases hn with rfl | rfl | (rfl | rfl | rfl | rfl | rfl) | (rfl | rfl | rfl | rfl | rfl)
  all_goals first | exact Or.inl rfl | exact Or.inr (Or.inl rfl) | exact Or.inr (Or.inr rfl)

theorem expand_fillable : ∃ u, fillable.expand = .ok u ∧ u.flowFree = true ∧
    ∀ ρ : Env, ρ.Typed → u.eval ρ = fillable.eval ρ := by
  have plain : ∀ a ∈ filling.parts, a.flowFree = true := by decide
  refine expand_keeps_meaning (by decide) ?_ ?_
  · intro n hn
    rcases flows_of_fillable hn with h | rfl | rfl
    · cases n <;> trivial
    · exact filling_proper
    · exact ⟨filling_proper, ⟨rfl, rfl⟩, reads_level⟩
  · intro n hn
    rcases flows_of_fillable hn with h | rfl | rfl
    · cases n <;> trivial
    · exact plain
    · exact ⟨plain, by simp [filling, subterms, nodes]⟩

/-! ## Values after a jump in a segment -/

/-- A segment that starts from the value of `y` after a jump, and ends with `y` at five. -/
def returning : Segment where
  flow := ⟨⟨"c", .real, .bound⟩, [], []⟩
  time := num .real 1
  entry := [("x", next ⟨"y", .real, .logical⟩), ("y", num .real 0)]
  exit := [("y", num .real 5)]
  mode := []

def above : Term :=
  throughout returning (cmp .gt (var ⟨"x", .real, .logical⟩) (num .real 3))

theorem returning_proper : returning.Proper where
  valid := ⟨[], rfl⟩
  exits := by simp [returning, Table.names]
  sorted := by decide
  unclocked := by decide
  time := rfl
  moving := by simp [returning]; decide
  ends := by simp [returning, Table.get?]; decide
  flow := by simp [returning, FlowOf.terms]

/-- The value after the jump that a segment starts from is taken for the one it ends with, so
expansion does not keep the meaning of every well-formed term. -/
theorem expand_above : above.sorted anyFlow = true ∧ (∀ n ∈ above.subterms, n.Proper) ∧
    ∃ u, above.expand = .ok u ∧ ∃ ρ : Env, ρ.Sorted ∧ u.Holds ρ ∧ ¬above.Holds ρ := by
  refine ⟨by decide, fun n hn => ?_, bool true, rfl, Env.blank, Env.blank_sorted,
    (holds_bool true).2 rfl, ?_⟩
  · have node : n = above ∨ n.isFlow = false := by
      simp only [above, returning, subterms, nodes, nodesTable, if_true, List.mem_cons,
        List.mem_append, List.not_mem_nil, or_false] at hn
      rcases hn with rfl | rfl | (rfl | rfl) | rfl
      all_goals first | exact Or.inl rfl | exact Or.inr rfl
    rcases node with rfl | h
    · refine ⟨returning_proper, ⟨rfl, rfl⟩, rfl, fun v hv => ?_, fun v hv => ?_⟩
      · obtain rfl : v = ⟨"x", .real, .logical⟩ := by
          simpa [mentions, occurrences] using hv
        exact Or.inr ⟨rfl, next ⟨"y", .real, .logical⟩, rfl, rfl⟩
      · simp [subterms, nodes] at hv
    · cases n <;> trivial
  · intro h
    rw [Term.Holds, above, eval_throughout, Value.holds_truth] at h
    have first := h 0 le_rfl (by simp [returning, eval])
    simp [returning, evalTable, eval, FlowOf.instant, FlowOf.stateAt, FlowOf.reach, FlowOf.moved,
      Env.set, Env.bind, Table.get?_merge, Table.names, Table.get?, Value.found, Value.Fits,
      Relation.Compares, Env.blank, Env.bindNext] at first
    norm_num at first

/-! ## A flow primitive in a segment -/

def waiting : Segment where
  flow := ⟨⟨"c", .real, .bound⟩, [], []⟩
  time := var ⟨"d", .real, .timestamp⟩
  entry := []
  exit := []
  mode := []

/-- A segment in which a mode variable stands for an integral. -/
def relaying : Segment where
  flow := ⟨⟨"c", .real, .bound⟩, [], []⟩
  time := num .real 1
  entry := []
  exit := []
  mode := [("m", integral waiting)]

def relayed : Term := throughout relaying (var ⟨"m", .bool, .logical⟩)

theorem waiting_proper : waiting.Proper where
  valid := ⟨[], rfl⟩
  exits := by simp [waiting, Table.names]
  sorted := by decide
  unclocked := by decide
  time := rfl
  moving := by simp [waiting]
  ends := by simp [waiting]
  flow := by simp [waiting, FlowOf.terms]

theorem relaying_proper : relaying.Proper where
  valid := ⟨[], rfl⟩
  exits := by simp [relaying, Table.names]
  sorted := by decide
  unclocked := by decide
  time := rfl
  moving := by simp [relaying]
  ends := by simp [relaying]
  flow := by simp [relaying, FlowOf.terms]

/-- What a mode variable stands for is not looked at again, so a flow primitive among the values of
a segment is left. -/
theorem expand_relayed : relayed.sorted anyFlow = true ∧ (∀ n ∈ relayed.subterms, n.Proper) ∧
    ∃ u, relayed.expand = .ok u ∧ u.flowFree = false := by
  refine ⟨by decide, fun n hn => ?_, _, rfl, rfl⟩
  have node : n = relayed ∨ n = integral waiting ∨ n.isFlow = false := by
    simp only [relayed, relaying, waiting, subterms, nodes, nodesTable, if_true, List.mem_cons,
      List.mem_append, List.not_mem_nil, or_false, false_or] at hn
    rcases hn with rfl | rfl | rfl | rfl
    all_goals first | exact Or.inl rfl | exact Or.inr (Or.inl rfl) | exact Or.inr (Or.inr rfl)
  rcases node with rfl | rfl | h
  · refine ⟨relaying_proper, ⟨rfl, rfl⟩, rfl, fun v hv => ?_, fun v hv => ?_⟩
    · obtain rfl : v = ⟨"m", .bool, .logical⟩ := by
        simpa [mentions, occurrences] using hv
      exact Or.inr ⟨rfl, integral waiting, rfl, rfl⟩
    · simp [subterms, nodes] at hv
  · exact waiting_proper
  · cases n <;> trivial

/-- What is asked of the values of a segment is needed: that they do not refer to values after a
jump that the exit maps, and that there is no flow primitive among them. -/
theorem expansion_needs_separate :
    (above.sorted anyFlow = true ∧ (∀ n ∈ above.subterms, n.Proper) ∧
      ∃ u, above.expand = .ok u ∧ ∃ ρ : Env, ρ.Sorted ∧ u.Holds ρ ∧ ¬above.Holds ρ) ∧
    relayed.sorted anyFlow = true ∧ (∀ n ∈ relayed.subterms, n.Proper) ∧
      ∃ u, relayed.expand = .ok u ∧ u.flowFree = false :=
  ⟨expand_above, expand_relayed⟩

end Term

end HybridCheck
