import HybridCheck.Proofs.BoundedEncoding

/-!
# Propositions and their definitions

A proposition can be replaced by the constraint that defines it. On a run this changes nothing: a
proposition is read as its definition. In the encoding the two differ. A proposition is one symbol
for each step, so the constraints allow only runs along which it is steady, while a constraint is
read at every instant. So the constraints for a formula can be satisfied exactly if those for the
formula with its propositions replaced can be satisfied by a run along which these are steady.
-/

namespace HybridCheck

open Term HybridCheck.Symbol

/-! ## Replacing propositions -/

namespace Formula

mutual

/-- A formula with every proposition replaced by the constraint that defines it. -/
def inline (props : Table Term) : Formula → Formula
  | prop name => (props.get? name).elim (prop name) atom
  | bool b => bool b
  | atom c => atom c
  | not f => not (inline props f)
  | and fs => and (inlineAll props fs)
  | or fs => or (inlineAll props fs)
  | implies l r => implies (inline props l) (inline props r)
  | eventually w f => eventually w (inline props f)
  | always w f => always w (inline props f)
  | untl w l r => untl w (inline props l) (inline props r)
  | release w l r => release w (inline props l) (inline props r)
  | witness point => witness point
  | missing => missing

def inlineAll (props : Table Term) : List Formula → List Formula
  | [] => []
  | f :: fs => inline props f :: inlineAll props fs

end

variable {A : Term → Prop} {R : String → Prop} {props : Table Term}

theorem inlineAll_eq (fs : List Formula) : inlineAll props fs = fs.map (inline props) := by
  induction fs with
  | nil => rfl
  | cons f fs ih => rw [inlineAll, ih, List.map_cons]

theorem inline_prop {name : String} {t : Term} (h : props.get? name = some t) :
    (prop name).inline props = atom t := by
  rw [inline, h]
  rfl

/-- What holds of constraints and of definitions holds of every part of a formula whose
propositions were replaced. -/
theorem Every.inline {leaf leaf' : Formula → Prop} {window : Window → Prop}
    (hprop : ∀ name, leaf (prop name) → leaf' ((prop name).inline props))
    (hleaf : ∀ f, (∀ name, f ≠ prop name) → leaf f → leaf' f) {f : Formula}
    (h : f.Every leaf window) : (f.inline props).Every leaf' window := by
  have all {fs : List Formula}
      (ih : ∀ f ∈ fs, f.Every leaf window → (f.inline props).Every leaf' window)
      (h : EveryAll leaf window fs) : EveryAll leaf' window (inlineAll props fs) := by
    rw [inlineAll_eq, everyAll_iff, List.forall_mem_map]
    exact fun f hf => ih f hf (everyAll_iff.1 h f hf)
  induction f using Formula.induct with
  | prop name =>
    have := hprop name h
    rw [Formula.inline] at this ⊢
    cases ht : props.get? name <;> rwa [ht] at this
  | bool | atom | witness | missing => exact hleaf _ nofun h
  | not f ih => exact ih h
  | and fs ih | or fs ih => exact all ih h
  | implies l r ihl ihr => exact ⟨ihl h.1, ihr h.2⟩
  | eventually w f ih | always w f ih => exact ⟨h.1, ih h.2⟩
  | untl w l r ihl ihr | release w l r ihl ihr => exact ⟨h.1, ihl h.2.1, ihr h.2.2⟩

theorem Formed.inline {f : Formula} (h : f.Formed A R)
    (defined : ∀ name, R name → ∃ t, props.get? name = some t ∧ A t) :
    (f.inline props).Formed A R := by
  have all {fs : List Formula} (ih : ∀ f ∈ fs, f.Formed A R → (f.inline props).Formed A R)
      (h : 2 ≤ fs.length ∧ FormedAll A R fs) :
      2 ≤ (inlineAll props fs).length ∧ FormedAll A R (inlineAll props fs) := by
    rw [inlineAll_eq, List.length_map, formedAll_iff, List.forall_mem_map]
    exact ⟨h.1, fun f hf => ih f hf (formedAll_iff.1 h.2 f hf)⟩
  induction f using Formula.induct with
  | prop name =>
    obtain ⟨t, ht, hA⟩ := defined name h
    rw [inline_prop ht]
    exact hA
  | bool | atom => exact h
  | not f ih => exact ih h
  | and fs ih | or fs ih => exact all ih h
  | implies l r ihl ihr => exact ⟨ihl h.1, ihr h.2⟩
  | eventually w f ih | always w f ih => exact ⟨h.1, ih h.2⟩
  | untl w l r ihl ihr | release w l r ihl ihr => exact ⟨h.1, ihl h.2.1, ihr h.2.2⟩
  | witness | missing => exact h.elim

/-- Replacing propositions does not matter on a trace that reads them as their definitions. -/
theorem holds_inline {σ : Trace}
    (reads : ∀ name t, props.get? name = some t → ∀ u, σ.prop name u ↔ σ.atom t u) {f : Formula}
    {u : ℝ} : (f.inline props).Holds σ u ↔ f.Holds σ u := by
  induction f using Formula.induct generalizing u with
  | prop name =>
    rw [inline]
    cases ht : props.get? name with
    | none => rfl
    | some t => exact (reads name t ht u).symm
  | bool | atom | witness | missing => rfl
  | not f ih => rw [inline, Holds, Holds, ih]
  | and fs ih =>
    rw [inline, inlineAll_eq, holds_and, holds_and, List.forall_mem_map]
    exact forall₂_congr fun f hf => ih f hf
  | or fs ih =>
    rw [inline, inlineAll_eq, holds_or, holds_or]
    simp only [List.mem_map, exists_exists_and_eq_and]
    exact exists_congr fun f => and_congr_right fun hf => ih f hf
  | implies l r ihl ihr => rw [inline, Holds, Holds, ihl, ihr]
  | eventually w f ih | always w f ih => simp only [inline, Holds, ih]
  | untl w l r ihl ihr | release w l r ihl ihr => simp only [inline, Holds, ihl, ihr]

/-- What holds of every part of a normal form holds of every part of the formula, if it is about
propositions only. -/
theorem Every.of_normal {leaf : Formula → Prop} {window : Window → Prop}
    (hbool : ∀ b, leaf (bool b)) (hatom : ∀ c, leaf (atom c)) {f : Formula} {negated : Bool}
    (h : (f.normal negated).Every leaf window) : f.Every leaf window := by
  have all {fs : List Formula} {negated : Bool}
      (ih : ∀ f ∈ fs, ∀ {negated}, (f.normal negated).Every leaf window → f.Every leaf window)
      (h : EveryAll leaf window (normalAll negated fs)) : EveryAll leaf window fs := by
    rw [normalAll_eq, everyAll_iff, List.forall_mem_map] at h
    exact everyAll_iff.2 fun f hf => ih f hf (h f hf)
  induction f using Formula.induct generalizing negated with
  | bool b => exact hbool b
  | atom c => exact hatom c
  | prop | witness | missing =>
    rw [Formula.normal] at h
    split at h <;> exact h
  | not f ih => exact ih h
  | and fs ih | or fs ih =>
    rw [Formula.normal] at h
    split at h <;> exact all ih h
  | implies l r ihl ihr =>
    rw [Formula.normal] at h
    split at h <;> exact ⟨ihl h.1, ihr h.2.1⟩
  | eventually w f ih | always w f ih =>
    rw [Formula.normal] at h
    split at h <;> exact ⟨h.1, ih h.2⟩
  | untl w l r ihl ihr | release w l r ihl ihr =>
    rw [Formula.normal] at h
    split at h <;> exact ⟨h.1, ihl h.2.1, ihr h.2.2⟩

end Formula

/-! ## Steady runs -/

theorem Trajectory.SteadyFor.congr {m : Automaton} {N : Nat} {r r' : Trajectory} {g : Formula}
    (h : r.SteadyFor m N g) (same : ∀ k ≤ N, r k = r' k) : r'.SteadyFor m N g := by
  refine h.mono (fun f hf name hname t ht k hk => ?_) fun _ h => h
  rw [← same k hk]
  exact hf name hname t ht k hk

/-- A proposition with a symbol in every step is steady. -/
theorem Env.Traces.steady {m : Automaton} {ρ : Env} {N : Nat} {props : List String}
    (h : ρ.Traces m N props) {name : String} (hname : name ∈ props) :
    (Trajectory.ofEnv m ρ).Steady m N name := by
  intro t ht k hk md hmd active
  have keeps := h.keeps k hk name hname t ht md hmd active
  by_cases symbol : (ρ.now (discrete name .bool k)).Holds
  · exact Or.inl fun c h0 hc => (keeps c h0 hc).2 symbol
  · exact Or.inr fun c h0 hc holds => symbol ((keeps c h0 hc).1 holds)

namespace Automaton

variable {m : Automaton} {g : Formula} {N : Nat} {gs : Formula.Guessed} {bv : BaseValuation}
  {u : Term} {trace : List Term} {ρ : Env} {T : Option Rat} {r : Trajectory}

section

variable (accepted : m.Accepted) (formed : g.Over m.scope.Declares m.scope.Proposes)
  (sorted : g.WellSorted) (h : m.Encoded g N gs bv u trace)
include accepted formed sorted h

/-- The propositions of a formula are steady along the run in an assignment. -/
theorem Encoded.steadyFor (traces : ρ.Traces m N gs.partition.propositions) :
    (Trajectory.ofEnv m ρ).SteadyFor m N g := by
  have normal : g.nnf.Every
      (fun f => ∀ name, f = .prop name → (Trajectory.ofEnv m ρ).Steady m N name)
      fun _ => True := by
    refine ((isPart_nnf formed sorted).and h.tabulated).mono (fun f hf name hname => ?_)
      fun _ _ => trivial
    subst hname
    exact traces.steady (h.tabulates.mem_propositions accepted hf.1 hf.2)
  exact Formula.Every.of_normal (fun _ _ => nofun) (fun _ _ => nofun) normal

variable (wellSorted : m.WellSorted) (exclusive : m.Exclusive)
include wellSorted exclusive

/-- Along the run in an assignment that satisfies the constraints for a bound, the propositions of
the formula are steady, too. -/
theorem Encoded.steady_run (hρ : ρ.Sorted) (holds : ∀ t ∈ bounded gs u trace T, t.Holds ρ) :
    (Trajectory.ofEnv m ρ).Of m N T ∧ (Trajectory.ofEnv m ρ).SteadyFor m N g ∧
      g.Holds ((Trajectory.ofEnv m ρ).trace m N) 0 := by
  obtain ⟨run, formula⟩ := h.run accepted wellSorted exclusive formed sorted hρ holds
  have traces := ((h.holds_bounded T hρ).1 holds).1
  exact ⟨run, h.steadyFor accepted formed sorted traces, formula⟩

end

/-! ## Formulas with their propositions replaced -/

/-- Some assignment of values of their sorts satisfies several constraints. -/
def Satisfiable (ts : List Term) : Prop := ∃ ρ : Env, ρ.Sorted ∧ ∀ t ∈ ts, t.Holds ρ

/-- The constraints for a formula can be satisfied exactly if some run satisfies the formula along
which its propositions are steady. -/
theorem WellSorted.satisfiable_iff (accepted : m.Accepted) (wellSorted : m.WellSorted)
    (exclusive : m.Exclusive) (formed : g.Over m.scope.Declares m.scope.Proposes)
    (sorted : g.WellSorted) (N : Nat) (T : Option Rat) :
    ∃ q, Search.encode m m.encoder T g N = .ok q ∧ (Satisfiable q.constraints ↔
      ∃ r : Trajectory, r.Of m N T ∧ r.SteadyFor m N g ∧ g.Holds (r.trace m N) 0) := by
  obtain ⟨gs, bv, u, trace, h, hencode⟩ :=
    wellSorted.exists_encoded accepted formed sorted N
  refine ⟨_, hencode T, ?_, ?_⟩
  · rintro ⟨ρ, hρ, holds⟩
    exact ⟨_, h.steady_run accepted formed sorted wellSorted exclusive hρ holds⟩
  · rintro ⟨r, run, steady, holds⟩
    obtain ⟨ρ, hρ, -, satisfied⟩ :=
      h.realized accepted wellSorted exclusive formed sorted run steady holds
    exact ⟨ρ, hρ, satisfied⟩

theorem holds_inline_run {r : Trajectory} :
    (g.inline m.props).Holds (r.trace m N) 0 ↔ g.Holds (r.trace m N) 0 := by
  refine Formula.holds_inline fun name t ht u => ?_
  simp only [Trajectory.trace, ht, Option.some.injEq, exists_eq_left']

/-- A formula whose propositions were replaced has none that could be unsteady. -/
theorem steadyFor_inline (formed : g.Over m.scope.Declares m.scope.Proposes) (r : Trajectory) :
    r.SteadyFor m N (g.inline m.props) := by
  have proposed : g.Every (fun f => ∀ name, f = .prop name → m.scope.Proposes name)
      fun w => 0 ≤ w.lower :=
    formed.every (fun _ _ => nofun) (fun name h name' h' => Formula.prop.inj h' ▸ h)
      fun _ _ _ => nofun
  have replaced : (g.inline m.props).Every (fun f => ∀ name, f = .prop name → r.Steady m N name)
      fun w => 0 ≤ w.lower := by
    refine proposed.inline (fun name h name' h' => ?_) fun f hf _ name h => absurd h (hf name)
    obtain ⟨t, ht⟩ := definition_of_scope (h name rfl)
    rw [Formula.inline_prop ht] at h'
    cases h'
  exact replaced.mono (fun _ h => h) fun _ _ => trivial

/-- No definition of a proposition reads a variable that is written like a constant. -/
def PlainlyNamed (m : Automaton) : Prop :=
  ∀ e ∈ m.props, ∀ v ∈ e.2.occurrences [], v.name ≠ "true" ∧ v.name ≠ "false"

instance (m : Automaton) : Decidable m.PlainlyNamed :=
  inferInstanceAs (Decidable (∀ e ∈ m.props, ∀ v ∈ e.2.occurrences [],
    v.name ≠ "true" ∧ v.name ≠ "false"))

section

variable (accepted : m.Accepted) (wellSorted : m.WellSorted) (named : m.PlainlyNamed)
include accepted wellSorted named

/-- The definitions of propositions are constraints that formulas can be built from. -/
theorem WellSorted.definition {name : String} {t : Term} (ht : m.props.get? name = some t) :
    t.BuiltOver m.scope.Declares ∧ t.Constraint noFlow := by
  have mem := Table.mem_of_get? ht
  have declared := wellSorted.props _ mem
  have inScope : t.Scoped m.scope.Declares fun _ => False := by
    refine ⟨declared.sorted, declared.quantFree, fun v hv => ?_, declared.next⟩
    exact accepted.scope_of_declares (declared.now v hv)
      (named _ mem v (by simpa [mentions] using hv))
  exact ⟨inScope.built, declared.constraint (accepted.props _ mem)⟩

theorem WellSorted.over_inline (formed : g.Over m.scope.Declares m.scope.Proposes) :
    (g.inline m.props).Over m.scope.Declares m.scope.Proposes := by
  refine formed.inline fun name hname => ?_
  obtain ⟨t, ht⟩ := definition_of_scope hname
  exact ⟨t, ht, (wellSorted.definition accepted named ht).1⟩

theorem WellSorted.wellSorted_inline (sorted : g.WellSorted) :
    (g.inline m.props).WellSorted := by
  refine Formula.Every.inline (fun name _ c hc => ?_) (fun _ _ h => h) sorted
  rw [Formula.inline] at hc
  cases ht : m.props.get? name with
  | none =>
    rw [ht] at hc
    cases hc
  | some t =>
    rw [ht] at hc
    cases hc
    exact (wellSorted.definition accepted named ht).2

end

def height : Term := .var ⟨"x", .real, .logical⟩

/-- Something that rises from the ground. It is low below one. -/
def rise : Definition where
  stateVars := [("x", .real)]
  props := [("low", .cmp .lt height (.num .real 1))]
  init := some (.cmp .eq height (.num .real 0))
  modes := [{ id := 0, flow := ⟨⟨"t", .real, .bound⟩, [("x", .num .real 1)], []⟩ }]

def balloon : Automaton where
  stateVars := rise.stateVars
  modeVars := []
  props := rise.props
  init := .cmp .eq height (.num .real 0)
  modes := [⟨0, "mode0", .bool true, ⟨⟨"t", .real, .bound⟩, [("x", .num .real 1)], []⟩, .bool true⟩]
  jumps := []
  logic := ""

theorem ofDefinition_rise : ofDefinition rise = .ok balloon := by cbv

theorem wellSorted_balloon : balloon.WellSorted := by decide

theorem exclusive_balloon : balloon.Exclusive := by
  intro t _ md hmd md' hmd' _ _
  rw [List.mem_singleton.1 hmd, List.mem_singleton.1 hmd']

/-- It is low now but will not be soon. -/
def leaving : Formula :=
  .and [.prop "low", .eventually ⟨some 0, some 2, false, false⟩ (.not (.prop "low"))]

theorem ofText_leaving :
    Formula.ofText balloon.scope "low /\\ <>_[0,2] ~low" = .ok leaving := by cbv

theorem wellSorted_leaving : leaving.WellSorted := ⟨nofun, ⟨trivial, nofun⟩, trivial⟩

/-- A proposition that is steady in the only step of a run does not change. -/
theorem not_leaving {r : Trajectory} {T : Option Rat} (run : r.Of balloon 0 T)
    (steady : r.SteadyFor balloon 0 leaving) : ¬leaving.Holds (r.trace balloon 0) 0 := by
  rw [leaving, Formula.holds_and]
  simp only [List.mem_cons, List.not_mem_nil, or_false, forall_eq_or_imp, forall_eq, not_and]
  rintro ⟨t, ht, k, hk, hin, md, hmd, active, low⟩ ⟨u, covers, hu, high⟩
  obtain rfl := Nat.le_zero.1 hk
  have duration : (r 0).duration = (r 0).stop := (run.duration 0 le_rfl).trans (sub_zero _)
  have hu : u ≤ (r 0).stop := hu
  have nonneg : 0 ≤ u := covers.nonneg le_rfl le_rfl
  have always := (steady.1 "low" rfl t ht 0 le_rfl md hmd active).resolve_right fun never =>
    never _ (by simp [Trajectory.start]) (by simpa [Trajectory.start, duration] using run.first) low
  refine high ⟨t, ht, 0, le_rfl, ⟨nonneg, hu⟩, md, hmd, active, always _ ?_ ?_⟩
  · simpa [Trajectory.start] using nonneg
  · simpa [Trajectory.start, duration] using hu

noncomputable def ascent : Trajectory := fun _ =>
  { duration := 1
    stop := 1
    mode := []
    entry := [("x", .number 0)]
    exit := [("x", .number 1)] }

theorem stateAt_ascent (k : Nat) {md : Mode} (hmd : md ∈ balloon.modes) (ρ : Env) (c : ℝ) :
    md.flow.stateAt ρ (ascent k).mode (ascent k).entry c = [("x", .number c)] := by
  obtain rfl := List.mem_singleton.1 hmd
  simp [ascent, FlowOf.stateAt, FlowOf.reach, FlowOf.moved, evalTable, eval, Table.get?]

theorem height_ascent (k : Nat) {md : Mode} (hmd : md ∈ balloon.modes) (c : ℝ) :
    height.eval ((ascent k).after md c) = .number c := by
  have clock : ∀ md ∈ balloon.modes, ⟨"x", .real, .logical⟩ ≠ md.flow.clock := by decide
  rw [height, eval, Step.after, FlowOf.instant, Env.set_now_of_ne _ _ (clock md hmd),
    stateAt_ascent k hmd]
  exact Env.bind_now rfl rfl ⟨_, rfl⟩

theorem low_ascent (k : Nat) {md : Mode} (hmd : md ∈ balloon.modes) (c : ℝ) :
    (Term.cmp .lt height (.num .real 1)).Holds ((ascent k).after md c) ↔ c < 1 := by
  rw [Term.Holds, eval, height_ascent k hmd]
  simp [eval, Relation.Compares]

theorem ascent_of_balloon : ascent.Of balloon 0 none where
  sorted k _ := ⟨.nil, .cons ⟨rfl, 0, rfl⟩ .nil, .cons ⟨rfl, 1, rfl⟩ .nil⟩
  duration k hk := by
    obtain rfl := Nat.le_zero.1 hk
    exact (sub_zero _).symm
  first := by norm_num [ascent]
  increasing := nofun
  bounded := nofun
  follows := by
    have first : balloon.modes[0] ∈ balloon.modes := List.getElem_mem _
    refine ⟨?_, fun k hk => ⟨_, first, ?_, ⟨rfl, ?_, fun c _ _ => rfl⟩⟩, nofun⟩
    · have x : (ascent 0).atEntry.now ⟨"x", .real, .logical⟩ = .number 0 :=
        Env.bind_now rfl rfl ⟨0, rfl⟩
      simp [balloon, Term.Holds, eval, height, x, Relation.Compares]
    · norm_num [ascent]
    · rw [stateAt_ascent k first]
      simp [ascent, Table.get?]

theorem leaving_ascent : leaving.Holds (ascent.trace balloon 0) 0 := by
  have first : balloon.modes[0] ∈ balloon.modes := List.getElem_mem _
  have shows {u : ℝ} (h0 : 0 ≤ u) (h1 : u ≤ 1) :
      (ascent.trace balloon 0).prop "low" u ↔ u < 1 := by
    constructor
    · rintro ⟨t, ht, k, hk, hin, md, hmd, -, holds⟩
      cases ht
      obtain rfl := Nat.le_zero.1 hk
      simpa [Trajectory.start] using (low_ascent 0 hmd _).1 holds
    · intro hu
      refine ⟨_, rfl, 0, le_rfl, ⟨h0, h1⟩, _, first, rfl, (low_ascent 0 first _).2 ?_⟩
      simpa [Trajectory.start] using hu
  rw [leaving, Formula.holds_and]
  simp only [List.mem_cons, List.not_mem_nil, or_false, forall_eq_or_imp, forall_eq]
  refine ⟨(shows le_rfl (by norm_num)).2 (by norm_num), 1, ?_, le_rfl, fun low => ?_⟩
  · norm_num [Window.Covers, Window.lower]
  · have := (shows (by norm_num) le_rfl).1 low
    norm_num at this

/-- Replacing the propositions of a formula about an automaton matters: the constraints for the
formula cannot be satisfied, but those for the formula with its propositions replaced can. -/
def InlineMatters (d : Definition) (s : String) : Prop :=
  ∃ m g, ofDefinition d = .ok m ∧ m.WellSorted ∧ m.Exclusive ∧ Formula.ofText m.scope s = .ok g ∧
    g.WellSorted ∧ ∃ q q', Search.encode m m.encoder none g 0 = .ok q ∧
      Search.encode m m.encoder none (g.inline m.props) 0 = .ok q' ∧
      ¬Satisfiable q.constraints ∧ Satisfiable q'.constraints

theorem inlineMatters_rise : InlineMatters rise "low /\\ <>_[0,2] ~low" := by
  refine ⟨balloon, leaving, ofDefinition_rise, wellSorted_balloon, exclusive_balloon,
    ofText_leaving, wellSorted_leaving, ?_⟩
  have accepted := accepted_of_ofDefinition ofDefinition_rise
  have formed := (Formula.regular_of_ofText ofText_leaving).over
  have named : balloon.PlainlyNamed := by decide
  obtain ⟨q, hq, satisfiable⟩ := wellSorted_balloon.satisfiable_iff accepted exclusive_balloon
    formed wellSorted_leaving 0 none
  obtain ⟨q', hq', satisfiable'⟩ := wellSorted_balloon.satisfiable_iff accepted exclusive_balloon
    (wellSorted_balloon.over_inline accepted named formed)
    (wellSorted_balloon.wellSorted_inline accepted named wellSorted_leaving) 0 none
  refine ⟨q, q', hq, hq', ?_, ?_⟩
  · rw [satisfiable]
    rintro ⟨r, run, steady, holds⟩
    exact not_leaving run steady holds
  · exact satisfiable'.2 ⟨ascent, ascent_of_balloon, steadyFor_inline formed ascent,
      holds_inline_run.2 leaving_ascent⟩

/-! ## A variable that is named like a constant -/

def misnamed : Term := .var ⟨"true", .bool, .logical⟩

def lit : Term := .cmp .eq heating (.bool true)

/-- Whether the switch is like the misnamed variable, which is written like the constraint above. -/
def alike : Term := .cmp .eq heating misnamed

/-- A switch that is on, and a misnamed variable that does not hold. -/
def switch : Definition where
  modeVars := [("on", .bool), ("true", .bool)]
  props := [("lit", lit), ("alike", alike)]
  init := some (.and [heating, .not misnamed])
  modes := [{ id := 0, flow := ⟨⟨"t", .real, .bound⟩, [], []⟩ }]

def switched : Automaton where
  stateVars := []
  modeVars := switch.modeVars
  props := switch.props
  init := .and [heating, .not misnamed]
  modes := [⟨0, "mode0", .bool true, ⟨⟨"t", .real, .bound⟩, [], []⟩, .bool true⟩]
  jumps := []
  logic := ""

theorem ofDefinition_switch : ofDefinition switch = .ok switched := by cbv

theorem wellSorted_switched : switched.WellSorted := by decide

theorem exclusive_switched : switched.Exclusive := by
  intro t _ md hmd md' hmd' _ _
  rw [List.mem_singleton.1 hmd, List.mem_singleton.1 hmd']

def ambiguous : Formula := .and [.prop "alike", .prop "lit"]

theorem ofText_ambiguous :
    Formula.ofText switched.scope "alike /\\ lit" = .ok ambiguous := by cbv

theorem wellSorted_ambiguous : ambiguous.WellSorted := ⟨nofun, nofun, trivial⟩

/-- A constraint that has the text of another one in a conjunction is encoded like that one. -/
theorem encode_of_text {m : Automaton} {a c : Term} (htext : a.text = c.text)
    (hsize : a.size = c.size) (T : Option Rat) (N : Int) :
    Search.encode m m.encoder T (.and [.atom a, .atom c]) N =
      Search.encode m m.encoder T (.and [.atom c, .atom c]) N := by
  have guess : (Formula.and [.atom a, .atom c]).guess ⟨N⟩ =
      (Formula.and [.atom c, .atom c]).guess ⟨N⟩ := by
    simp [Formula.guess, Formula.nnf, Formula.normal, Formula.normalAll, Formula.collectAtoms,
      Formula.collectAtomsAll, Formula.guessFrom, Formula.guessAll, htext, Table.put]
  have separate (a : Term) (guesses : Guesses) :
      (Formula.and [.atom a, .atom c]).separate guesses = ⟨.and [.atom a, .atom c], []⟩ := rfl
  have valueAt (bv : BaseValuation) : Formula.Separated.valueAt ⟨.and [.atom a, .atom c], []⟩ bv =
      Formula.Separated.valueAt ⟨.and [.atom c, .atom c], []⟩ bv := by
    funext t
    simp only [Formula.Separated.valueAt, Formula.value, Formula.valueAll, htext]
  have size : Formula.Separated.size ⟨.and [.atom a, .atom c], []⟩ =
      Formula.Separated.size ⟨.and [.atom c, .atom c], []⟩ := by
    simp only [Formula.Separated.size, Formula.size, Formula.sizeAll, hsize]
  simp only [Search.encode, encoder, guess, separate, Attempt.within_ok, Attempt.bind_ok,
    Formula.Separated.valuation, valueAt, size]

/-- The variables of the switch keep their values during a step. -/
theorem after_switched {st : Step} (sorted : st.Sorted switched) {md : Mode}
    (hmd : md ∈ switched.modes) (c : ℝ) {v : Var} (hv : v.role = .logical) :
    (st.after md c).now v = st.atEntry.now v := by
  have entry : st.entry = [] := List.forall₂_nil_right_iff.1 sorted.entry
  obtain rfl := List.mem_singleton.1 hmd
  have clock : v ≠ ⟨"t", .real, .bound⟩ := by
    rintro rfl
    cases hv
  rw [Step.after, FlowOf.instant, Env.set_now_of_ne _ _ clock, Step.atEntry, entry]
  rfl

/-- No run of the switch is on and like the variable that does not hold. -/
theorem not_ambiguous {r : Trajectory} {T : Option Rat} (run : r.Of switched 0 T) :
    ¬ambiguous.Holds (r.trace switched 0) 0 := by
  rw [ambiguous, Formula.holds_and]
  intro holds
  obtain ⟨t, ht, k, hk, hin, md, hmd, active, same⟩ := holds (.prop "alike") (by simp)
  obtain rfl := Nat.le_zero.1 hk
  cases ht
  have sorted := run.sorted 0 le_rfl
  have init := run.follows.init
  simp only [Term.Holds, eval, evalAll, switched, alike, heating, misnamed, List.mem_cons,
    List.not_mem_nil, or_false, forall_eq_or_imp, forall_eq, Value.holds_truth,
    Relation.Compares] at init same
  rw [after_switched sorted hmd _ rfl, after_switched sorted hmd _ rfl] at same
  rw [same] at init
  exact init.2 init.1

noncomputable def instantOn : Trajectory := fun _ =>
  { duration := 0
    stop := 0
    mode := [("on", .truth True), ("true", .truth False)]
    entry := []
    exit := [] }

theorem instantOn_of_switched : instantOn.Of switched 0 none where
  sorted k _ := ⟨.cons ⟨rfl, True, rfl⟩ (.cons ⟨rfl, False, rfl⟩ .nil), .nil, .nil⟩
  duration k hk := by
    obtain rfl := Nat.le_zero.1 hk
    exact (sub_zero _).symm
  first := le_rfl
  increasing := nofun
  bounded := nofun
  follows := by
    have first : switched.modes[0] ∈ switched.modes := List.getElem_mem _
    have on : (instantOn 0).atEntry.now ⟨"on", .bool, .logical⟩ = .truth True :=
      Env.bind_now rfl rfl ⟨True, rfl⟩
    have off : (instantOn 0).atEntry.now ⟨"true", .bool, .logical⟩ = .truth False :=
      Env.bind_now rfl rfl ⟨False, rfl⟩
    refine ⟨?_, fun k hk => ⟨_, first, le_rfl, ⟨rfl, nofun, fun c _ _ => rfl⟩⟩, nofun⟩
    simp [switched, Term.Holds, eval, heating, misnamed, on, off]

theorem inlineMatters_switch : InlineMatters switch "alike /\\ lit" := by
  refine ⟨switched, ambiguous, ofDefinition_switch, wellSorted_switched, exclusive_switched,
    ofText_ambiguous, wellSorted_ambiguous, ?_⟩
  have accepted := accepted_of_ofDefinition ofDefinition_switch
  obtain ⟨q, hq, satisfiable⟩ := wellSorted_switched.satisfiable_iff accepted exclusive_switched
    (Formula.regular_of_ofText ofText_ambiguous).over wellSorted_ambiguous 0 none
  -- both definitions have the text of the second one, which is read twice
  have declared : switched.scope.Declares ⟨"on", .bool, .logical⟩ :=
    accepted.scope_of_declares (by decide) (by decide)
  have built : lit.BuiltOver switched.scope.Declares := by
    refine .operator (o := .cmp .eq) rfl ?_
    simpa [lit, operands] using
      ⟨.var declared, .operator (o := .bool true) rfl (by simp [operands])⟩
  have formed : (Formula.and [.atom lit, .atom lit]).Over switched.scope.Declares
      switched.scope.Proposes := ⟨le_rfl, built, built, trivial⟩
  have sorted : (Formula.and [.atom lit, .atom lit]).WellSorted := by
    refine ⟨fun c hc => ?_, fun c hc => ?_, trivial⟩
    all_goals
      cases hc
      exact ⟨rfl, rfl⟩
  obtain ⟨q', hq', satisfiable'⟩ := wellSorted_switched.satisfiable_iff accepted
    exclusive_switched formed sorted 0 none
  have encoded := encode_of_text (m := switched) (a := alike) (c := lit) rfl rfl none 0
  refine ⟨q, q', hq, encoded.trans hq', ?_, ?_⟩
  · rw [satisfiable]
    rintro ⟨r, run, -, holds⟩
    exact not_ambiguous run holds
  · have steady (name : String) (h : Formula.atom lit = .prop name) :
        instantOn.Steady switched 0 name := by cases h
    refine satisfiable'.2 ⟨instantOn, instantOn_of_switched, ⟨steady, steady, trivial⟩, ?_⟩
    have first : switched.modes[0] ∈ switched.modes := List.getElem_mem _
    have on (c : ℝ) : ((instantOn 0).after switched.modes[0] c).now ⟨"on", .bool, .logical⟩ =
        .truth True :=
      (after_switched (instantOn_of_switched.sorted 0 le_rfl) first _ rfl).trans
        (Env.bind_now rfl rfl ⟨True, rfl⟩)
    have holds : (instantOn.trace switched 0).atom lit 0 := by
      refine ⟨0, le_rfl, ⟨le_rfl, le_rfl⟩, _, first, rfl, ?_⟩
      simp [lit, Term.Holds, eval, heating, on, Relation.Compares]
    exact ⟨holds, holds, trivial⟩

end Automaton

end HybridCheck
