import HybridCheck.Proofs.BoundedEncoding
import HybridCheck.Proofs.Translation

/-!
# Formulas that were read can be encoded

The stages of the encoding hand each other texts: atoms are collected by their texts, tabulated, and
looked up again when the formula is valued, and witnesses are looked up by their names. Nothing is
ever missing, neither an atom nor a witness. What is left that could go wrong is arithmetic on truth
values, when the state that a flow reaches is put into an atom or the time since a segment began
into a cell of the table.
-/

namespace HybridCheck

open Term

/-! ## Values -/

section

variable {b : Timeline} {t u : Term}

theorem Timeline.quantity_start (k : Int) : (start k).Quantity noPrimitive := by
  unfold start
  split
  · exact quantity_zero
  · exact quantity_var

theorem exists_contains (w : Window) (ht : t.Quantity noPrimitive) (u : Term) :
    ∃ a, w.contains t u = .ok a := by
  have shifted (q : Rat) : ∃ s, mkAdd [t, .real q] = .ok s := by
    have number : (Term.real q).Quantity noPrimitive := inherited_quantity.num _ _
    have summands : ∀ a ∈ [t, .real q], a.Quantity noPrimitive := by simpa using ⟨ht, number⟩
    obtain ⟨s, hs, -⟩ := Quantity.mkAdd summands
    exact ⟨s, hs⟩
  obtain ⟨lo, hlo⟩ := shifted w.lower
  unfold Window.contains
  cases hhi : w.hi with
  | none => exact ⟨_, by rw [hlo]; rfl⟩
  | some q =>
    obtain ⟨hi, hhi⟩ := shifted q
    exact ⟨_, by rw [hlo, Attempt.bind_ok]; simp only [hhi]; rfl⟩

theorem exists_windowAt (w : Window) (ht : t.Quantity noPrimitive) (u : Term) :
    ∃ a, Formula.windowAt b w t u = .ok a := by
  obtain ⟨a, ha⟩ := exists_contains w ht u
  exact ⟨_, by rw [Formula.windowAt, ha]; rfl⟩

namespace BaseValuation

theorem exists_alternatives (ht : t.Quantity noPrimitive) {cs : List Term}
    (safe : ∀ c ∈ cs, c.Safe noPrimitive) (k : Int) : ∃ us, alternatives b t k cs = .ok us := by
  induction cs generalizing k with
  | nil => exact ⟨[], rfl⟩
  | cons c cs ih =>
    obtain ⟨d, hd, quantity⟩ := ht.mkSub (Timeline.quantity_start k)
    obtain ⟨u, hu, -⟩ := (safe c (by simp)).replace quantity Symbol.offset
    obtain ⟨us, hus⟩ := ih (fun c hc => safe c (by simp [hc])) (k + 1)
    have first : alternative b t k c = .ok (mkAnd [b.within k t, u]) := by
      rw [alternative, hd, Attempt.bind_ok, hu]
      rfl
    exact ⟨_, by rw [alternatives, first, Attempt.bind_ok, hus]; rfl⟩

/-- No cell of a table has arithmetic on truth values. -/
def Safe (bv : BaseValuation) : Prop :=
  ∀ key row, bv.rows.get? key = some row → ∀ c ∈ row, c.Safe noPrimitive

theorem Safe.exists_valueAt {bv : BaseValuation} (safe : bv.Safe) {key : String}
    (listed : (bv.rows.get? key).isSome = true) (ht : t.Quantity noPrimitive) :
    ∃ u, bv.valueAt key t = .ok u := by
  obtain ⟨row, hrow⟩ := Option.isSome_iff_exists.1 listed
  obtain ⟨us, hus⟩ := exists_alternatives (b := bv.timeline) ht (safe key row hrow) 0
  exact ⟨_, by simp only [valueAt, hrow]; rw [hus]; rfl⟩

end BaseValuation

end

/-- If every step of a valuation has an answer, so has the valuation. -/
theorem Valuing.exists_bind {α β : Type} {x : Valuing α} {f : α → Valuing β} {n m : Nat} {a : α}
    (h : x n = .ok (a, m)) (hf : ∃ b k, f a m = .ok (b, k)) : ∃ b k, (x >>= f) n = .ok (b, k) := by
  obtain ⟨b, k, hb⟩ := hf
  exact ⟨b, k, (bind_run h).trans hb⟩

namespace Formula

open Valuing

/-- A valuation has an answer at every instant that may be calculated with. -/
def Answered (x : Term → Valuing Term) : Prop :=
  ∀ t n, t.Quantity noPrimitive → ∃ u n', x t n = .ok (u, n')

section

variable {bv : BaseValuation} (safe : bv.Safe) {ow : OnWitness} {windows : Window → Prop}

theorem answered_all {fs : List Formula} (ih : ∀ f ∈ fs, Answered (value bv ow f)) {t : Term}
    (ht : t.Quantity noPrimitive) (n : Nat) : ∃ us n', valueAll bv ow fs t n = .ok (us, n') := by
  induction fs generalizing n with
  | nil => exact ⟨[], n, rfl⟩
  | cons f fs ih' =>
    obtain ⟨u, n₁, hu⟩ := ih f (by simp) t n ht
    obtain ⟨us, n₂, hus⟩ := ih' (fun f hf => ih f (by simp [hf])) n₁
    rw [valueAll]
    exact exists_bind hu (exists_bind hus ⟨_, _, rfl⟩)

include safe

/-- A formula has a value if each of its atoms has a row and each of its witnesses has a value. -/
theorem answered_value {W : Var → Prop} (hw : ∀ w, W w → Answered (ow w)) {f : Formula}
    (hf : f.Every (Tabulated bv W) windows) : Answered (value bv ow f) := by
  have instant (n : Nat) : (var (Symbol.instant n)).Quantity noPrimitive := quantity_var
  induction f using induct with
  | bool b => exact fun t n _ => ⟨.bool b, n, rfl⟩
  | prop name | atom c =>
    intro t n ht
    obtain ⟨u, hu⟩ := safe.exists_valueAt hf ht
    rw [value]
    exact ⟨u, n, lift_run hu⟩
  | witness w => exact hw w hf
  | missing => exact hf.elim
  | not f ih =>
    intro t n ht
    obtain ⟨u, n', hu⟩ := ih hf t n ht
    rw [value]
    exact exists_bind hu ⟨_, _, rfl⟩
  | and fs ih | or fs ih =>
    intro t n ht
    obtain ⟨us, n', hus⟩ := answered_all (fun f hm => ih f hm (everyAll_iff.1 hf f hm)) ht n
    rw [value]
    exact exists_bind hus ⟨_, _, rfl⟩
  | implies l r ihl ihr =>
    intro t n ht
    obtain ⟨a, n₁, ha⟩ := ihl hf.1 t n ht
    obtain ⟨b, n₂, hb⟩ := ihr hf.2 t n₁ ht
    rw [value]
    exact exists_bind ha (exists_bind hb ⟨_, _, rfl⟩)
  | eventually w f ih | always w f ih =>
    intro t n ht
    obtain ⟨body, n', hbody⟩ := ih hf.2 _ (n + 1) (instant n)
    obtain ⟨win, hwin⟩ := exists_windowAt (b := bv.timeline) w ht (var (Symbol.instant n))
    rw [value]
    exact exists_bind (fresh_run n) (exists_bind hbody (exists_bind (lift_run hwin) ⟨_, _, rfl⟩))
  | untl w l r ihl ihr | release w l r ihl ihr =>
    intro t n ht
    obtain ⟨right, n₁, hright⟩ := ihr hf.2.2 _ (n + 1) (instant n)
    obtain ⟨left, n₂, hleft⟩ := ihl hf.2.1 _ (n₁ + 1) (instant n₁)
    obtain ⟨win, hwin⟩ := exists_windowAt (b := bv.timeline) w ht (var (Symbol.instant n))
    rw [value]
    exact exists_bind (fresh_run n) (exists_bind hright (exists_bind (fresh_run n₁)
      (exists_bind hleft (exists_bind (lift_run hwin) ⟨_, _, rfl⟩))))

/-- A witness has a value if its subformula was kept aside and has no witnesses of its own. -/
theorem answered_witness {sub : Table Formula} {w : Var} {f : Formula}
    (hf : sub.get? w.name = some f) (existential : f.isExistential = true)
    (tabulated : f.Every (Tabulated bv fun _ => False) windows) (depth : Nat) :
    Answered (witnessValue bv sub (depth + 1) w) := by
  intro t n ht
  have inner {f : Formula} (hf : f.Every (Tabulated bv fun _ => False) windows) :
      Answered (value bv (witnessValue bv sub depth) f) :=
    answered_value safe (fun _ h => h.elim) hf
  cases f with
  | eventually v f =>
    obtain ⟨body, n', hbody⟩ := inner tabulated.2 _ n (quantity_var (v := w))
    obtain ⟨win, hwin⟩ := exists_windowAt (b := bv.timeline) v ht (var w)
    simp only [witnessValue, hf]
    exact exists_bind hbody (exists_bind (lift_run hwin) ⟨_, _, rfl⟩)
  | untl v l r =>
    obtain ⟨right, n₁, hright⟩ := inner tabulated.2.2 _ n (quantity_var (v := w))
    obtain ⟨left, n₂, hleft⟩ :=
      inner tabulated.2.1 _ (n₁ + 1) (quantity_var (v := Symbol.instant n₁))
    obtain ⟨win, hwin⟩ := exists_windowAt (b := bv.timeline) v ht (var w)
    simp only [witnessValue, hf]
    exact exists_bind hright (exists_bind (fresh_run n₁) (exists_bind hleft
      (exists_bind (lift_run hwin) ⟨_, _, rfl⟩)))
  | _ => cases existential

/-- A separated formula has a value at every point in time. -/
theorem exists_valuation {s : Separated} {guesses : Guesses}
    (top : s.top.Every (Tabulated bv fun w => (s.sub.get? w.name).isSome = true) windows)
    (kept : Kept (fun f => f.Every (Tabulated bv fun _ => False) windows) guesses s.sub)
    {w : Window} (point : w.isPoint = true) : ∃ u, s.valuation w bv = .ok u := by
  have witnesses (v : Var) (hv : (s.sub.get? v.name).isSome = true) :
      Answered (witnessValue bv s.sub s.sub.length v) := by
    obtain ⟨f, hf⟩ := Option.isSome_iff_exists.1 hv
    obtain ⟨tabulated, existential, -⟩ := kept _ _ hf
    have some_entry := List.length_pos_of_mem (Table.mem_of_get? hf)
    obtain ⟨depth, hdepth⟩ := Nat.exists_eq_add_of_lt some_entry
    rw [hdepth, Nat.zero_add]
    exact answered_witness safe hf existential tabulated depth
  have number : (Term.real w.lower).Quantity noPrimitive := inherited_quantity.num _ _
  obtain ⟨u, n, hu⟩ := answered_value safe witnesses top _ 0 number
  exact ⟨u, by rw [Separated.valuation, if_pos point]; exact run'_eq hu⟩

end

/-- No arithmetic in the constraints of a formula is on something that can become a truth value. -/
def Arithmetical (f : Formula) : Prop :=
  f.Every (fun g => ∀ c, g = atom c → c.arithmetical = true) fun _ => True

end Formula

/-! ## Cells -/

namespace Automaton

variable {m : Automaton} {c : Term} {N : Nat}

/-- A part of a formula that was read over the identifiers of an automaton. -/
structure IsReadPart (m : Automaton) (g : Formula) : Prop where
  formed : g.Regular m.scope.Declares m.scope.Proposes
  safe : ∀ c, g = .atom c → c.Safe noPrimitive

section

variable (accepted : m.Accepted) (translatable : m.Translatable)
include translatable

/-- Some time into a step the flow of every mode reaches a state that a constraint can be read
in. -/
theorem Translatable.active (hc : c.Safe noPrimitive) {md : Mode} (hmd : md ∈ m.modes) (k : Int) :
    ∃ u, (do
        let state ← Attempt.within (.inMode md.name)
          (md.flow.after (m.stateSubst k .entry) (m.discreteSubst k) (var Symbol.offset))
        return mkAnd [← md.guard.substitute (m.discreteSubst k),
          ← c.substitute ((m.discreteSubst k).merge state)] : Attempt Term) = .ok u ∧
      u.Safe noPrimitive := by
  have located : ∀ e ∈ m.discreteSubst k, e.2.Quantity noPrimitive :=
    fun _ he => (isSymbol_discrete he).quantity
  obtain ⟨state, hstate, -, reached⟩ := (translatable.flow md hmd).after
    (quantity_var (v := Symbol.offset)) (fun _ he => (isSymbol_state he).quantity) located
  obtain ⟨guard, hguard, safe⟩ := translatable.guard_spec (k := k) hmd
  have values : ∀ e ∈ (m.discreteSubst k).merge state, e.2.Quantity noPrimitive := by
    intro e he
    rcases Table.mem_of_mem_putAll he with he | he
    · exact reached e he
    · exact located e he
  obtain ⟨u, hu, substitutes⟩ := hc.substitute values
  refine ⟨mkAnd [guard, u], ?_, connectives_safe.mkAnd (by simpa using ⟨safe, substitutes.safe⟩)⟩
  rw [hstate, Attempt.within_ok, Attempt.bind_ok, hguard, Attempt.bind_ok, hu]
  rfl

include accepted

theorem Translatable.constraintAt (atom : IsAtom m.scope.Declares c) (hc : c.Safe noPrimitive)
    (k : Int) : ∃ u, m.constraintAt c k (var Symbol.offset) = .ok u ∧ u.Safe noPrimitive := by
  have uses : c.Uses m.scope.Declares noReference anyBinder noPrimitive := atom.builtOver.uses
  have checked := accepted.checked atom.sort (atom.builtOver.flowFree fun _ h => h.elim)
    (fun v hv => Or.inl (accepted.declares_of_scope (uses _ hv)))
    (fun _ => atom.builtOver.of_next) "atom"
  obtain ⟨us, hus, safe⟩ :=
    Attempt.exists_mapM_all fun md (hmd : md ∈ m.modes) => translatable.active hc hmd k
  refine ⟨mkOr us, ?_, connectives_safe.mkOr safe⟩
  exact Attempt.bind_eq_ok.2 ⟨(), checked, Attempt.bind_eq_ok.2 ⟨us, hus, rfl⟩⟩

theorem Translatable.cell {a : Atomic} (ha : m.IsReadPart a.formula) (k : Int) :
    ∃ u, BaseValuation.cell m.signal a k = .ok u ∧ u.Safe noPrimitive := by
  cases a with
  | prop name =>
    obtain ⟨t, ht⟩ := definition_of_scope ha.formed
    exact ⟨_, (propositionAt_spec ht k).1, quantity_var.safe⟩
  | constraint c => exact translatable.constraintAt accepted ha.formed (ha.safe c rfl) k

end

/-! ## Encoding -/

theorem isReadPart_nnf {f : Formula} (regular : f.Regular m.scope.Declares m.scope.Proposes)
    (arith : f.Arithmetical) : f.nnf.Every m.IsReadPart fun w => 0 ≤ w.lower := by
  have formed : f.nnf.Every (fun g => g.Regular m.scope.Declares m.scope.Proposes)
      fun w => 0 ≤ w.lower :=
    (regular.normal false).every (fun _ => trivial) (fun _ h => h) fun _ h => h
  have atoms : f.Every (fun g => ∀ c, g = .atom c → c.Safe noPrimitive) fun w => 0 ≤ w.lower := by
    have built : f.Every (fun g => ∀ c, g = .atom c → c.flowFree = true) fun w => 0 ≤ w.lower :=
      regular.every (fun _ => nofun) (fun _ _ => nofun) fun c hc c' h =>
        Formula.atom.inj h ▸ hc.builtOver.flowFree fun _ h => h.elim
    exact (built.and arith).mono
      (fun g hg c hc => safe_of_arithmetical (hg.2 c hc) (hg.1 c hc)) fun _ h => h.1
  have safe := atoms.normal (fun _ => nofun)
    (fun c hc c' h => Formula.atom.inj h ▸ connectives_safe.mkNot (hc c rfl)) false
  exact (formed.and safe).mono (fun _ h => ⟨h.1, h.2⟩) fun _ h => h.1

/-- A formula that was read over an accepted automaton is partitioned, separated, tabulated and
valued without failure, and so are the constraints of its traces, unless there is arithmetic on
truth values in it or in the automaton. -/
theorem encoding_total {d : Definition} (h : ofDefinition d = .ok m) (arith : m.Arithmetical)
    {s : String} {f : Formula} (read : Formula.ofText m.scope s = .ok f)
    (constraints : f.Arithmetical) (N : Nat) :
    ∃ g bv, f.guess ⟨N⟩ = .ok g ∧
      BaseValuation.tabulate g.partition ⟨N⟩ m.signal = .ok bv ∧
      ((f.separate g.guesses).top.Every (Formula.Tabulated bv fun w =>
        ((f.separate g.guesses).sub.get? w.name).isSome = true) fun w => 0 ≤ w.lower) ∧
      (∀ name φ, (f.separate g.guesses).sub.get? name = some φ →
        φ.Every (Formula.Tabulated bv fun _ => False) fun w => 0 ≤ w.lower) ∧
      (∀ w : Window, w.isPoint = true → ∃ u, (f.separate g.guesses).valuation w bv = .ok u) ∧
      (∀ T placement formula,
        ∃ ts, m.constraints N T g.partition.propositions placement formula = .ok ts) ∧
      ∀ T, ∃ q, Search.encode m m.encoder T f N = .ok q := by
  have accepted := accepted_of_ofDefinition h
  have translatable := arith.translatable h
  have regular := Formula.regular_of_ofText read
  obtain ⟨g, hg, collects⟩ := regular.guess (isReadPart_nnf regular constraints) N
  have cells (e) (he : e ∈ g.partition) (k : Int) : ∃ c,
      BaseValuation.cell m.signal e.2 k = .ok c ∧ c.Safe noPrimitive :=
    translatable.cell accepted (collects.entries e he).part k
  obtain ⟨bv, made, rows⟩ := BaseValuation.exists_tabulate fun e he k _ => by
    obtain ⟨c, hc, -⟩ := cells e he k
    exact ⟨c, hc⟩
  have safe : bv.Safe := by
    refine BaseValuation.forall_cells made fun e he k _ c hc => ?_
    obtain ⟨c', hc', safe⟩ := cells e he k
    cases hc.symm.trans hc'
    exact safe
  have tabulated := Formula.tabulated_of_listed rows collects.listed
  obtain ⟨numbered, kept, separates⟩ := Formula.skolemized_of_guess hg
    (fun _ => Formula.everyAll_iff.1) (fun _ => Formula.everyAll_iff.1) tabulated
  have top : (f.separate g.guesses).top.Every (Formula.Tabulated bv fun w =>
      ((f.separate g.guesses).sub.get? w.name).isSome = true) fun w => 0 ≤ w.lower := by
    refine (separates.tabulated numbered tabulated).mono (fun φ hφ => ?_) fun _ h => h
    cases φ with
    | witness w =>
      obtain ⟨i, -, hw⟩ := hφ
      exact hw
    | _ => exact hφ
  have valued {w : Window} (point : w.isPoint = true) :
      ∃ u, (f.separate g.guesses).valuation w bv = .ok u :=
    Formula.exists_valuation safe top kept point
  have declared : ∀ name ∈ g.partition.propositions, m.props.has name = true := by
    intro name hname
    obtain ⟨key, he⟩ := Partition.mem_propositions.1 hname
    obtain ⟨t, ht⟩ := definition_of_scope (collects.entries _ he).part.formed
    rw [Table.has, ht]
    rfl
  have traced (T placement formula) :
      ∃ ts, m.constraints N T g.partition.propositions placement formula = .ok ts := by
    obtain ⟨ts, hts, -⟩ := translatable.constraints N T declared placement formula
    exact ⟨ts, hts⟩
  refine ⟨g, bv, hg, made, top, fun name φ hφ => (kept name φ hφ).1, fun w => valued, traced,
    fun T => ?_⟩
  obtain ⟨u, hu⟩ := valued (w := Window.point 0) rfl
  obtain ⟨ts, hts⟩ := traced T g.constraints [u]
  refine ⟨⟨ts ++ g.constraints ++ [u], (f.separate g.guesses).size⟩, ?_⟩
  simp only [Search.encode, encoder, hg, Attempt.within_ok, Attempt.bind_ok, made, hu, hts,
    Attempt.pure_eq_ok]

theorem arithmetical_warmer : warmer.Arithmetical := by
  refine ⟨nofun, ⟨trivial, fun c hc => ?_⟩, trivial⟩
  cases hc
  rfl

theorem encoding_warmer :
    ofDefinition heater = .ok thermostat ∧ thermostat.Arithmetical ∧
    Formula.ofText thermostat.scope "~hot /\\ <>_[2,3] (x >= 21)" = .ok warmer ∧
    warmer.Arithmetical ∧ ∃ g bv, warmer.guess ⟨1⟩ = .ok g ∧
      BaseValuation.tabulate g.partition ⟨1⟩ thermostat.signal = .ok bv ∧
      (∃ u, (warmer.separate g.guesses).valuation (Window.point 2) bv = .ok u) ∧
      ∃ q, Search.encode thermostat thermostat.encoder (some 3) warmer 1 = .ok q := by
  have arith := wellSorted_thermostat.arithmetical
  obtain ⟨g, bv, hg, hbv, -, -, valued, -, encoded⟩ :=
    encoding_total ofDefinition_heater arith ofText_warmer arithmetical_warmer 1
  exact ⟨ofDefinition_heater, arith, ofText_warmer, arithmetical_warmer, g, bv, hg, hbv,
    valued _ rfl, encoded (some 3)⟩

/-! ## An atom that cannot be tabulated -/

def still : Definition where
  stateVars := [("x", .real)]
  modes := [{ id := 0, flow := ⟨⟨"t", .real, .bound⟩, [], [("x", .num .real 3)]⟩ }]

def stillness : Automaton where
  stateVars := [("x", .real)]
  modeVars := []
  props := []
  init := .top
  modes := [{
    id := 0
    name := "mode0"
    guard := .top
    flow := ⟨⟨"t", .real, .bound⟩, [], [("x", .num .real 3)]⟩
    invariant := .top }]
  jumps := []
  logic := ""

theorem ofDefinition_still : ofDefinition still = .ok stillness := by cbv

def deficit : Term :=
  .cmp .gt (.sub (.bool true) (.var ⟨"x", .real, .logical⟩)) (.num .real 0)

theorem ofText_deficit : Formula.ofText stillness.scope "(true - x) > 0" = .ok (.atom deficit) := by
  cbv

theorem guess_deficit : (Formula.atom deficit).guess ⟨0⟩ =
    .ok ⟨[(deficit.text, .constraint deficit)], [], []⟩ := rfl

theorem tabulate_deficit (key : String) : BaseValuation.tabulate [(key, .constraint deficit)] ⟨0⟩
    stillness.signal = .error (.fault .booleanOperand) := by
  cbv

/-- The difference is read, but it cannot be tabulated: three would be taken from a truth value. -/
theorem deficit_untabulated :
    ¬ ∀ (d : Definition) (m : Automaton), ofDefinition d = .ok m →
      (∀ md ∈ m.modes, ∀ a ∈ md.flow.terms, a.sort.numeric = true ∧ a.plain = true) →
      ∀ (s : String) (f : Formula), Formula.ofText m.scope s = .ok f → ∀ N : Nat,
        ∃ g bv, f.guess ⟨N⟩ = .ok g ∧
          BaseValuation.tabulate g.partition ⟨N⟩ m.signal = .ok bv := by
  intro h
  obtain ⟨g, bv, hg, hbv⟩ := h still stillness ofDefinition_still (by decide) _ _ ofText_deficit 0
  cases guess_deficit.symm.trans hg
  cases (tabulate_deficit _).symm.trans hbv

end Automaton

end HybridCheck
