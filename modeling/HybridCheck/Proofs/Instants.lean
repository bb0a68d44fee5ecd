import HybridCheck.Proofs.Keeping
import HybridCheck.Proofs.Skolemization

/-!
# Values and the instants in them

The value of a formula is folded from its windows, from the cells of its atoms and from the values
of its parts, and a temporal operator binds the instant that its part was valued at. So a statement
on terms is true of a value if operators inherit it, quantifiers keep it, and it is true of the ends
of the steps, of the cells at every instant and of the values of witnesses. The statement may depend
on the instants that are in scope and on the numbers that the instants bound in a term may have.
-/

namespace HybridCheck

open Term

theorem Symbol.eq_of_witness_name {i j : Int} (h : (witness i).name = (witness j).name) :
    witness i = witness j :=
  congrArg (fun name => (⟨name, .real, .timestamp⟩ : Var)) h

/-! ## Points in time -/

namespace Term

section

variable {H : Term → Prop} (hH : Hereditary H) {b : Timeline} {t u a : Term}
include hH

theorem Hereditary.contains {w : Window} (ht : H t) (hu : H u) (h : w.contains t u = .ok a) :
    H a := by
  have shifted {q : Rat} {s : Term} (hs : Term.mkAdd [t, .real q] = .ok s) : H s :=
    hH.mkAdd (by simpa using ⟨ht, hH.num .real q⟩) hs
  have compared (r : Bool) (strict loose : Relation) {s : Term} (hs : H s) :
      H (if r then Term.mkCmp strict u s else Term.mkCmp loose u s) := by
    split
    · exact hH.mkCmp _ hu hs
    · exact hH.mkCmp _ hu hs
  obtain ⟨lo, hlo, h⟩ := Attempt.bind_eq_ok.1 h
  have above := compared w.leftOpen .gt .ge (shifted hlo)
  cases hhi : w.hi with
  | none =>
    rw [hhi] at h
    cases h
    exact above
  | some q =>
    rw [hhi] at h
    obtain ⟨hi, hhi, h⟩ := Attempt.bind_eq_ok.1 h
    cases h
    exact hH.mkAnd (by simpa using ⟨above, compared w.rightOpen .lt .le (shifted hhi)⟩)

theorem Hereditary.between {v : Term} (ht : H t) (hv : H v) (hu : H u) :
    H (Formula.between t v u) :=
  hH.mkAnd (by simpa using ⟨hH.mkCmp .ge hv ht, hH.mkCmp .lt hv hu⟩)

theorem Hereditary.domain (stop : H (Timeline.stop b.horizon)) (ht : H t) : H (b.domain t) :=
  hH.mkAnd (by simpa using ⟨hH.mkCmp .ge ht (hH.num .real 0), hH.mkCmp .le ht stop⟩)

theorem Hereditary.windowAt {w : Window} (stop : H (Timeline.stop b.horizon)) (ht : H t)
    (hu : H u) (h : Formula.windowAt b w t u = .ok a) : H a := by
  obtain ⟨inside, hinside, h⟩ := Attempt.bind_eq_ok.1 h
  cases h
  exact hH.mkAnd (by simpa using ⟨hH.contains ht hu hinside, hH.mkCmp .le hu stop⟩)

theorem Hereditary.within {k : Int} (start : H (Timeline.start k)) (stop : H (Timeline.stop k))
    (ht : H t) : H (b.within k t) := by
  have above := hH.mkCmp .ge ht start
  unfold Timeline.within
  split
  · exact hH.mkAnd (by simpa using ⟨above, hH.mkCmp .le ht stop⟩)
  · exact hH.mkAnd (by simpa using ⟨above, hH.mkCmp .lt ht stop⟩)

theorem Hereditary.start {k : Int} (stops : ∀ k, 0 ≤ k → k ≤ b.horizon → H (Timeline.stop k))
    (h0 : 0 ≤ k) (hk : k < b.segments) : H (Timeline.start k) := by
  unfold Timeline.start
  split
  · exact hH.num _ _
  · refine stops (k - 1) (by omega) ?_
    unfold Timeline.segments at hk
    omega

end

end Term

/-! ## Statements on values -/

namespace Formula

open Valuing

/-- A statement `H is n m` on terms for the instants `is` in scope, when the instants bound in a
term have numbers from `n` up to `m`. Operators inherit it, and a quantifier over the first of the
numbers takes that instant out of scope. -/
structure Scoping (H : List Nat → Nat → Nat → Term → Prop) : Prop where
  hereditary (is : List Nat) (n m : Nat) : Hereditary (H is n m)
  instant {is : List Nat} {i : Nat} : i ∈ is → H is 0 0 (var (Symbol.instant i))
  enter {is : List Nat} {n m : Nat} {t : Term} (i : Nat) : H is n m t → H (i :: is) n m t
  /-- If no instant is bound, all numbers are free. -/
  still {is : List Nat} {n m : Nat} {t : Term} : H is 0 0 t → H is n m t
  widen {is : List Nat} {n n' m m' : Nat} {t : Term} : n' ≤ n → m ≤ m' → H is n m t → H is n' m' t
  quantify {is : List Nat} {n m : Nat} {t : Term} (q : Quantifier) : n < m →
    H (n :: is) (n + 1) m t → H is n m (mkQuant q (Symbol.instant n) t)

variable {H : List Nat → Nat → Nat → Term → Prop} {is : List Nat} {n m : Nat} {t u : Term}

/-- The statement is true of the ends of the steps. -/
structure Stops (H : List Nat → Nat → Nat → Term → Prop) (b : Timeline) : Prop where
  horizon : 0 ≤ b.horizon
  stop (is : List Nat) : ∀ k, 0 ≤ k → k ≤ b.horizon → H is 0 0 (Timeline.stop k)

/-- A table has a row for every step at most, and the statement is true of its cells at every time
of which it is true. -/
def Fills (H : List Nat → Nat → Nat → Term → Prop) (bv : BaseValuation) : Prop :=
  ∀ key row, bv.rows.get? key = some row → row.length ≤ bv.timeline.segments ∧
    ∀ c ∈ row, ∀ is d u, H is 0 0 d → c.replace Symbol.offset d = .ok u → H is 0 0 u

/-- A valuation numbers instants upwards, and the statement is true of its values at every time of
which it is true. -/
def Scopes (H : List Nat → Nat → Nat → Term → Prop) (x : Term → Valuing Term) : Prop :=
  ∀ is t n u m, H is 0 0 t → x t n = .ok (u, m) → n ≤ m ∧ H is n m u

section

variable (scoping : Scoping H) {bv : BaseValuation} (stops : Stops H bv.timeline)
include scoping stops

theorem Scoping.windowAt {w : Window} (ht : H is 0 0 t) (hu : H is 0 0 u) {a : Term}
    (h : Formula.windowAt bv.timeline w t u = .ok a) : H is 0 0 a :=
  (scoping.hereditary is 0 0).windowAt (stops.stop is _ stops.horizon le_rfl) ht hu h

theorem Scoping.alternatives (ht : H is 0 0 t) {cs us : List Term} {k : Int} (h0 : 0 ≤ k)
    (fits : k + cs.length ≤ bv.timeline.segments)
    (cells : ∀ c ∈ cs, ∀ d u, H is 0 0 d → c.replace Symbol.offset d = .ok u → H is 0 0 u)
    (h : BaseValuation.alternatives bv.timeline t k cs = .ok us) : ∀ u ∈ us, H is 0 0 u := by
  have hH := scoping.hereditary is 0 0
  induction cs generalizing k us with
  | nil =>
    cases h
    simp
  | cons c cs ih =>
    obtain ⟨first, hfirst, h⟩ := Attempt.bind_eq_ok.1 h
    obtain ⟨later, hlater, h⟩ := Attempt.bind_eq_ok.1 h
    cases h
    obtain ⟨d, hd, hfirst⟩ := Attempt.bind_eq_ok.1 hfirst
    obtain ⟨value, hvalue, hfirst⟩ := Attempt.bind_eq_ok.1 hfirst
    cases hfirst
    rw [List.length_cons, Nat.cast_add, Nat.cast_one] at fits
    have hk : k < bv.timeline.segments := by omega
    have begins := hH.start (stops.stop is) h0 hk
    have inside : H is 0 0 (bv.timeline.within k t) :=
      hH.within begins (stops.stop is k h0 (Int.lt_add_one_iff.1 hk)) ht
    have value := cells c (by simp) d value (hH.mkSub ht begins hd) hvalue
    refine List.forall_mem_cons.2 ⟨hH.mkAnd (by simpa using ⟨inside, value⟩), ?_⟩
    exact ih (by omega) (by omega) (fun c hc => cells c (by simp [hc])) hlater

theorem Scoping.valueAt (fills : Fills H bv) {key : String} (ht : H is 0 0 t)
    (h : bv.valueAt key t = .ok u) : H is 0 0 u := by
  unfold BaseValuation.valueAt at h
  split at h
  · cases h
  · next row hrow =>
    obtain ⟨us, hus, h⟩ := Attempt.bind_eq_ok.1 h
    cases h
    obtain ⟨fits, cells⟩ := fills key row hrow
    exact (scoping.hereditary is 0 0).mkOr
      (scoping.alternatives stops ht le_rfl (by simpa using fits) (fun c hc => cells c hc is) hus)

omit stops in
/-- The body of an until: the right side at `u`, and the left side from `t` on until then. -/
theorem Scoping.heldUntil {win left right : Term} {k : Nat} (ht : H is 0 0 t) (hu : H is 0 0 u)
    (hwin : H is n k win) (hnm : n ≤ m) (hright : H is n m right) (hmk : m < k)
    (hleft : H (m :: is) (m + 1) k left) :
    H is n k (mkAnd [win, right, mkAll (Symbol.instant m)
      (mkImplies (Formula.between t (var (Symbol.instant m)) u) left)]) := by
  have before : H (m :: is) 0 0 (Formula.between t (var (Symbol.instant m)) u) :=
    (scoping.hereditary _ 0 0).between (scoping.enter m ht) (scoping.instant List.mem_cons_self)
      (scoping.enter m hu)
  have held := scoping.quantify .all hmk
    ((scoping.hereditary _ _ _).mkImplies (scoping.still before) hleft)
  exact (scoping.hereditary is n k).mkAnd (by
    simpa using ⟨hwin, scoping.widen le_rfl hmk.le hright, scoping.widen hnm le_rfl held⟩)

omit stops in
/-- The body of a release: the right side at `u`, or the left side from `t` on before that. -/
theorem Scoping.heldBefore {right left : Term} {k : Nat} (ht : H is 0 0 t) (hu : H is 0 0 u)
    (hnm : n ≤ m) (hright : H is n m right) (hmk : m < k)
    (hleft : H (m :: is) (m + 1) k left) :
    H is n k (mkOr [right, mkAny (Symbol.instant m)
      (mkAnd [Formula.between t (var (Symbol.instant m)) u, left])]) := by
  have before : H (m :: is) 0 0 (Formula.between t (var (Symbol.instant m)) u) :=
    (scoping.hereditary _ 0 0).between (scoping.enter m ht) (scoping.instant List.mem_cons_self)
      (scoping.enter m hu)
  have met : H is m k (mkAny (Symbol.instant m)
      (mkAnd [Formula.between t (var (Symbol.instant m)) u, left])) :=
    scoping.quantify .any hmk
      ((scoping.hereditary _ _ _).mkAnd (by simpa using ⟨scoping.still before, hleft⟩))
  exact (scoping.hereditary is n k).mkOr (by
    simpa using ⟨scoping.widen le_rfl hmk.le hright, scoping.widen hnm le_rfl met⟩)

variable {ow : OnWitness} {windows : Window → Prop}

omit stops in
theorem Scoping.all {fs : List Formula} (ih : ∀ f ∈ fs, Scopes H (value bv ow f))
    (ht : H is 0 0 t) {us : List Term} (h : valueAll bv ow fs t n = .ok (us, m)) :
    n ≤ m ∧ ∀ u ∈ us, H is n m u := by
  induction fs generalizing n us with
  | nil =>
    cases h
    simp
  | cons f fs ih' =>
    rw [valueAll] at h
    obtain ⟨u, k, hu, h⟩ := bind_eq_ok.1 h
    obtain ⟨us, l, hus, h⟩ := bind_eq_ok.1 h
    cases h
    obtain ⟨hnk, first⟩ := ih f (by simp) is t n u k ht hu
    obtain ⟨hkm, later⟩ := ih' (fun f hf => ih f (by simp [hf])) hus
    exact ⟨hnk.trans hkm, List.forall_mem_cons.2
      ⟨scoping.widen le_rfl hkm first, fun u hu => scoping.widen hnk le_rfl (later u hu)⟩⟩

/-- The statement is true of the values of a formula. -/
theorem Scoping.value (fills : Fills H bv) {W : Var → Prop} (hw : ∀ w, W w → Scopes H (ow w))
    {f : Formula} (hf : f.Every (Tabulated bv W) windows) : Scopes H (Formula.value bv ow f) := by
  have opened (is : List Nat) (n : Nat) : H (n :: is) 0 0 (var (Symbol.instant n)) :=
    scoping.instant List.mem_cons_self
  induction f using induct with
  | bool b =>
    intro is t n u m _ h
    cases h
    exact ⟨le_rfl, (scoping.hereditary _ _ _).bool b⟩
  | prop name | atom c =>
    intro is t n u m ht h
    rw [Formula.value] at h
    obtain ⟨hcell, rfl⟩ := lift_eq_ok.1 h
    exact ⟨le_rfl, scoping.still (scoping.valueAt stops fills ht hcell)⟩
  | witness w => exact hw w hf
  | missing => exact hf.elim
  | not f ih =>
    intro is t n u m ht h
    rw [Formula.value] at h
    obtain ⟨a, k, ha, h⟩ := bind_eq_ok.1 h
    cases h
    exact (ih hf is t n a _ ht ha).imp_right (scoping.hereditary _ _ _).mkNot
  | and fs ih =>
    intro is t n u m ht h
    rw [Formula.value] at h
    obtain ⟨us, k, hus, h⟩ := bind_eq_ok.1 h
    cases h
    exact (scoping.all (fun f hm => ih f hm (everyAll_iff.1 hf f hm)) ht hus).imp_right
      (scoping.hereditary _ _ _).mkAnd
  | or fs ih =>
    intro is t n u m ht h
    rw [Formula.value] at h
    obtain ⟨us, k, hus, h⟩ := bind_eq_ok.1 h
    cases h
    exact (scoping.all (fun f hm => ih f hm (everyAll_iff.1 hf f hm)) ht hus).imp_right
      (scoping.hereditary _ _ _).mkOr
  | implies l r ihl ihr =>
    intro is t n u m ht h
    rw [Formula.value] at h
    obtain ⟨a, k, ha, h⟩ := bind_eq_ok.1 h
    obtain ⟨b, j, hb, h⟩ := bind_eq_ok.1 h
    cases h
    obtain ⟨hnk, left⟩ := ihl hf.1 _ _ _ _ _ ht ha
    obtain ⟨hkm, right⟩ := ihr hf.2 _ _ _ _ _ ht hb
    have left := (scoping.hereditary _ _ _).mkNot (scoping.widen le_rfl hkm left)
    exact ⟨hnk.trans hkm, (scoping.hereditary _ _ _).mkOr (by
      simpa using ⟨left, scoping.widen hnk le_rfl right⟩)⟩
  | eventually w f ih =>
    intro is t n u m ht h
    obtain ⟨body, win, hbody, hwin, rfl⟩ := value_eventually_eq_ok.1 h
    obtain ⟨hnm, body⟩ := ih hf.2 _ _ _ _ _ (opened is n) hbody
    have inside := scoping.windowAt stops (scoping.enter n ht) (opened is n) hwin
    exact ⟨by omega, scoping.quantify .any hnm
      ((scoping.hereditary _ _ _).mkAnd (by simpa using ⟨scoping.still inside, body⟩))⟩
  | always w f ih =>
    intro is t n u m ht h
    obtain ⟨body, win, hbody, hwin, rfl⟩ := value_always_eq_ok.1 h
    obtain ⟨hnm, body⟩ := ih hf.2 _ _ _ _ _ (opened is n) hbody
    have inside := scoping.windowAt stops (scoping.enter n ht) (opened is n) hwin
    exact ⟨by omega, scoping.quantify .all hnm
      ((scoping.hereditary _ _ _).mkImplies (scoping.still inside) body)⟩
  | untl w l r ihl ihr =>
    intro is t n u m ht h
    obtain ⟨right, k, left, win, hright, hleft, hwin, rfl⟩ := value_untl_eq_ok.1 h
    obtain ⟨hnk, right⟩ := ihr hf.2.2 _ _ _ _ _ (opened is n) hright
    obtain ⟨hkm, left⟩ := ihl hf.2.1 _ _ _ _ _ (opened (n :: is) k) hleft
    have inside := scoping.windowAt stops (scoping.enter n ht) (opened is n) hwin
    exact ⟨by omega, scoping.quantify .any (by omega) (scoping.heldUntil (scoping.enter n ht)
      (opened is n) (scoping.still inside) hnk right hkm left)⟩
  | release w l r ihl ihr =>
    intro is t n u m ht h
    obtain ⟨right, k, left, win, hright, hleft, hwin, rfl⟩ := value_release_eq_ok.1 h
    obtain ⟨hnk, right⟩ := ihr hf.2.2 _ _ _ _ _ (opened is n) hright
    obtain ⟨hkm, left⟩ := ihl hf.2.1 _ _ _ _ _ (opened (n :: is) k) hleft
    have inside := scoping.windowAt stops (scoping.enter n ht) (opened is n) hwin
    exact ⟨by omega, scoping.quantify .all (by omega) ((scoping.hereditary _ _ _).mkImplies
      (scoping.still inside) (scoping.heldBefore (scoping.enter n ht) (opened is n) hnk right hkm
        left))⟩

/-- The statement is true of the values of a witness. -/
theorem Scoping.witness (fills : Fills H bv) {sub : Table Formula} {w : Var}
    (hw : ∀ is, H is 0 0 (var w))
    (tabulated : ∀ name f, sub.get? name = some f →
      f.Every (Tabulated bv fun _ => False) windows) (depth : Nat) :
    Scopes H (witnessValue bv sub depth w) := by
  have inner {f : Formula} {depth : Nat} (hf : f.Every (Tabulated bv fun _ => False) windows) :
      Scopes H (Formula.value bv (witnessValue bv sub depth) f) :=
    scoping.value stops fills (fun _ h => h.elim) hf
  intro is t n u m ht h
  cases depth with
  | zero => cases h
  | succ depth =>
    cases hf : sub.get? w.name with
    | none =>
      simp only [witnessValue, hf] at h
      cases h
    | some f =>
      have hin := tabulated _ f hf
      cases f with
      | eventually v f =>
        obtain ⟨body, win, hbody, hwin, rfl⟩ := (witnessValue_eventually_eq_ok hf).1 h
        obtain ⟨hnm, body⟩ := inner hin.2 _ _ _ _ _ (hw is) hbody
        have inside := scoping.windowAt stops ht (hw is) hwin
        exact ⟨hnm, (scoping.hereditary _ _ _).mkAnd (by simpa using ⟨scoping.still inside, body⟩)⟩
      | untl v l r =>
        obtain ⟨right, k, left, win, hright, hleft, hwin, rfl⟩ := (witnessValue_untl_eq_ok hf).1 h
        obtain ⟨hnk, right⟩ := inner hin.2.2 _ _ _ _ _ (hw is) hright
        obtain ⟨hkm, left⟩ := inner hin.2.1 _ _ _ _ _ (scoping.instant List.mem_cons_self) hleft
        have inside := scoping.windowAt stops ht (hw is) hwin
        exact ⟨by omega, scoping.heldUntil ht (hw is) (scoping.still inside) hnk right hkm left⟩
      | _ =>
        simp only [witnessValue, hf] at h
        cases h

/-- The statement is true of the value of a separated formula at a point in time, when nothing is in
scope. -/
theorem Scoping.valuation (fills : Fills H bv) {s : Separated} {w : Window} {W : Var → Prop}
    (hw : ∀ w, W w → ∀ is, H is 0 0 (var w)) (top : s.top.Every (Tabulated bv W) windows)
    (tabulated : ∀ name f, s.sub.get? name = some f →
      f.Every (Tabulated bv fun _ => False) windows) (point : w.isPoint = true)
    (h : s.valuation w bv = .ok u) : ∃ m, H [] 0 m u := by
  rw [Separated.valuation, if_pos point] at h
  obtain ⟨⟨u, m⟩, hu, h⟩ := Attempt.bind_eq_ok.1 h
  cases h
  have values : Scopes H (Formula.value bv (witnessValue bv s.sub s.sub.length) s.top) :=
    scoping.value stops fills
      (fun w known => scoping.witness stops fills (hw w known) tabulated _) top
  exact ⟨m, (values _ _ _ _ _ ((scoping.hereditary _ _ _).num .real _) hu).2⟩

end

/-! ## The stages of a valuation -/

/-- A table is filled if the cells of the signal can be read at every time. -/
theorem fills_of_tabulate {p : Partition} {N : Nat} {sig : Signal} {bv : BaseValuation}
    (made : BaseValuation.tabulate p ⟨N⟩ sig = .ok bv)
    (cells : ∀ e ∈ p, ∀ k ∈ steps (N + 1), ∀ c, BaseValuation.cell sig e.2 k = .ok c →
      ∀ is d u, H is 0 0 d → c.replace Symbol.offset d = .ok u → H is 0 0 u) : Fills H bv := by
  intro key row hrow
  obtain ⟨timeline, rows⟩ := BaseValuation.rows_of_tabulate made
  obtain ⟨a, -, hcells⟩ := rows key row hrow
  refine ⟨?_, BaseValuation.forall_cells made cells key row hrow⟩
  rw [(Attempt.mapM_eq_ok.1 (BaseValuation.row_eq_ok.1 hcells)).length_eq.symm,
    BaseValuation.length_steps, timeline]
  simp [Timeline.segments]

section

variable {N : Nat} {f : Formula} {g : Guessed} (guessed : f.guess ⟨N⟩ = .ok g)
include guessed

theorem Regular.collects_of_guess {P : Var → Prop} {R : String → Prop} (regular : f.Regular P R)
    {leaf : Formula → Prop} (parts : f.nnf.Every leaf fun w => 0 ≤ w.lower) :
    Collects leaf [] f.nnf g.partition := by
  obtain ⟨g', again, collects⟩ := regular.guess parts N
  cases guessed.symm.trans again
  exact collects

/-- A witness with a subformula was guessed. -/
theorem guesses_of_separate {i : Nat}
    (h : ((f.separate g.guesses).sub.get? (Symbol.witness i).name).isSome = true) :
    ∃ key, g.guesses.get? key = some (Symbol.witness i) := by
  obtain ⟨numbered, kept, -⟩ := skolemized_of_guess (Q := fun _ => True) guessed
    (fun _ _ _ _ => trivial) (fun _ _ _ _ => trivial) trivial
  obtain ⟨φ, hφ⟩ := Option.isSome_iff_exists.1 h
  obtain ⟨-, -, w, hw, hname⟩ := kept _ _ hφ
  obtain ⟨j, -, rfl⟩ := numbered.witness _ _ hw
  exact ⟨_, Symbol.eq_of_witness_name hname ▸ hw⟩

/-- The statement is true of the value of a formula whose witnesses were guessed, if it is true of
those with a subformula. -/
theorem Scoping.valuation_of_guess (scoping : Scoping H) (stops : Stops H ⟨N⟩) {sig : Signal}
    {bv : BaseValuation} (made : BaseValuation.tabulate g.partition ⟨N⟩ sig = .ok bv)
    (listed : f.nnf.Every (Listed g.partition) fun w => 0 ≤ w.lower) (fills : Fills H bv)
    (witnesses : ∀ i : Nat,
      ((f.separate g.guesses).sub.get? (Symbol.witness i).name).isSome = true →
        ∀ is, H is 0 0 (var (Symbol.witness i)))
    {w : Window} (point : w.isPoint = true)
    (valued : (f.separate g.guesses).valuation w bv = .ok u) : ∃ m, H [] 0 m u := by
  -- every atom has a row, and the subformulas that were kept aside have no witnesses in them
  have tabulated := tabulated_of_listed (fun _ => BaseValuation.isSome_of_tabulate made) listed
  obtain ⟨numbered, kept, separates⟩ := skolemized_of_guess guessed
    (fun _ => everyAll_iff.1) (fun _ => everyAll_iff.1) tabulated
  rw [← (BaseValuation.rows_of_tabulate made).1] at stops
  refine scoping.valuation stops fills ?_ (separates.tabulated numbered tabulated)
    (fun name φ hφ => (kept name φ hφ).1) point valued
  rintro w ⟨i, rfl, hsub⟩
  exact witnesses i hsub

end

end Formula

end HybridCheck
