import HybridCheck.Formula.Valuation
import HybridCheck.Proofs.Names
import HybridCheck.Proofs.Substitution
import HybridCheck.Proofs.Temporal
import HybridCheck.Proofs.Timeline

/-!
# Valuation computes truth

The value of a formula at an instant holds in an environment exactly if the formula holds there on
the trace that the environment makes of the table of atoms: the value of an atom at an instant is
its cell of the segment that contains the instant, read at the time since the segment began.

Quantified instants are numbered upwards, so the term for the current instant mentions none of the
instants that are still to come. An environment may be changed at the instants without changing what
the table says.
-/

namespace HybridCheck

/-- A cell of a table of atoms: a constraint without quantifiers that mentions no quantified
instant. -/
structure IsCell (c : Term) : Prop where
  constraint : c.Constraint Term.noFlow
  quantFree : c.quantFree = true
  fresh : ∀ n, c.mentions (Symbol.instant n) = false

/-- Two environments differ at quantified instants only. -/
structure Near (ρ ρ' : Env) : Prop where
  typed : ρ'.Typed
  now : ∀ v, (∀ n : Nat, v ≠ Symbol.instant n) → ρ'.now v = ρ.now v
  next : ρ'.next = ρ.next

theorem Near.refl {ρ : Env} (h : ρ.Typed) : Near ρ ρ := ⟨h, fun _ _ => rfl, rfl⟩

theorem Near.set {ρ ρ' : Env} (h : Near ρ ρ') (n : Nat) (x : ℝ) :
    Near ρ (ρ'.set (Symbol.instant n) (.number x)) := by
  refine ⟨h.typed.set ⟨x, rfl⟩, fun v hv => ?_, h.next⟩
  rw [Env.set_now_of_ne _ _ (hv n)]
  exact h.now v hv

/-- The term of a current instant when `n` instants were quantified over. -/
structure Current (n : Nat) (t : Term) : Prop where
  amount : t.Amount Term.noFlow
  later : ∀ m : Nat, n ≤ m → t.mentions (Symbol.instant m) = false

theorem Current.mono {m n : Nat} {t : Term} (h : Current m t) (hmn : m ≤ n) : Current n t :=
  ⟨h.amount, fun k hk => h.later k (hmn.trans hk)⟩

theorem Current.instant (n : Nat) : Current (n + 1) (.var (Symbol.instant n)) := by
  refine ⟨Term.amount_var rfl, fun m hm => Term.mentions_var_of_ne ?_⟩
  rw [Ne, Symbol.instant_inj]
  omega

theorem Current.amount_set {n : Nat} {t : Term} (h : Current n t) (ρ : Env) (x : Value) :
    t.amount (ρ.set (Symbol.instant n) x) = t.amount ρ := by
  rw [Term.amount, Term.eval_set (Term.flowFree_of_plain h.amount.sorted) (h.later n le_rfl)]

structure BaseValuation.Describes (bv : BaseValuation) (N : Nat) (ρ : Env) (σ : Trace) : Prop where
  timeline : bv.timeline = ⟨N⟩
  length : σ.length = (Timeline.stop N).amount ρ
  covered : ∀ u, 0 ≤ u → u ≤ σ.length → ∃ k ≤ N, Timeline.Contains ρ N k u
  rows : ∀ key row, bv.rows.get? key = some row → row.length = N + 1 ∧ ∀ c ∈ row, IsCell c
  prop : ∀ name row, bv.rows.get? name = some row → ∀ k c, row[k]? = some c →
    ∀ u, Timeline.Contains ρ N k u → (σ.prop name u ↔
      c.Holds (ρ.set Symbol.offset (.number (u - (Timeline.start k).amount ρ))))
  atom : ∀ a row, bv.rows.get? a.text = some row → ∀ k c, row[k]? = some c →
    ∀ u, Timeline.Contains ρ N k u → (σ.atom a u ↔
      c.Holds (ρ.set Symbol.offset (.number (u - (Timeline.start k).amount ρ))))

/-- A term says that a formula holds at the instant another term stands for. -/
structure Formula.Values (ρ : Env) (σ : Trace) (f : Formula) (t u : Term) : Prop where
  constraint : u.Constraint Term.noFlow
  holds : ∀ ρ', Near ρ ρ' → 0 ≤ t.amount ρ' → t.amount ρ' ≤ σ.length →
    (u.Holds ρ' ↔ f.Holds σ (t.amount ρ'))

/-! ## Atoms -/

section Atoms

open Term

variable {N n : Nat} {ρ ρ' : Env} {t : Term}

theorem Near.amount_stop (h : Near ρ ρ') (k : Int) :
    (Timeline.stop k).amount ρ' = (Timeline.stop k).amount ρ := by
  have hv (n : Nat) : Symbol.tau k ≠ Symbol.instant n := by
    intro h
    cases congrArg Var.role h
  simp only [Timeline.stop, amount, eval, h.now _ hv]

theorem Near.amount_start (h : Near ρ ρ') (k : Int) :
    (Timeline.start k).amount ρ' = (Timeline.start k).amount ρ := by
  unfold Timeline.start
  split
  · rfl
  · exact h.amount_stop (k - 1)

theorem constraint_within (ht : t.Amount noFlow) (k : Int) :
    (Timeline.within ⟨N⟩ k t).Constraint noFlow := by
  have hs : (Timeline.start k).Amount noFlow := Timeline.amount_start k
  have above := ht.cmp hs .ge
  unfold Timeline.within
  split
  · refine constraint_mkAnd ?_
    simpa using ⟨above, ht.cmp (Timeline.amount_stop k) .le⟩
  · refine constraint_mkAnd ?_
    simpa using ⟨above, ht.cmp (Timeline.amount_stop k) .lt⟩

theorem holds_within (ht : t.Amount noFlow) (h : Near ρ ρ') (k : Nat) :
    (Timeline.within ⟨N⟩ k t).Holds ρ' ↔ Timeline.Contains ρ N k (t.amount ρ') := by
  have hs : (Timeline.start k).Amount noFlow := Timeline.amount_start k
  have he : (Timeline.stop k).Amount noFlow := Timeline.amount_stop k
  unfold Timeline.within Timeline.Contains
  by_cases hk : k = N
  · rw [if_pos (by rw [hk]), if_pos hk, holds_mkAnd]
    simp [holds_mkGe ht hs h.typed, holds_mkLe ht he h.typed, h.amount_start, h.amount_stop]
  · rw [if_neg fun e : (k : Int) = N => hk (by exact_mod_cast e), if_neg hk, holds_mkAnd]
    simp [holds_mkGe ht hs h.typed, holds_mkLt ht he h.typed, h.amount_start, h.amount_stop]

/-- The value of a cell at a time since the segment began does not depend on quantified instants. -/
theorem IsCell.holds_near {c : Term} (hc : IsCell c) (h : Near ρ ρ') (x : Value) :
    c.Holds (ρ'.set Symbol.offset x) ↔ c.Holds (ρ.set Symbol.offset x) := by
  have hf := flowFree_of_plain hc.constraint.sorted
  have agree : Agree (ρ'.set Symbol.offset x) (ρ.set Symbol.offset x) c := by
    refine ⟨fun v hv => ?_, fun v _ => congrFun h.next v⟩
    by_cases ho : v = Symbol.offset
    · subst ho
      simp
    · rw [Env.set_now_of_ne _ _ ho, Env.set_now_of_ne _ _ ho]
      refine h.now v fun n hn => ?_
      rw [hn, hc.fresh] at hv
      cases hv
  rw [Holds, eval_congr hf agree]

theorem alternative_spec {c : Term} (hc : IsCell c) (ht : t.Amount noFlow) (k : Nat) :
    ∃ u, BaseValuation.alternative ⟨N⟩ t k c = .ok u ∧ u.Constraint noFlow ∧
      ∀ ρ ρ', Near ρ ρ' → (u.Holds ρ' ↔ Timeline.Contains ρ N k (t.amount ρ') ∧
        c.Holds (ρ.set Symbol.offset (.number (t.amount ρ' - (Timeline.start k).amount ρ)))) := by
  have hstart : (Timeline.start k).Amount noFlow := Timeline.amount_start k
  obtain ⟨d, hd, amount, -, value⟩ := ht.sub hstart
  have hf := flowFree_of_plain hc.constraint.sorted
  have built : Over (fun _ => True) (fun _ => True) (fun _ => False) c :=
    over_of_quantFree hf hc.quantFree (fun _ _ => trivial) fun _ _ => trivial
  obtain ⟨u, hu, becomes, -⟩ := replace_over (c := Symbol.offset) (fun _ h => h.elim) amount.sorted
    (TermSort.alike_of_numeric amount.numeric rfl) built hc.constraint.sorted
  have hcu : u.Constraint noFlow := by
    refine ⟨becomes.sorted, ?_⟩
    have := becomes.alike
    rw [hc.constraint.sort] at this
    exact TermSort.alike_bool.1 this
  have both : ∀ a ∈ [Timeline.within ⟨N⟩ k t, u], a.Constraint noFlow := by
    simpa using ⟨constraint_within ht k, hcu⟩
  refine ⟨mkAnd [Timeline.within ⟨N⟩ k t, u], ?_, constraint_mkAnd both, fun ρ ρ' h => ?_⟩
  · simp [BaseValuation.alternative, hd, hu]
  · have inner : u.Holds ρ' ↔
        c.Holds (ρ.set Symbol.offset (.number (t.amount ρ' - (Timeline.start k).amount ρ))) := by
      rw [Holds, becomes.eval ρ' h.typed, eval_eq_number amount.sorted amount.numeric h.typed,
        ← Holds, hc.holds_near h, ← Term.amount, value ρ' h.typed, h.amount_start]
    rw [holds_mkAnd]
    simp [holds_within ht h, inner]

theorem alternatives_spec {cs : List Term} (hc : ∀ c ∈ cs, IsCell c) (ht : t.Amount noFlow)
    (k : Nat) :
    ∃ us, BaseValuation.alternatives ⟨N⟩ t k cs = .ok us ∧ (∀ u ∈ us, u.Constraint noFlow) ∧
      ∀ ρ ρ', Near ρ ρ' → ((∃ u ∈ us, u.Holds ρ') ↔ ∃ i c, cs[i]? = some c ∧
        Timeline.Contains ρ N (k + i) (t.amount ρ') ∧ c.Holds (ρ.set Symbol.offset
          (.number (t.amount ρ' - (Timeline.start ((k + i : Nat) : Int)).amount ρ)))) := by
  induction cs generalizing k with
  | nil => exact ⟨[], rfl, by simp, by simp⟩
  | cons c cs ih =>
    obtain ⟨u, hu, constraint, holds⟩ := alternative_spec (N := N) (hc c (by simp)) ht k
    obtain ⟨us, hus, constraints, hold⟩ := ih (fun c h => hc c (by simp [h])) (k + 1)
    refine ⟨u :: us, ?_, by simpa using ⟨constraint, constraints⟩, fun ρ ρ' h => ?_⟩
    · have hk : ((k : Int) + 1) = ((k + 1 : Nat) : Int) := by push_cast; rfl
      rw [BaseValuation.alternatives, hu, hk, hus]
      rfl
    · rw [List.exists_mem_cons_iff, holds ρ ρ' h, hold ρ ρ' h]
      constructor
      · rintro (⟨h1, h2⟩ | ⟨i, c', hi, h1, h2⟩)
        · exact ⟨0, c, rfl, h1, h2⟩
        · refine ⟨i + 1, c', hi, ?_⟩
          rw [show k + (i + 1) = k + 1 + i by omega]
          exact ⟨h1, h2⟩
      · rintro ⟨_ | i, c', hi, h1, h2⟩
        · cases hi
          exact Or.inl ⟨h1, h2⟩
        · refine Or.inr ⟨i, c', hi, ?_⟩
          rw [show k + (i + 1) = k + 1 + i by omega] at h1 h2
          exact ⟨h1, h2⟩

/-- The value of an atom at an instant of the trace is that of its cell. -/
theorem valueAt_spec {bv : BaseValuation} {σ : Trace} (hbv : bv.Describes N ρ σ) {key : String}
    {row : List Term} (hrow : bv.rows.get? key = some row) {P : ℝ → Prop}
    (hP : ∀ k c, row[k]? = some c → ∀ u, Timeline.Contains ρ N k u →
      (P u ↔ c.Holds (ρ.set Symbol.offset (.number (u - (Timeline.start k).amount ρ)))))
    (ht : t.Amount noFlow) :
    ∃ u, bv.valueAt key t = .ok u ∧ u.Constraint noFlow ∧ ∀ ρ', Near ρ ρ' → 0 ≤ t.amount ρ' →
      t.amount ρ' ≤ σ.length → (u.Holds ρ' ↔ P (t.amount ρ')) := by
  obtain ⟨hlen, hcells⟩ := hbv.rows key row hrow
  obtain ⟨us, hus, constraint, holds⟩ := alternatives_spec (N := N) hcells ht 0
  refine ⟨mkOr us, ?_, constraint_mkOr constraint, fun ρ' h h0 hle => ?_⟩
  · rw [BaseValuation.valueAt, hrow]
    simp only [hbv.timeline]
    have : BaseValuation.alternatives ⟨N⟩ t 0 row = .ok us := hus
    rw [this]
    rfl
  · rw [holds_mkOr constraint h.typed, holds ρ ρ' h]
    simp only [Nat.zero_add]
    constructor
    · rintro ⟨k, c, hc, hk, hv⟩
      exact (hP k c hc _ hk).2 hv
    · intro hv
      obtain ⟨k, hkN, hk⟩ := hbv.covered _ h0 hle
      have hlt : k < row.length := by omega
      have hc : row[k]? = some row[k] := List.getElem?_eq_getElem hlt
      exact ⟨k, _, hc, hk, (hP k _ hc _ hk).1 hv⟩

/-! ## Windows -/

theorem contains_spec (w : Window) {u : Term} (ht : t.Amount noFlow) (hu : u.Amount noFlow) :
    ∃ a, w.contains t u = .ok a ∧ a.Constraint noFlow ∧ ∀ ρ : Env, ρ.Typed →
      (a.Holds ρ ↔ w.Covers (t.amount ρ) (u.amount ρ)) := by
  obtain ⟨lo, hlo, alo, -, vlo⟩ := ht.add (amount_real w.lower)
  obtain ⟨above, habove⟩ : ∃ above, above = if w.leftOpen then mkGt u lo else mkGe u lo := ⟨_, rfl⟩
  have cabove : above.Constraint noFlow := by
    rw [habove]
    split
    · exact hu.cmp alo .gt
    · exact hu.cmp alo .ge
  have vabove (ρ : Env) (hρ : ρ.Typed) : above.Holds ρ ↔
      if w.leftOpen then t.amount ρ + w.lower < u.amount ρ
        else t.amount ρ + w.lower ≤ u.amount ρ := by
    rw [habove]
    split
    · rw [holds_mkGt hu alo hρ, vlo ρ hρ, amount_real_eq]
    · rw [holds_mkGe hu alo hρ, vlo ρ hρ, amount_real_eq]
  cases hhi : w.hi with
  | none =>
    refine ⟨above, ?_, cabove, fun ρ hρ => ?_⟩
    · simp only [Window.contains, hlo, hhi, Attempt.bind_ok, ← habove]
      rfl
    · rw [vabove ρ hρ]
      simp [Window.Covers, hhi]
  | some h =>
    obtain ⟨hi, hhi', ahi, -, vhi⟩ := ht.add (amount_real h)
    obtain ⟨below, hbelow⟩ : ∃ below, below = if w.rightOpen then mkLt u hi else mkLe u hi :=
      ⟨_, rfl⟩
    have cbelow : below.Constraint noFlow := by
      rw [hbelow]
      split
      · exact hu.cmp ahi .lt
      · exact hu.cmp ahi .le
    have vbelow (ρ : Env) (hρ : ρ.Typed) : below.Holds ρ ↔
        if w.rightOpen then u.amount ρ < t.amount ρ + h else u.amount ρ ≤ t.amount ρ + h := by
      rw [hbelow]
      split
      · rw [holds_mkLt hu ahi hρ, vhi ρ hρ, amount_real_eq]
      · rw [holds_mkLe hu ahi hρ, vhi ρ hρ, amount_real_eq]
    have both : ∀ a ∈ [above, below], a.Constraint noFlow := by simpa using ⟨cabove, cbelow⟩
    refine ⟨mkAnd [above, below], ?_, constraint_mkAnd both, fun ρ hρ => ?_⟩
    · simp only [Window.contains, hlo, hhi, hhi', Attempt.bind_ok, ← habove, ← hbelow]
      rfl
    · rw [holds_mkAnd]
      simp [vabove ρ hρ, vbelow ρ hρ, Window.Covers, hhi]

theorem windowAt_spec (w : Window) {u : Term} (ht : t.Amount noFlow) (hu : u.Amount noFlow) :
    ∃ a, Formula.windowAt ⟨N⟩ w t u = .ok a ∧ a.Constraint noFlow ∧ ∀ ρ : Env, ρ.Typed →
      (a.Holds ρ ↔ w.Covers (t.amount ρ) (u.amount ρ) ∧
        u.amount ρ ≤ (Timeline.stop N).amount ρ) := by
  obtain ⟨a, ha, constraint, holds⟩ := contains_spec w ht hu
  have hend : (Timeline.stop N).Amount noFlow := Timeline.amount_stop N
  have both : ∀ b ∈ [a, mkLe u (Timeline.stop N)], b.Constraint noFlow := by
    simpa using ⟨constraint, hu.cmp hend .le⟩
  refine ⟨mkAnd [a, mkLe u (Timeline.stop N)], ?_, constraint_mkAnd both, fun ρ hρ => ?_⟩
  · simp [Formula.windowAt, ha]
  · rw [holds_mkAnd]
    simp [holds ρ hρ, holds_mkLe hu hend hρ]

theorem between_spec {u v : Term} (ht : t.Amount noFlow) (hu : u.Amount noFlow)
    (hv : v.Amount noFlow) : (Formula.between t v u).Constraint noFlow ∧ ∀ ρ : Env, ρ.Typed →
      ((Formula.between t v u).Holds ρ ↔ t.amount ρ ≤ v.amount ρ ∧ v.amount ρ < u.amount ρ) := by
  have both : ∀ a ∈ [mkGe v t, mkLt v u], a.Constraint noFlow := by
    simpa using ⟨hv.cmp ht .ge, hv.cmp hu .lt⟩
  refine ⟨constraint_mkAnd both, fun ρ hρ => ?_⟩
  rw [Formula.between, holds_mkAnd]
  simp [holds_mkGe hv ht hρ, holds_mkLt hv hu hρ]

theorem domain_spec {t : Term} (ht : t.Amount noFlow) :
    (Timeline.domain ⟨N⟩ t).Constraint noFlow ∧ ∀ ρ : Env, ρ.Typed →
      ((Timeline.domain ⟨N⟩ t).Holds ρ ↔ 0 ≤ t.amount ρ ∧
        t.amount ρ ≤ (Timeline.stop N).amount ρ) := by
  have hz : zero.Amount noFlow := amount_zero
  have hend : (Timeline.stop N).Amount noFlow := Timeline.amount_stop N
  have both : ∀ a ∈ [mkGe t .zero, mkLe t (Timeline.stop N)], a.Constraint noFlow := by
    simpa using ⟨ht.cmp hz .ge, ht.cmp hend .le⟩
  refine ⟨constraint_mkAnd both, fun ρ hρ => ?_⟩
  rw [Timeline.domain, holds_mkAnd]
  simp [holds_mkGe ht hz hρ, holds_mkLe ht hend hρ]

end Atoms

/-! ## Formulas -/

namespace Valuing

variable {α β : Type}

theorem bind_run {x : Valuing α} {f : α → Valuing β} {n m : Nat} {a : α} (h : x n = .ok (a, m)) :
    (x >>= f) n = f a m := by
  simp [bind, StateT.bind, h, Except.bind]

theorem lift_run {x : Attempt α} {n : Nat} {a : α} (h : x = .ok a) :
    (liftM x : Valuing α) n = .ok (a, n) := by
  rw [h]
  rfl

theorem run'_eq {x : Valuing α} {m n : Nat} {a : α} (h : x m = .ok (a, n)) :
    StateT.run' x m = .ok a := by
  simp only [StateT.run', h]
  rfl

theorem bind_eq_ok {x : Valuing α} {f : α → Valuing β} {n : Nat} {r : β × Nat} :
    (x >>= f) n = .ok r ↔ ∃ a m, x n = .ok (a, m) ∧ f a m = .ok r := by
  constructor
  · intro h
    obtain ⟨⟨a, m⟩, ha, hr⟩ := Attempt.bind_eq_ok.1 h
    exact ⟨a, m, ha, hr⟩
  · rintro ⟨a, m, ha, hr⟩
    exact (bind_run ha).trans hr

theorem lift_eq_ok {x : Attempt α} {n m : Nat} {a : α} :
    (liftM x : Valuing α) n = .ok (a, m) ↔ x = .ok a ∧ n = m := by
  cases x with
  | error e => exact ⟨nofun, fun h => nomatch h.1⟩
  | ok b =>
    have run : (liftM (.ok b : Attempt α) : Valuing α) n = .ok (b, n) := lift_run rfl
    simp [run]

theorem fresh_run (n : Nat) : freshInstant n = .ok (Symbol.instant n, n + 1) := rfl

/-- A part is valued, and a window is put in front of it. -/
theorem window_eq_ok {x : Valuing Term} {y : Attempt Term} {make : Term → Term → Term} {n m : Nat}
    {u : Term} :
    (do let body ← x; return make (← y) body : Valuing Term) n = .ok (u, m) ↔
      ∃ body win, x n = .ok (body, m) ∧ y = .ok win ∧ make win body = u := by
  constructor
  · intro h
    obtain ⟨body, k, hbody, h⟩ := bind_eq_ok.1 h
    obtain ⟨win, _, hwin, h⟩ := bind_eq_ok.1 h
    obtain ⟨inside, rfl⟩ := lift_eq_ok.1 hwin
    cases h
    exact ⟨body, win, hbody, inside, rfl⟩
  · rintro ⟨body, win, hbody, hwin, rfl⟩
    rw [bind_run hbody, bind_run (lift_run hwin)]
    rfl

/-- The same with a second part, which is valued at an instant of its own. -/
theorem windows_eq_ok {x : Valuing Term} {z : Var → Valuing Term} {y : Attempt Term}
    {make : Var → Term → Term → Term → Term} {n m : Nat} {u : Term} :
    (do
      let right ← x
      let v ← freshInstant
      let left ← z v
      return make v (← y) right left : Valuing Term) n = .ok (u, m) ↔
      ∃ right k left win, x n = .ok (right, k) ∧ z (Symbol.instant k) (k + 1) = .ok (left, m) ∧
        y = .ok win ∧ make (Symbol.instant k) win right left = u := by
  constructor
  · intro h
    obtain ⟨right, k, hright, h⟩ := bind_eq_ok.1 h
    rw [bind_run (fresh_run k)] at h
    obtain ⟨left, win, hleft, hwin, rfl⟩ := window_eq_ok.1 h
    exact ⟨right, k, left, win, hright, hleft, hwin, rfl⟩
  · rintro ⟨right, k, left, win, hright, hleft, hwin, rfl⟩
    rw [bind_run hright, bind_run (fresh_run k)]
    exact window_eq_ok.2 ⟨left, win, hleft, hwin, rfl⟩

end Valuing

namespace Formula

open Term Valuing

/-- What is needed to value a part of a formula: a row for an atom, a value for a witness. -/
def Tabulated (bv : BaseValuation) (W : Var → Prop) : Formula → Prop
  | prop name => (bv.rows.get? name).isSome = true
  | atom c => (bv.rows.get? c.text).isSome = true
  | witness w => W w
  | missing => False
  | _ => True

/-- A valuation has an answer for every instant and number of quantified instants, and the answer
says that a formula holds. -/
def Answers (ρ : Env) (σ : Trace) (f : Formula) (x : Term → Valuing Term) : Prop :=
  ∀ t n, Current n t → ∃ u n', x t n = .ok (u, n') ∧ n ≤ n' ∧ f.Values ρ σ t u

section Runs

variable {bv : BaseValuation} {ow : OnWitness} {w : Window} {f l r : Formula} {t u : Term}
  {n m : Nat}

/-- An eventually is valued by its body at a new instant. -/
theorem value_eventually_eq_ok : value bv ow (eventually w f) t n = .ok (u, m) ↔
    ∃ body win, value bv ow f (var (Symbol.instant n)) (n + 1) = .ok (body, m) ∧
      windowAt bv.timeline w t (var (Symbol.instant n)) = .ok win ∧
      mkAny (Symbol.instant n) (mkAnd [win, body]) = u := by
  rw [value, bind_run (fresh_run n)]
  exact window_eq_ok

theorem value_always_eq_ok : value bv ow (always w f) t n = .ok (u, m) ↔
    ∃ body win, value bv ow f (var (Symbol.instant n)) (n + 1) = .ok (body, m) ∧
      windowAt bv.timeline w t (var (Symbol.instant n)) = .ok win ∧
      mkAll (Symbol.instant n) (mkImplies win body) = u := by
  rw [value, bind_run (fresh_run n)]
  exact window_eq_ok

/-- An until is valued by its right side at a new instant and its left side at another one. -/
theorem value_untl_eq_ok : value bv ow (untl w l r) t n = .ok (u, m) ↔
    ∃ right k left win, value bv ow r (var (Symbol.instant n)) (n + 1) = .ok (right, k) ∧
      value bv ow l (var (Symbol.instant k)) (k + 1) = .ok (left, m) ∧
      windowAt bv.timeline w t (var (Symbol.instant n)) = .ok win ∧
      mkAny (Symbol.instant n) (mkAnd [win, right, mkAll (Symbol.instant k) (mkImplies
        (between t (var (Symbol.instant k)) (var (Symbol.instant n))) left)]) = u := by
  rw [value, bind_run (fresh_run n)]
  exact windows_eq_ok (z := fun v => value bv ow l (var v))

theorem value_release_eq_ok : value bv ow (release w l r) t n = .ok (u, m) ↔
    ∃ right k left win, value bv ow r (var (Symbol.instant n)) (n + 1) = .ok (right, k) ∧
      value bv ow l (var (Symbol.instant k)) (k + 1) = .ok (left, m) ∧
      windowAt bv.timeline w t (var (Symbol.instant n)) = .ok win ∧
      mkAll (Symbol.instant n) (mkImplies win (mkOr [right, mkAny (Symbol.instant k) (mkAnd
        [between t (var (Symbol.instant k)) (var (Symbol.instant n)), left])])) = u := by
  rw [value, bind_run (fresh_run n)]
  exact windows_eq_ok (z := fun v => value bv ow l (var v))

section

variable {sub : Table Formula} {depth : Nat} {x : Var}

/-- A witness of an eventually is valued by the body at the witness. -/
theorem witnessValue_eventually_eq_ok (hx : sub.get? x.name = some (eventually w f)) :
    witnessValue bv sub (depth + 1) x t n = .ok (u, m) ↔
      ∃ body win, value bv (witnessValue bv sub depth) f (var x) n = .ok (body, m) ∧
        windowAt bv.timeline w t (var x) = .ok win ∧ mkAnd [win, body] = u := by
  simp only [witnessValue, hx]
  exact window_eq_ok

/-- A witness of an until is valued by the right side at the witness and the left side at a new
instant. -/
theorem witnessValue_untl_eq_ok (hx : sub.get? x.name = some (untl w l r)) :
    witnessValue bv sub (depth + 1) x t n = .ok (u, m) ↔
      ∃ right k left win, value bv (witnessValue bv sub depth) r (var x) n = .ok (right, k) ∧
        value bv (witnessValue bv sub depth) l (var (Symbol.instant k)) (k + 1) = .ok (left, m) ∧
        windowAt bv.timeline w t (var x) = .ok win ∧
        mkAnd [win, right, mkAll (Symbol.instant k)
          (mkImplies (between t (var (Symbol.instant k)) (var x)) left)] = u := by
  simp only [witnessValue, hx]
  exact windows_eq_ok (z := fun v => value bv (witnessValue bv sub depth) l (var v))

end

end Runs

variable {bv : BaseValuation} {N : Nat} {ρ : Env} {σ : Trace} {ow : OnWitness}

theorem valueAll_spec {fs : List Formula} (ih : ∀ f ∈ fs, Answers ρ σ f (value bv ow f)) {t : Term}
    {n : Nat} (ht : Current n t) :
    ∃ us n', valueAll bv ow fs t n = .ok (us, n') ∧ n ≤ n' ∧
      List.Forall₂ (fun f u => f.Values ρ σ t u) fs us := by
  induction fs generalizing n with
  | nil => exact ⟨[], n, rfl, le_rfl, .nil⟩
  | cons f fs ih' =>
    obtain ⟨u, n₁, hu, h1, values⟩ := ih f (by simp) t n ht
    obtain ⟨us, n₂, hus, h2, all⟩ := ih' (fun g hg => ih g (by simp [hg])) (ht.mono h1)
    refine ⟨u :: us, n₂, ?_, h1.trans h2, .cons values all⟩
    rw [valueAll, bind_run hu, bind_run hus]
    rfl

theorem constraints_of_forall₂ {fs : List Formula} {us : List Term} {t : Term}
    (h : List.Forall₂ (fun f u => f.Values ρ σ t u) fs us) : ∀ u ∈ us, u.Constraint noFlow := by
  induction h with
  | nil => simp
  | cons hu _ ih => simpa using ⟨hu.constraint, ih⟩

theorem amount_instant (ρ : Env) (n : Nat) (x : ℝ) :
    (var (Symbol.instant n)).amount (ρ.set (Symbol.instant n) (.number x)) = x := by
  simp [Term.amount, eval]

theorem Values.at_instant {f : Formula} {n : Nat} {u : Term} {ρ' : Env}
    (h : f.Values ρ σ (var (Symbol.instant n)) u) (hn : Near ρ ρ') {x : ℝ} (h0 : 0 ≤ x)
    (hle : x ≤ σ.length) :
    u.Holds (ρ'.set (Symbol.instant n) (.number x)) ↔ f.Holds σ x := by
  have holds := h.holds _ (hn.set n x)
  rw [amount_instant] at holds
  exact holds h0 hle

/-- A formula holds from one instant up to another. -/
theorem heldUntil_spec {l : Formula} {m : Nat} {t u left : Term} (ht : Current m t)
    (hu : Current m u) (hl : l.Values ρ σ (var (Symbol.instant m)) left) :
    (mkAll (Symbol.instant m) (mkImplies (between t (var (Symbol.instant m)) u) left)).Constraint
        noFlow ∧
      ∀ ρ', Near ρ ρ' → 0 ≤ t.amount ρ' → u.amount ρ' ≤ σ.length →
        ((mkAll (Symbol.instant m) (mkImplies (between t (var (Symbol.instant m)) u) left)).Holds
          ρ' ↔ ∀ v, t.amount ρ' ≤ v → v < u.amount ρ' → l.Holds σ v) := by
  have hv : (var (Symbol.instant m)).Amount noFlow := amount_var rfl
  obtain ⟨constraint, holds⟩ := between_spec ht.amount hu.amount hv
  refine ⟨(constraint.implies hl.constraint).quant .all _, fun ρ' h h0 hle => ?_⟩
  rw [holds_mkAll (constraint.implies hl.constraint), forall_isOf_real rfl]
  refine forall_congr' fun x => ?_
  have hx := h.set m x
  rw [holds_mkImplies constraint hl.constraint hx.typed, holds _ hx.typed, amount_instant,
    ht.amount_set, hu.amount_set, and_imp]
  exact forall₂_congr fun htx hxu => hl.at_instant h (h0.trans htx) (hxu.le.trans hle)

/-- A formula holds somewhere from one instant up to another. -/
theorem heldBefore_spec {l : Formula} {m : Nat} {t u left : Term} (ht : Current m t)
    (hu : Current m u) (hl : l.Values ρ σ (var (Symbol.instant m)) left) :
    (mkAny (Symbol.instant m) (mkAnd [between t (var (Symbol.instant m)) u, left])).Constraint
        noFlow ∧
      ∀ ρ', Near ρ ρ' → 0 ≤ t.amount ρ' → u.amount ρ' ≤ σ.length →
        ((mkAny (Symbol.instant m) (mkAnd [between t (var (Symbol.instant m)) u, left])).Holds
          ρ' ↔ ∃ v, t.amount ρ' ≤ v ∧ v < u.amount ρ' ∧ l.Holds σ v) := by
  have hv : (var (Symbol.instant m)).Amount noFlow := amount_var rfl
  obtain ⟨constraint, holds⟩ := between_spec ht.amount hu.amount hv
  have both : ∀ a ∈ [between t (var (Symbol.instant m)) u, left], a.Constraint noFlow := by
    simpa using ⟨constraint, hl.constraint⟩
  refine ⟨(constraint_mkAnd both).quant .any _, fun ρ' h h0 hle => ?_⟩
  rw [holds_mkAny (constraint_mkAnd both), exists_isOf_real rfl]
  refine exists_congr fun x => ?_
  have hx := h.set m x
  rw [holds_mkAnd]
  simp only [List.mem_cons, List.not_mem_nil, or_false, forall_eq_or_imp, forall_eq,
    holds _ hx.typed, amount_instant, ht.amount_set, hu.amount_set, and_assoc]
  exact and_congr_right fun htx => and_congr_right fun hxu =>
    hl.at_instant h (h0.trans htx) (hxu.le.trans hle)

/-- A term says that a quantified instant is one of the trace and lies in a window seen from the
instant another term stands for. -/
structure Limits (ρ : Env) (σ : Trace) (w : Window) (t : Term) (n : Nat) (win : Term) : Prop where
  constraint : win.Constraint noFlow
  holds : ∀ ρ', Near ρ ρ' → ∀ x : ℝ, (win.Holds (ρ'.set (Symbol.instant n) (.number x)) ↔
    w.Covers (t.amount ρ') x ∧ x ≤ σ.length)

theorem windowAt_instant (hbv : bv.Describes N ρ σ) (w : Window) {t : Term} {n : Nat}
    (ht : Current n t) :
    ∃ win, windowAt bv.timeline w t (var (Symbol.instant n)) = .ok win ∧ Limits ρ σ w t n win := by
  have hv : (var (Symbol.instant n)).Amount noFlow := amount_var rfl
  obtain ⟨win, hwin, constraint, holds⟩ := windowAt_spec (N := N) w ht.amount hv
  refine ⟨win, by rw [hbv.timeline, hwin], constraint, fun ρ' h x => ?_⟩
  have hx := h.set n x
  rw [holds _ hx.typed, ht.amount_set, amount_instant, hx.amount_stop, hbv.length]

section Limits

variable {w : Window} {t win : Term} {n : Nat} {ρ' : Env}

theorem Limits.constraints (h : Limits ρ σ w t n win) {bodies : List Term}
    (hb : ∀ b ∈ bodies, b.Constraint noFlow) : ∀ b ∈ win :: bodies, b.Constraint noFlow :=
  List.forall_mem_cons.2 ⟨h.constraint, hb⟩

/-- Something holds at an instant of a window. -/
theorem Limits.holds_any (h : Limits ρ σ w t n win) {bodies : List Term}
    (hb : ∀ b ∈ bodies, b.Constraint noFlow) (hn : Near ρ ρ') :
    (mkAny (Symbol.instant n) (mkAnd (win :: bodies))).Holds ρ' ↔
      ∃ x, w.Covers (t.amount ρ') x ∧ x ≤ σ.length ∧
        ∀ b ∈ bodies, b.Holds (ρ'.set (Symbol.instant n) (.number x)) := by
  rw [holds_mkAny (constraint_mkAnd (h.constraints hb)), exists_isOf_real rfl]
  refine exists_congr fun x => ?_
  rw [holds_mkAnd, List.forall_mem_cons, h.holds ρ' hn x, and_assoc]

/-- Something holds at every instant of a window. -/
theorem Limits.holds_all (h : Limits ρ σ w t n win) {body : Term} (hb : body.Constraint noFlow)
    (hn : Near ρ ρ') :
    (mkAll (Symbol.instant n) (mkImplies win body)).Holds ρ' ↔
      ∀ x, w.Covers (t.amount ρ') x → x ≤ σ.length →
        body.Holds (ρ'.set (Symbol.instant n) (.number x)) := by
  rw [holds_mkAll (h.constraint.implies hb), forall_isOf_real rfl]
  refine forall_congr' fun x => ?_
  rw [holds_mkImplies h.constraint hb (hn.set n x).typed, h.holds ρ' hn x, and_imp]

end Limits

theorem holdAll_of_forall₂ {fs : List Formula} {us : List Term} {t : Term} {ρ' : Env}
    (h : List.Forall₂ (fun f u => f.Values ρ σ t u) fs us) (hn : Near ρ ρ')
    (h0 : 0 ≤ t.amount ρ') (hle : t.amount ρ' ≤ σ.length) :
    ((∀ u ∈ us, u.Holds ρ') ↔ ∀ f ∈ fs, f.Holds σ (t.amount ρ')) ∧
      ((∃ u ∈ us, u.Holds ρ') ↔ ∃ f ∈ fs, f.Holds σ (t.amount ρ')) := by
  induction h with
  | nil => simp
  | cons hu _ ih =>
    have := hu.holds ρ' hn h0 hle
    simp only [List.mem_cons, forall_eq_or_imp, exists_eq_or_imp, ih, this, and_self]

section Operators

variable {w : Window} {f l r : Formula} {fs : List Formula}

theorem Answers.not (hf : Answers ρ σ f (value bv ow f)) :
    Answers ρ σ (not f) (value bv ow (not f)) := by
  intro t n ht
  obtain ⟨u, n', hu, hn, constraint, holds⟩ := hf t n ht
  refine ⟨u.mkNot, n', ?_, hn, constraint.not, fun ρ' h h0 hle => ?_⟩
  · rw [value, bind_run hu]
    rfl
  · rw [holds_mkNot, holds ρ' h h0 hle, Formula.Holds]

theorem Answers.and (hfs : ∀ f ∈ fs, Answers ρ σ f (value bv ow f)) :
    Answers ρ σ (and fs) (value bv ow (and fs)) := by
  intro t n ht
  obtain ⟨us, n', hus, hn, all⟩ := valueAll_spec hfs ht
  refine ⟨mkAnd us, n', ?_, hn, constraint_mkAnd (constraints_of_forall₂ all),
    fun ρ' h h0 hle => ?_⟩
  · rw [value, bind_run hus]
    rfl
  · rw [holds_mkAnd, holds_and]
    exact (holdAll_of_forall₂ all h h0 hle).1

theorem Answers.or (hfs : ∀ f ∈ fs, Answers ρ σ f (value bv ow f)) :
    Answers ρ σ (or fs) (value bv ow (or fs)) := by
  intro t n ht
  obtain ⟨us, n', hus, hn, all⟩ := valueAll_spec hfs ht
  have constraint := constraints_of_forall₂ all
  refine ⟨mkOr us, n', ?_, hn, constraint_mkOr constraint, fun ρ' h h0 hle => ?_⟩
  · rw [value, bind_run hus]
    rfl
  · rw [holds_mkOr constraint h.typed, holds_or]
    exact (holdAll_of_forall₂ all h h0 hle).2

theorem Answers.implies (hl : Answers ρ σ l (value bv ow l)) (hr : Answers ρ σ r (value bv ow r)) :
    Answers ρ σ (implies l r) (value bv ow (implies l r)) := by
  intro t n ht
  obtain ⟨a, n₁, ha, h1, ca, va⟩ := hl t n ht
  obtain ⟨b, n₂, hb, h2, cb, vb⟩ := hr t n₁ (ht.mono h1)
  have both : ∀ c ∈ [a.mkNot, b], c.Constraint noFlow := by simpa using ⟨ca.not, cb⟩
  refine ⟨mkOr [a.mkNot, b], n₂, ?_, h1.trans h2, constraint_mkOr both, fun ρ' h h0 hle => ?_⟩
  · rw [value, bind_run ha, bind_run hb]
    rfl
  · rw [holds_mkOr both h.typed, Formula.Holds]
    simp [holds_mkNot, va ρ' h h0 hle, vb ρ' h h0 hle, imp_iff_not_or]

section Windows

variable (hbv : bv.Describes N ρ σ) (forward : 0 ≤ w.lower)

include hbv forward

theorem Answers.eventually (hf : Answers ρ σ f (value bv ow f)) :
    Answers ρ σ (eventually w f) (value bv ow (eventually w f)) := by
  intro t n ht
  obtain ⟨body, n', hbody, hn, hb⟩ := hf _ _ (Current.instant n)
  obtain ⟨win, hwin, limits⟩ := windowAt_instant hbv w ht
  have bodies : ∀ b ∈ [body], b.Constraint noFlow := by simpa using hb.constraint
  refine ⟨_, n', value_eventually_eq_ok.2 ⟨body, win, hbody, hwin, rfl⟩, by omega,
    (constraint_mkAnd (limits.constraints bodies)).quant .any _, fun ρ' h h0 hle => ?_⟩
  rw [limits.holds_any bodies h, Formula.Holds]
  refine exists_congr fun x => and_congr_right fun hcov => and_congr_right fun hxe => ?_
  rw [List.forall_mem_singleton]
  exact hb.at_instant h (hcov.nonneg forward h0) hxe

theorem Answers.always (hf : Answers ρ σ f (value bv ow f)) :
    Answers ρ σ (always w f) (value bv ow (always w f)) := by
  intro t n ht
  obtain ⟨body, n', hbody, hn, hb⟩ := hf _ _ (Current.instant n)
  obtain ⟨win, hwin, limits⟩ := windowAt_instant hbv w ht
  refine ⟨_, n', value_always_eq_ok.2 ⟨body, win, hbody, hwin, rfl⟩, by omega,
    (limits.constraint.implies hb.constraint).quant .all _, fun ρ' h h0 hle => ?_⟩
  rw [limits.holds_all hb.constraint h, Formula.Holds]
  exact forall_congr' fun x => forall₂_congr fun hcov hxe =>
    hb.at_instant h (hcov.nonneg forward h0) hxe

theorem Answers.untl (hl : Answers ρ σ l (value bv ow l)) (hr : Answers ρ σ r (value bv ow r)) :
    Answers ρ σ (untl w l r) (value bv ow (untl w l r)) := by
  intro t n ht
  obtain ⟨right, n₁, hright, h1, hr⟩ := hr _ _ (Current.instant n)
  obtain ⟨left, n₂, hleft, h2, hl⟩ := hl _ _ (Current.instant n₁)
  obtain ⟨win, hwin, limits⟩ := windowAt_instant hbv w ht
  obtain ⟨cheld, vheld⟩ := heldUntil_spec (ht.mono (by omega)) ((Current.instant n).mono h1) hl
  have bodies : ∀ b ∈ [right, mkAll (Symbol.instant n₁) (mkImplies
      (between t (var (Symbol.instant n₁)) (var (Symbol.instant n))) left)],
      b.Constraint noFlow := by
    simpa using ⟨hr.constraint, cheld⟩
  refine ⟨_, n₂, value_untl_eq_ok.2 ⟨right, n₁, left, win, hright, hleft, hwin, rfl⟩, by omega,
    (constraint_mkAnd (limits.constraints bodies)).quant .any _, fun ρ' h h0 hle => ?_⟩
  rw [limits.holds_any bodies h, Formula.Holds]
  refine exists_congr fun x => and_congr_right fun hcov => and_congr_right fun hxe => ?_
  have held := vheld _ (h.set n x)
  rw [ht.amount_set, amount_instant] at held
  rw [List.forall_mem_cons, List.forall_mem_singleton]
  exact and_congr (hr.at_instant h (hcov.nonneg forward h0) hxe) (held h0 hxe)

theorem Answers.release (hl : Answers ρ σ l (value bv ow l)) (hr : Answers ρ σ r (value bv ow r)) :
    Answers ρ σ (release w l r) (value bv ow (release w l r)) := by
  intro t n ht
  obtain ⟨right, n₁, hright, h1, hr⟩ := hr _ _ (Current.instant n)
  obtain ⟨left, n₂, hleft, h2, hl⟩ := hl _ _ (Current.instant n₁)
  obtain ⟨win, hwin, limits⟩ := windowAt_instant hbv w ht
  obtain ⟨cheld, vheld⟩ := heldBefore_spec (ht.mono (by omega)) ((Current.instant n).mono h1) hl
  have either : ∀ b ∈ [right, mkAny (Symbol.instant n₁) (mkAnd
      [between t (var (Symbol.instant n₁)) (var (Symbol.instant n)), left])],
      b.Constraint noFlow := by
    simpa using ⟨hr.constraint, cheld⟩
  refine ⟨_, n₂, value_release_eq_ok.2 ⟨right, n₁, left, win, hright, hleft, hwin, rfl⟩,
    by omega, (limits.constraint.implies (constraint_mkOr either)).quant .all _,
    fun ρ' h h0 hle => ?_⟩
  rw [limits.holds_all (constraint_mkOr either) h, Formula.Holds]
  refine forall_congr' fun x => forall₂_congr fun hcov hxe => ?_
  have held := vheld _ (h.set n x)
  rw [ht.amount_set, amount_instant] at held
  rw [holds_mkOr either (h.set n x).typed, List.exists_mem_cons_iff, List.exists_mem_cons_iff]
  simp only [List.not_mem_nil, false_and, exists_false, or_false]
  exact or_congr (hr.at_instant h (hcov.nonneg forward h0) hxe) (held h0 hxe)

end Windows

end Operators

/-- The value of a formula at an instant says that it holds there. -/
theorem value_spec (hbv : bv.Describes N ρ σ) {W : Var → Prop}
    (hw : ∀ w, W w → Answers ρ σ (.witness w) (ow w)) {f : Formula}
    (hf : f.Every (Tabulated bv W) fun w => 0 ≤ w.lower) : Answers ρ σ f (value bv ow f) := by
  induction f using induct with
  | bool b =>
    intro t n _
    exact ⟨.bool b, n, rfl, le_rfl, constraint_bool b, fun _ _ _ _ => Iff.rfl⟩
  | prop name =>
    intro t n ht
    obtain ⟨row, hrow⟩ := Option.isSome_iff_exists.1 hf
    obtain ⟨u, hu, constraint, holds⟩ := valueAt_spec hbv hrow (hbv.prop name row hrow) ht.amount
    refine ⟨u, n, ?_, le_rfl, constraint, holds⟩
    rw [value]
    exact lift_run hu
  | atom c =>
    intro t n ht
    obtain ⟨row, hrow⟩ := Option.isSome_iff_exists.1 hf
    obtain ⟨u, hu, constraint, holds⟩ := valueAt_spec hbv hrow (hbv.atom c row hrow) ht.amount
    refine ⟨u, n, ?_, le_rfl, constraint, holds⟩
    rw [value]
    exact lift_run hu
  | witness w => exact hw w hf
  | missing => exact hf.elim
  | not f ih => exact Answers.not (ih hf)
  | and fs ih =>
    rw [Every, everyAll_iff] at hf
    exact Answers.and fun f hm => ih f hm (hf f hm)
  | or fs ih =>
    rw [Every, everyAll_iff] at hf
    exact Answers.or fun f hm => ih f hm (hf f hm)
  | implies l r ihl ihr => exact Answers.implies (ihl hf.1) (ihr hf.2)
  | eventually w f ih => exact Answers.eventually hbv hf.1 (ih hf.2)
  | always w f ih => exact Answers.always hbv hf.1 (ih hf.2)
  | untl w l r ihl ihr => exact Answers.untl hbv hf.1 (ihl hf.2.1) (ihr hf.2.2)
  | release w l r ihl ihr => exact Answers.release hbv hf.1 (ihl hf.2.1) (ihr hf.2.2)

end Formula

end HybridCheck
