import HybridCheck.Proofs.Valuation

/-!
# The trace of a table of atoms

A table of atoms and an environment make a trace: the value of an atom at an instant is its cell of
the one segment that contains the instant, read at the time since the segment began. The main
statement is that valuation computes truth on this trace, at a point and over a window.
-/

namespace HybridCheck

namespace BaseValuation

variable {bv : BaseValuation} {N : Nat} {ρ : Env}

/-- The cell of an atom in the segment that contains an instant holds there. -/
def Shows (bv : BaseValuation) (N : Nat) (ρ : Env) (key : String) (u : ℝ) : Prop :=
  ∃ row k c, bv.rows.get? key = some row ∧ row[k]? = some c ∧ Timeline.Contains ρ N k u ∧
    c.Holds (ρ.set Symbol.offset (.number (u - (Timeline.start k).amount ρ)))

noncomputable def trace (bv : BaseValuation) (N : Nat) (ρ : Env) : Trace where
  length := (Timeline.stop N).amount ρ
  prop name u := bv.Shows N ρ name u
  atom c u := bv.Shows N ρ c.text u

theorem shows_iff (inc : Timeline.Increasing ρ N) {key : String} {row : List Term}
    (hrow : bv.rows.get? key = some row) (hlen : row.length = N + 1) {k : Nat} {c : Term}
    (hc : row[k]? = some c) {u : ℝ} (hu : Timeline.Contains ρ N k u) : bv.Shows N ρ key u ↔
      c.Holds (ρ.set Symbol.offset (.number (u - (Timeline.start k).amount ρ))) := by
  have bound {j : Nat} {d : Term} (h : row[j]? = some d) : j ≤ N := by
    have := (List.getElem?_eq_some_iff.1 h).1
    omega
  constructor
  · rintro ⟨row', j, d, hrow', hd, hj, holds⟩
    cases hrow.symm.trans hrow'
    obtain rfl := inc.contains_unique (bound hd) (bound hc) hj hu
    cases hc.symm.trans hd
    exact holds
  · intro holds
    exact ⟨row, k, c, hrow, hc, hu, holds⟩

theorem length_steps (N : Nat) : (steps (N + 1)).length = N + 1 := by
  simp [steps]

theorem row_eq_ok {sig : Signal} {a : Atomic} {row : List Term} :
    BaseValuation.row sig ⟨N⟩ a = .ok row ↔ (steps (N + 1)).mapM (cell sig a) = .ok row := by
  rw [BaseValuation.row, if_neg (by simp only [Timeline.segments]; omega)]
  rfl

/-- The cell of a step in a row. -/
theorem cell_of_row {sig : Signal} {a : Atomic} {row : List Term}
    (h : BaseValuation.row sig ⟨N⟩ a = .ok row) {k : Nat} (hk : k ≤ N) :
    ∃ c, row[k]? = some c ∧ cell sig a k = .ok c := by
  obtain ⟨hlen, each⟩ := List.forall₂_iff_get.1 (Attempt.mapM_eq_ok.1 (row_eq_ok.1 h))
  have hstep : k < (steps (N + 1)).length := by rw [length_steps]; omega
  have made := each k hstep (hlen ▸ hstep)
  refine ⟨_, List.getElem?_eq_getElem (hlen ▸ hstep), ?_⟩
  simpa [steps] using made

theorem rows_of_tabulate {p : Partition} {sig : Signal} (h : tabulate p ⟨N⟩ sig = .ok bv) :
    bv.timeline = ⟨N⟩ ∧ ∀ key row, bv.rows.get? key = some row →
      ∃ a, (key, a) ∈ p ∧ BaseValuation.row sig ⟨N⟩ a = .ok row := by
  obtain ⟨rows, hrows, h⟩ := Attempt.bind_eq_ok.1 h
  cases h
  refine ⟨rfl, fun key row hrow => ?_⟩
  obtain ⟨⟨key', a⟩, ha, made⟩ := Attempt.mem_of_mapM hrows (Table.mem_of_get? hrow)
  obtain ⟨row', hrow', h⟩ := Attempt.bind_eq_ok.1 made
  cases h
  exact ⟨a, ha, hrow'⟩

/-- What the cells have that a signal gives for the atoms of a partition, all cells of the table
have. -/
theorem forall_cells {p : Partition} {sig : Signal} (h : tabulate p ⟨N⟩ sig = .ok bv)
    {P : Term → Prop}
    (cells : ∀ e ∈ p, ∀ k ∈ steps (N + 1), ∀ c, cell sig e.2 k = .ok c → P c) :
    ∀ key row, bv.rows.get? key = some row → ∀ c ∈ row, P c := by
  intro key row hrow c hc
  obtain ⟨a, ha, made⟩ := (rows_of_tabulate h).2 key row hrow
  obtain ⟨k, hk, hcell⟩ := Attempt.mem_of_mapM (row_eq_ok.1 made) hc
  exact cells _ ha k hk c hcell

theorem describes_trace {p : Partition} {sig : Signal} (h : tabulate p ⟨N⟩ sig = .ok bv)
    (cells : ∀ e ∈ p, ∀ k ∈ steps (N + 1), ∀ c, cell sig e.2 k = .ok c → IsCell c)
    (inc : Timeline.Increasing ρ N) : bv.Describes N ρ (bv.trace N ρ) := by
  obtain ⟨timeline, made⟩ := rows_of_tabulate h
  have rows (key : String) (row : List Term) (hrow : bv.rows.get? key = some row) :
      row.length = N + 1 ∧ ∀ c ∈ row, IsCell c := by
    obtain ⟨a, -, hmade⟩ := made key row hrow
    have all := row_eq_ok.1 hmade
    exact ⟨(Attempt.mapM_eq_ok.1 all).length_eq ▸ length_steps N, forall_cells h cells key row hrow⟩
  exact
    { timeline, rows
      length := rfl
      covered := fun u h0 hu => Timeline.exists_contains h0 hu
      prop := fun name row hrow k c hc u hu => shows_iff inc hrow (rows name row hrow).1 hc hu
      atom := fun a row hrow k c hc u hu => shows_iff inc hrow (rows a.text row hrow).1 hc hu }

end BaseValuation

namespace Formula

open Term Valuing

variable {bv : BaseValuation} {N : Nat} {ρ : Env} {σ : Trace}

theorem valuation_point {s : Separated} {a : Rat}
    (h : Answers ρ σ s.top (s.valueAt bv)) (hρ : ρ.Typed) (h0 : 0 ≤ a) (ha : (a : ℝ) ≤ σ.length) :
    ∃ u, s.valuation (Window.point a) bv = .ok u ∧ u.Constraint noFlow ∧
      (u.Holds ρ ↔ s.top.Holds σ a) := by
  have ht : Current 0 (.real a) := ⟨amount_real a, fun m _ => rfl⟩
  obtain ⟨u, n, hu, -, constraint, holds⟩ := h _ 0 ht
  have at_point := holds ρ (Near.refl hρ)
  rw [amount_real_eq] at at_point
  refine ⟨u, ?_, constraint, at_point (by exact_mod_cast h0) ha⟩
  have hp : (Window.point a).isPoint = true := by simp [Window.point, Window.isPoint, Window.lower]
  have hl : (Window.point a).lower = a := rfl
  rw [Separated.valuation, if_pos hp, hl]
  exact run'_eq hu

theorem valuation_window {f : Formula} (hbv : bv.Describes N ρ σ)
    (h : Answers ρ σ f (Separated.valueAt ⟨f, []⟩ bv)) (hρ : ρ.Typed) {w : Window}
    (hw : w.isPoint = false) :
    ∃ u, Separated.valuation ⟨f, []⟩ w bv = .ok u ∧ (u.Holds ρ ↔
      ∀ x, w.Covers 0 x → 0 ≤ x → x ≤ σ.length → f.Holds σ x) := by
  obtain ⟨body, n, hbody, -, values⟩ := h _ _ (Current.instant 0)
  have hu : (var (Symbol.instant (0 : Nat))).Amount noFlow := amount_var rfl
  have hz : zero.Amount noFlow := amount_zero
  obtain ⟨win, hwin, cwin, vwin⟩ := contains_spec w hz hu
  obtain ⟨cdom, vdom⟩ := domain_spec (N := N) hu
  have both : ∀ a ∈ [win, Timeline.domain ⟨N⟩ (var (Symbol.instant (0 : Nat)))],
      a.Constraint noFlow := by
    simpa using ⟨cwin, cdom⟩
  have inner := (constraint_mkAnd both).implies values.constraint
  refine ⟨mkAll (Symbol.instant (0 : Nat)) (mkImplies (mkAnd [win, Timeline.domain ⟨N⟩
    (var (Symbol.instant (0 : Nat)))]) body), ?_, ?_⟩
  · rw [Separated.valuation, if_neg (by simp [hw]), if_neg (by simp)]
    refine run'_eq (n := n) ?_
    rw [bind_run (fresh_run 0), bind_run hbody, hbv.timeline, bind_run (lift_run hwin)]
    rfl
  · rw [holds_mkAll inner, forall_isOf_real rfl]
    refine forall_congr' fun x => ?_
    have hx := (Near.refl hρ).set 0 x
    have hend :
        (Timeline.stop N).amount (ρ.set (Symbol.instant (0 : Nat)) (.number x)) = σ.length := by
      rw [hbv.length]
      exact hx.amount_stop N
    rw [holds_mkImplies (constraint_mkAnd both) values.constraint hx.typed, holds_mkAnd]
    simp only [List.mem_cons, List.not_mem_nil, or_false, forall_eq_or_imp, forall_eq,
      vwin _ hx.typed, vdom _ hx.typed]
    rw [amount_instant, amount_zero_eq, hend, and_imp, and_imp]
    refine forall_congr' fun _ => forall₂_congr fun h0 hle => ?_
    exact values.at_instant (Near.refl hρ) h0 hle

/-- The valuation of a formula without witnesses is its truth: at a point of the trace, or at every
instant of the trace inside a window. -/
theorem valuation_computes_truth {p : Partition} {sig : Signal} {f : Formula}
    (made : BaseValuation.tabulate p ⟨N⟩ sig = .ok bv)
    (cells : ∀ e ∈ p, ∀ k c, BaseValuation.cell sig e.2 k = .ok c → IsCell c)
    (hf : f.Every (Tabulated bv fun _ => False) fun w => 0 ≤ w.lower)
    (hρ : ρ.Typed) (inc : Timeline.Increasing ρ N) :
    (∀ a : Rat, 0 ≤ a → (a : ℝ) ≤ (Timeline.stop N).amount ρ →
      ∃ u, Separated.valuation ⟨f, []⟩ (Window.point a) bv = .ok u ∧
        (u.Holds ρ ↔ f.Holds (bv.trace N ρ) a)) ∧
    ∀ w : Window, w.isPoint = false →
      ∃ u, Separated.valuation ⟨f, []⟩ w bv = .ok u ∧
        (u.Holds ρ ↔ ∀ x, w.Covers 0 x → 0 ≤ x → x ≤ (Timeline.stop N).amount ρ →
          f.Holds (bv.trace N ρ) x) := by
  have describes := BaseValuation.describes_trace made (fun e he k _ => cells e he k) inc
  have answers : Answers ρ (bv.trace N ρ) f (Separated.valueAt ⟨f, []⟩ bv) :=
    value_spec describes (fun _ h => h.elim) hf
  constructor
  · intro a h0 ha
    obtain ⟨u, hu, -, holds⟩ := valuation_point (s := ⟨f, []⟩) answers hρ h0 ha
    exact ⟨u, hu, holds⟩
  · intro w hw
    exact valuation_window describes answers hρ hw

/-! ## Two steps -/

/-- A proposition that holds during the first step only, and a constraint that comes to hold one
unit of time into each step. -/
def patience : Signal where
  proposition _ k := .ok (.bool (k = 0))
  constraint _ _ offset := .ok (.cmp .ge offset (.num .real 1))

def patient : Formula := untl .unbounded (prop "p") (atom (.var ⟨"x", .bool, .logical⟩))

def patienceTable : BaseValuation where
  timeline := ⟨1⟩
  rows := [("p", [.bool true, .bool false]),
    ("x", [.cmp .ge (.var Symbol.offset) (.num .real 1),
      .cmp .ge (.var Symbol.offset) (.num .real 1)])]

def patienceTimes : Env :=
  (Env.blank.set (Symbol.tau 0) (.number 1)).set (Symbol.tau 1) (.number 3)

theorem valuation_of_patient : ∃ u,
    Separated.valuation ⟨patient, []⟩ (Window.point 0) patienceTable = .ok u ∧
      (u.Holds patienceTimes ↔ patient.Holds (patienceTable.trace 1 patienceTimes) (0 : ℚ)) := by
  have typed : patienceTimes.Typed := by
    refine (Env.blank_sorted.typed.set ?_).set ?_
    · exact ⟨1, rfl⟩
    · exact ⟨3, rfl⟩
  have first : (Timeline.stop 0).amount patienceTimes = 1 := by
    simp [Timeline.stop, Term.amount, eval, patienceTimes, Env.set]
  have second : (Timeline.stop 1).amount patienceTimes = 3 := by
    simp [Timeline.stop, Term.amount, eval, patienceTimes, Env.set]
  have inc : Timeline.Increasing patienceTimes 1 := by
    refine ⟨?_, fun k hk => ?_⟩
    · norm_num [first]
    · obtain rfl : k = 0 := by omega
      norm_num [first, second]
  have made : BaseValuation.tabulate
      [("p", .prop "p"), ("x", .constraint (.var ⟨"x", .bool, .logical⟩))] ⟨(1 : Nat)⟩ patience =
        .ok patienceTable := rfl
  refine (valuation_computes_truth made ?_ ?_ typed inc).1 0 le_rfl ?_
  · intro e he k c hc
    simp only [List.mem_cons, List.not_mem_nil, or_false] at he
    obtain rfl | rfl := he
    · cases hc
      exact ⟨Term.constraint_bool _, rfl, fun n => rfl⟩
    · cases hc
      refine ⟨⟨rfl, rfl⟩, rfl, fun n => ?_⟩
      refine (hereditary_not_mentions _ _ (.cmp .ge) rfl).2 fun a ha => ?_
      obtain rfl | rfl : a = .var Symbol.offset ∨ a = .num .real 1 := by simpa [operands] using ha
      · exact mentions_var_of_ne (Symbol.offset_ne_instant n).symm
      · rfl
  · exact ⟨le_rfl, rfl, rfl⟩
  · norm_num [second]

end Formula

end HybridCheck
