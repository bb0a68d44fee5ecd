import HybridCheck.Proofs.Workers

/-!
# The verdict of a search with one worker

A search with one worker explores its bounds in order. It ends at the first bound that fails or has
a counterexample, and its report is determined by the answers up to there: the counterexample or the
failure is that of the last bound explored, the sizes are summed over the bounds that were answered,
and one bound without an answer is enough for the property not to hold.
-/

namespace HybridCheck.Search

/-- The first bound that fails or has a counterexample. -/
def stop? (exploreAt : Int → Explored) (bs : List Int) : Option Int :=
  bs.find? fun b => Explored.decisive (exploreAt b)

def passed (exploreAt : Int → Explored) (bs : List Int) : List Int :=
  bs.takeWhile fun b => !Explored.decisive (exploreAt b)

/-- The answers among results, each with the size of the separated formula. -/
def answers (rs : List Explored) : List (Nat × Outcome) :=
  rs.filterMap fun r => r.outcome.toOption.map fun o => (r.separatedSize, o)

def AnswersWith (exploreAt : Int → Explored) (b : Int) (a : Answer) : Prop :=
  ∃ o, (exploreAt b).outcome = .ok o ∧ o.answer = a

/-- What the run of a search with one worker says about the answers for its bounds. -/
structure Concludes (exploreAt : Int → Explored) (bs : List Int) (r : Run) : Prop where
  /-- The bounds are explored in order, up to the first that fails or has a counterexample. -/
  trail : r.trail = (passed exploreAt bs ++ (stop? exploreAt bs).toList).map exploreAt
  /-- A violation is reported with the bound and the values of the first counterexample. -/
  violated : ∀ j model,
    r.report.verdict = .violated ∧ r.report.bound = j ∧ r.report.counterexample = model ↔
      stop? exploreAt bs = some j ∧
        ∃ o, (exploreAt j).outcome = .ok o ∧ o.answer = .sat ∧ o.model = model
  /-- A failure is that of the first bound that fails, if there is no counterexample before. -/
  failed : ∀ e, r.failure = some e ↔
    ∃ j, stop? exploreAt bs = some j ∧ (exploreAt j).outcome = .error e
  inconclusive : r.failure ≠ none → r.report.verdict = .unknown
  unbounded : r.report.verdict ≠ .violated → r.report.bound = -1 ∧ r.report.counterexample = none
  holds : r.report.verdict = .holds ↔ ∀ b ∈ bs, AnswersWith exploreAt b .unsat
  unknown : r.failure = none ∧ r.report.verdict = .unknown ↔
    stop? exploreAt bs = none ∧ ∃ b ∈ bs, AnswersWith exploreAt b .unknown
  constraintSize : r.report.constraintSize = ((answers r.trail).map (·.2.size)).sum
  separatedSize : r.report.separatedSize = ((answers r.trail).map (·.1)).sum

def including (t : Totals) (rs : List Explored) : Totals where
  constraintSize := t.constraintSize + ((answers rs).map (·.2.size)).sum
  separatedSize := t.separatedSize + ((answers rs).map (·.1)).sum
  gaveUp := t.gaveUp || (answers rs).any fun a => a.2.answer = .unknown

section

variable {exploreAt : Int → Explored} {b j : Int} {bs : List Int} {o : Outcome} {e : Failure}
  {t : Totals}

/-! ## The answers -/

theorem answers_append (rs rs' : List Explored) : answers (rs ++ rs') = answers rs ++ answers rs' :=
  List.filterMap_append ..

theorem answers_of_ok {r : Explored} (h : r.outcome = .ok o) :
    answers [r] = [(r.separatedSize, o)] := by
  simp [answers, h, Except.toOption]

theorem answers_of_error {r : Explored} (h : r.outcome = .error e) : answers [r] = [] := by
  simp [answers, h, Except.toOption]

theorem including_nil : including t [] = t := by
  simp [including, answers]

theorem including_append (rs rs' : List Explored) :
    including t (rs ++ rs') = including (including t rs) rs' := by
  simp [including, answers_append, Nat.add_assoc, Bool.or_assoc]

theorem including_of_ok {r : Explored} (h : r.outcome = .ok o) :
    including t [r] = t.add r.separatedSize o := by
  simp [including, answers_of_ok h, Totals.add]

theorem quiet_iff {r : Explored} : Explored.decisive r = false ↔
    ∃ o, r.outcome = .ok o ∧ (o.answer = .unsat ∨ o.answer = .unknown) := by
  rw [Explored.decisive]
  cases r.outcome with
  | error e => simp
  | ok o => cases h : o.answer <;> simp [h]

theorem decisive_iff {r : Explored} : Explored.decisive r = true ↔
    (∃ e, r.outcome = .error e) ∨ ∃ o, r.outcome = .ok o ∧ o.answer = .sat := by
  rw [Explored.decisive]
  cases r.outcome <;> simp

/-! ## The loop -/

/-- One more bound that is not decisive. -/
theorem sequential_quiet (quiet : Explored.decisive (exploreAt b) = false) (t : Totals)
    (trail : List Explored) :
    sequential exploreAt t trail (b :: bs) =
      sequential exploreAt (including t [exploreAt b]) (trail ++ [exploreAt b]) bs := by
  obtain ⟨o, outcome, answer⟩ := quiet_iff.1 quiet
  have unsat : o.answer ≠ .sat := by
    rcases answer with h | h <;> simp [h]
  rw [including_of_ok outcome]
  simp [sequential, outcome, unsat]

/-- A search passes the bounds that are not decisive, and what is left is at most one bound. -/
theorem sequential_eq (exploreAt : Int → Explored) (t : Totals) (trail : List Explored)
    (bs : List Int) :
    sequential exploreAt t trail bs =
      sequential exploreAt (including t ((passed exploreAt bs).map exploreAt))
        (trail ++ (passed exploreAt bs).map exploreAt) (stop? exploreAt bs).toList := by
  induction bs generalizing t trail with
  | nil => simp [passed, stop?, including_nil]
  | cons b bs ih =>
    cases h : Explored.decisive (exploreAt b) with
    | false =>
      rw [sequential_quiet h, ih, ← including_append]
      simp [passed, stop?, h]
    | true =>
      have none : passed exploreAt (b :: bs) = [] := by simp [passed, h]
      have here : stop? exploreAt (b :: bs) = some b := by simp [stop?, h]
      rw [none, here]
      cases outcome : (exploreAt b).outcome with
      | error e => simp [sequential, outcome, including_nil]
      | ok o =>
        have sat : o.answer = .sat := by simpa [Explored.decisive, outcome] using h
        simp [sequential, outcome, sat, including_nil]

theorem decisive_of_stop (h : stop? exploreAt bs = some j) :
    Explored.decisive (exploreAt j) = true := by
  rw [stop?] at h
  simpa using List.find?_some h

theorem mem_of_stop (h : stop? exploreAt bs = some j) : j ∈ bs :=
  List.mem_of_find?_eq_some h

theorem quiet_of_stop (h : stop? exploreAt bs = none) (hb : b ∈ bs) :
    Explored.decisive (exploreAt b) = false := by
  simpa using List.find?_eq_none.1 h b hb

theorem passed_of_stop (h : stop? exploreAt bs = none) : passed exploreAt bs = bs := by
  rw [passed, List.takeWhile_eq_self_iff]
  intro b hb
  simp [quiet_of_stop h hb]

/-- Some bound gave no answer, if the totals say so. -/
theorem gaveUp_iff (h : stop? exploreAt bs = none) :
    (including {} (bs.map exploreAt)).gaveUp = true ↔
      ∃ b ∈ bs, AnswersWith exploreAt b .unknown := by
  simp only [including, answers, List.any_filterMap, List.any_map, Bool.false_or, List.any_eq_true]
  apply exists_congr
  intro b
  apply and_congr_right
  intro hb
  obtain ⟨o, outcome, -⟩ := quiet_iff.1 (quiet_of_stop h hb)
  simp [AnswersWith, outcome, Except.toOption]

/-- Nothing is decisive, and every bound was explored. -/
theorem concludes_exhausted (h : stop? exploreAt bs = none) :
    Concludes exploreAt bs
      { report := (including {} (bs.map exploreAt)).final, trail := bs.map exploreAt } where
  trail := by simp [h, passed_of_stop h]
  violated j model := by
    simp only [Totals.final, Totals.report, h]
    split <;> simp
  failed e := by simp [h]
  inconclusive := by simp
  unbounded _ := ⟨rfl, rfl⟩
  holds := by
    constructor
    · intro verdict b hb
      obtain ⟨o, outcome, answer | answer⟩ := quiet_iff.1 (quiet_of_stop h hb)
      · exact ⟨o, outcome, answer⟩
      · have gaveUp := (gaveUp_iff h).2 ⟨b, hb, o, outcome, answer⟩
        simp [Totals.final, Totals.report, gaveUp] at verdict
    · intro unsat
      have answered : ¬(including {} (bs.map exploreAt)).gaveUp = true := by
        rw [gaveUp_iff h]
        rintro ⟨b, hb, o, outcome, answer⟩
        obtain ⟨o', outcome', answer'⟩ := unsat b hb
        cases outcome.symm.trans outcome'
        simp [answer] at answer'
      simp [Totals.final, Totals.report, answered]
  unknown := by
    rw [← gaveUp_iff h]
    simp [h, Totals.final, Totals.report]
  constraintSize := by simp [Totals.final, Totals.report, including]
  separatedSize := by simp [Totals.final, Totals.report, including]

/-- The first decisive bound fails. -/
theorem concludes_failed (h : stop? exploreAt bs = some j)
    (outcome : (exploreAt j).outcome = .error e) :
    Concludes exploreAt bs
      (.failed (including {} ((passed exploreAt bs).map exploreAt)) e
        ((passed exploreAt bs ++ [j]).map exploreAt)) where
  trail := by simp [h, Run.failed]
  violated j' model := by
    simp only [Run.failed, Totals.report, h, reduceCtorEq, false_and, Option.some.injEq, false_iff]
    rintro ⟨rfl, o, outcome', -⟩
    simp [outcome] at outcome'
  failed e' := by
    simp [Run.failed, h, outcome]
  inconclusive _ := rfl
  unbounded _ := ⟨rfl, rfl⟩
  holds := by
    simp only [Run.failed, Totals.report, reduceCtorEq, false_iff]
    intro unsat
    obtain ⟨o, outcome', -⟩ := unsat j (mem_of_stop h)
    simp [outcome] at outcome'
  unknown := by simp [Run.failed, h]
  constraintSize := by
    simp [Run.failed, Totals.report, including, answers_append, answers_of_error outcome]
  separatedSize := by
    simp [Run.failed, Totals.report, including, answers_append, answers_of_error outcome]

/-- The first decisive bound has a counterexample. -/
theorem concludes_violated (h : stop? exploreAt bs = some j)
    (outcome : (exploreAt j).outcome = .ok o) (sat : o.answer = .sat) :
    Concludes exploreAt bs
      { report := (including {} ((passed exploreAt bs ++ [j]).map exploreAt)).violation j o.model
        trail := (passed exploreAt bs ++ [j]).map exploreAt } where
  trail := by simp [h]
  violated j' model := by
    simp only [Totals.violation, Totals.report, h, true_and, Option.some.injEq]
    apply and_congr_right
    rintro rfl
    simp [outcome, sat]
  failed e := by
    simp [h, outcome]
  inconclusive := by simp
  unbounded h := absurd rfl h
  holds := by
    simp only [Totals.violation, Totals.report, reduceCtorEq, false_iff]
    intro unsat
    obtain ⟨o', outcome', answer⟩ := unsat j (mem_of_stop h)
    cases outcome.symm.trans outcome'
    simp [sat] at answer
  unknown := by simp [Totals.violation, Totals.report, h]
  constraintSize := by simp [Totals.violation, Totals.report, including]
  separatedSize := by simp [Totals.violation, Totals.report, including]

/-- The report of the search is determined by the answers. -/
theorem concludes_sequential (exploreAt : Int → Explored) (bs : List Int) :
    Concludes exploreAt bs (sequential exploreAt {} [] bs) := by
  rw [sequential_eq]
  cases h : stop? exploreAt bs with
  | none =>
    rw [passed_of_stop h]
    exact concludes_exhausted h
  | some j =>
    rcases decisive_iff.1 (decisive_of_stop h) with ⟨e, outcome⟩ | ⟨o, outcome, sat⟩
    · simpa [sequential, outcome] using concludes_failed h outcome
    · simpa [sequential, outcome, sat, including_append, including_of_ok outcome]
        using concludes_violated h outcome sat

end

/-! ## The search -/

section

variable {m : Automaton} {tr : Encoder} {solver : Solver} {s : Settings} {property : String}
  {negated : Formula}

theorem mem_bounds {b : Int} (nonneg : 0 ≤ s.maxBound) :
    b ∈ bounds s ↔ b ≤ s.maxBound ∧ (if s.iterative then 0 ≤ b else s.maxBound ≤ b) := by
  rw [bounds]
  cases s.iterative with
  | false => simp; omega
  | true =>
    simp only [if_true, steps, List.mem_map, List.mem_range]
    constructor
    · rintro ⟨n, hn, rfl⟩
      exact ⟨by simp; omega, by simp⟩
    · rintro ⟨le, nonneg⟩
      exact ⟨b.toNat, by omega, by simpa using nonneg⟩

theorem run_eq_sequential (nonneg : 0 ≤ s.maxBound) (one : s.workers ≤ 1)
    (parses : negate tr.parse property s.globally = .ok negated) :
    run m tr solver s property =
      sequential (explore m tr solver s.timeBound negated) {} [] (bounds s) := by
  have several : ¬(1 < s.workers ∧ 1 < (bounds s).length) := by omega
  rw [run, if_neg (by omega), parses]
  simp [several]

/-- A search with one worker explores its bounds in increasing order, up to the first that fails or
has a counterexample, and reports what the answers say, whatever they are. A counterexample that is
found by exploring every bound is also found by exploring its bound only. -/
theorem run_concludes (nonneg : 0 ≤ s.maxBound) (one : s.workers ≤ 1)
    (parses : negate tr.parse property s.globally = .ok negated) :
    ((bounds s).Pairwise (· < ·) ∧ ∀ b, b ∈ bounds s ↔
      b ≤ s.maxBound ∧ if s.iterative then 0 ≤ b else s.maxBound ≤ b) ∧
    run m tr solver s property =
      sequential (explore m tr solver s.timeBound negated) {} [] (bounds s) ∧
    (∀ exploreAt, Concludes exploreAt (bounds s) (sequential exploreAt {} [] (bounds s))) ∧
    ∀ i, (run m tr solver s property).report.verdict = .violated →
      (run m tr solver s property).report.bound = i →
      let single := run m tr solver { s with maxBound := i, iterative := false } property
      single.report.verdict = .violated ∧ single.report.bound = i ∧
        single.report.counterexample = (run m tr solver s property).report.counterexample := by
  have eq : run m tr solver s property =
      sequential (explore m tr solver s.timeBound negated) {} [] (bounds s) :=
    run_eq_sequential nonneg one parses
  refine ⟨⟨increasing_bounds s, fun b => mem_bounds nonneg⟩, eq,
    fun exploreAt => concludes_sequential exploreAt (bounds s), ?_⟩
  intro i violated bound single
  rw [eq] at violated bound ⊢
  have all := concludes_sequential (explore m tr solver s.timeBound negated) (bounds s)
  obtain ⟨stop, o, outcome, sat, model⟩ := (all.violated i _).1 ⟨violated, bound, rfl⟩
  have explored : i ≤ s.maxBound ∧ if s.iterative then 0 ≤ i else s.maxBound ≤ i :=
    (mem_bounds nonneg).1 (mem_of_stop stop)
  have i_nonneg : 0 ≤ i := by
    split at explored <;> omega
  have only := concludes_sequential (explore m tr solver s.timeBound negated) [i]
  have stops : stop? (explore m tr solver s.timeBound negated) [i] = some i := by
    simp [stop?, decisive_of_stop stop]
  have alone : single = sequential (explore m tr solver s.timeBound negated) {} [] [i] :=
    run_eq_sequential (s := { s with maxBound := i, iterative := false }) i_nonneg one parses
  rw [alone]
  exact (only.violated i _).2 ⟨stops, o, outcome, sat, model⟩

end

def resting : Automaton where
  stateVars := []
  modeVars := []
  props := []
  init := .top
  modes := [⟨0, "rest", .top, ⟨⟨"t", .real, .bound⟩, [], []⟩, .top⟩]
  jumps := [⟨.top, .top⟩]
  logic := ""

/-- An encoder that leaves everything to the solver. -/
def trusting : Encoder where
  parse _ := .ok (.bool true)
  guess _ _ := .ok ⟨[], [], []⟩
  separate f _ := .ok ⟨f, []⟩
  tabulate _ b := .ok ⟨b, []⟩
  value _ _ _ := .ok .top

def twoJumps : Solver := fun constraints _ =>
  if constraints.length = 11 then .ok { answer := .sat, size := 5, model := some [("tau#2", "1")] }
  else .ok { answer := .unknown, size := constraints.length }

theorem run_twoJumps :
    (run resting trusting twoJumps { maxBound := 4 } "stays").report.bound = 2 ∧
    (run resting trusting twoJumps { maxBound := 2, iterative := false } "stays").report.verdict =
      .violated := by
  have bound : (run resting trusting twoJumps { maxBound := 4 } "stays").report.bound = 2 := by cbv
  obtain ⟨-, -, -, single⟩ := @run_concludes resting trusting twoJumps { maxBound := 4 } "stays"
    (.bool true) (by decide) (by decide) rfl
  exact ⟨bound, (single 2 (by cbv) bound).1⟩

end HybridCheck.Search
