import HybridCheck.Proofs.Partition
import HybridCheck.Proofs.Reading
import HybridCheck.Proofs.Separation

/-!
# Witnesses are Skolem constants

A formula that was read from text is valued in two ways: as it is, with quantifiers over the
instants of the trace, or separated, with a guessed instant in the place of every existential
operator that is reached through conjunctions and disjunctions. Instants that satisfy the separated
formula can be guessed exactly if the formula itself is satisfied. Witnesses are kept by the texts
of subformulas; no two subformulas have one text unless they are the same formula, so none of them
share a witness.
-/

namespace HybridCheck

/-! ## Formulas without folded constraints -/

namespace Formula

variable {P : Var → Prop} {R : String → Prop}

/-- No constraint of a formula was folded to a constant. -/
def Unfolded (f : Formula) : Prop := f.Every (fun g => ∀ b, g ≠ atom (.bool b)) fun _ => True

theorem Unfolded.folded_eq {f : Formula} (h : f.Unfolded) (hf : f.Regular P R) :
    f.folded = f := by
  have all {fs : List Formula} (ih : ∀ f ∈ fs, f.Unfolded → f.Regular P R → f.folded = f)
      (h : ∀ f ∈ fs, f.Unfolded) (hf : ∀ f ∈ fs, f.Regular P R) : foldedAll fs = fs := by
    rw [foldedAll_eq]
    exact (List.map_congr_left fun f hm => ih f hm (h f hm) (hf f hm)).trans (List.map_id' fs)
  induction f using Formula.induct with
  | bool | prop | witness | missing => rfl
  | atom c =>
    rw [folded, IsAtom.canonical hf]
    refine settled_atom fun b hb => h b ?_
    rw [hb]
  | not f ih => rw [folded, ih h hf]
  | and fs ih => rw [folded, all ih (everyAll_iff.1 h) (formedAll_iff.1 hf.2)]
  | or fs ih => rw [folded, all ih (everyAll_iff.1 h) (formedAll_iff.1 hf.2)]
  | implies l r ihl ihr => rw [folded, ihl h.1 hf.1, ihr h.2 hf.2]
  | eventually w f ih => rw [folded, ih h.2 hf.2]
  | always w f ih => rw [folded, ih h.2 hf.2]
  | untl w l r ihl ihr => rw [folded, ihl h.2.1 hf.2.1, ihr h.2.2 hf.2.2]
  | release w l r ihl ihr => rw [folded, ihl h.2.1 hf.2.1, ihr h.2.2 hf.2.2]

theorem Unfolded.normal {f : Formula} (h : f.Unfolded) (hf : f.Regular P R) (negated : Bool) :
    (f.normal negated).Unfolded := by
  have atoms : f.Every (fun g => ∀ c, g = atom c → IsAtom P c) fun w => 0 ≤ w.lower :=
    hf.every (fun _ => nofun) (fun _ _ => nofun) fun c hc c' h => Formula.atom.inj h ▸ hc
  refine ((h.and atoms).normal (fun _ => ⟨nofun, nofun⟩) (fun c hc => ?_) negated).mono
    (fun _ h => h.1) fun _ _ => trivial
  obtain ⟨isAtom, constant⟩ := (hc.2 c rfl).mkNot
  refine ⟨fun b hb => ?_, fun c' h => Formula.atom.inj h ▸ isAtom⟩
  exact constant (fun b hb => hc.1 b (by rw [hb])) b (Formula.atom.inj hb)

mutual

def parts : Formula → List Formula
  | not f => not f :: parts f
  | and fs => and fs :: partsAll fs
  | or fs => or fs :: partsAll fs
  | implies l r => implies l r :: (parts l ++ parts r)
  | eventually w f => eventually w f :: parts f
  | always w f => always w f :: parts f
  | untl w l r => untl w l r :: (parts l ++ parts r)
  | release w l r => release w l r :: (parts l ++ parts r)
  | f => [f]

def partsAll : List Formula → List Formula
  | [] => []
  | f :: fs => parts f ++ partsAll fs

end

theorem mem_partsAll {g : Formula} {fs : List Formula} :
    g ∈ partsAll fs ↔ ∃ f ∈ fs, g ∈ f.parts := by
  induction fs with
  | nil => simp [partsAll]
  | cons f fs ih => simp [partsAll, ih]

/-- What is said of all subformulas is said of every part that is no connective. -/
theorem every_of_parts {leaf : Formula → Prop} {f : Formula} (h : ∀ g ∈ f.parts, leaf g) :
    f.Every leaf fun _ => True := by
  induction f using Formula.induct with
  | bool | prop | atom | witness | missing => exact h _ (by simp [parts])
  | not f ih => exact ih fun g hg => h g (by simp [parts, hg])
  | and fs ih | or fs ih =>
    rw [Every, everyAll_iff]
    exact fun f hf => ih f hf fun g hg =>
      h g (by rw [parts]; exact List.mem_cons_of_mem _ (mem_partsAll.2 ⟨f, hf, hg⟩))
  | implies l r ihl ihr =>
    exact ⟨ihl fun g hg => h g (by simp [parts, hg]), ihr fun g hg => h g (by simp [parts, hg])⟩
  | eventually w f ih | always w f ih => exact ⟨trivial, ih fun g hg => h g (by simp [parts, hg])⟩
  | untl w l r ihl ihr | release w l r ihl ihr =>
    exact ⟨trivial, ihl fun g hg => h g (by simp [parts, hg]),
      ihr fun g hg => h g (by simp [parts, hg])⟩

/-- A regular formula without folded constraints. -/
structure Definite (P : Var → Prop) (R : String → Prop) (f : Formula) : Prop where
  regular : f.Regular P R
  unfolded : f.Unfolded

theorem inherited_definite : Inherited (IsAtom P) R (Definite P R) where
  formed _ h := h.regular
  and _ h f hf := ⟨formedAll_iff.1 h.regular.2 f hf, everyAll_iff.1 h.unfolded f hf⟩
  or _ h f hf := ⟨formedAll_iff.1 h.regular.2 f hf, everyAll_iff.1 h.unfolded f hf⟩

/-- Formulas without folded constraints that have one text are the same formula. -/
theorem Definite.eq_of_text (hv : Vocabulary P R) {f g : Formula} (hf : f.Definite P R)
    (hg : g.Definite P R) (h : f.text = g.text) : f = g := by
  have := folded_of_text hv hf.regular.over hg.regular.over h
  rwa [hf.unfolded.folded_eq hf.regular, hg.unfolded.folded_eq hg.regular] at this

theorem Definite.part {f g : Formula} (hf : f.Definite P R) (hg : g ∈ f.parts) :
    g.Definite P R := by
  have this := hf
  obtain ⟨regular, unfolded⟩ := hf
  induction f using Formula.induct with
  | bool | prop | atom | witness | missing =>
    exact List.mem_singleton.1 hg ▸ this
  | not f ih =>
    rw [parts, List.mem_cons] at hg
    rcases hg with rfl | hg
    · exact this
    · exact ih hg ⟨regular, unfolded⟩ regular unfolded
  | and fs ih | or fs ih =>
    rw [parts, List.mem_cons] at hg
    rcases hg with rfl | hg
    · exact this
    · obtain ⟨f, hm, hg⟩ := mem_partsAll.1 hg
      have regular := formedAll_iff.1 regular.2 f hm
      have unfolded := everyAll_iff.1 unfolded f hm
      exact ih f hm hg ⟨regular, unfolded⟩ regular unfolded
  | implies l r ihl ihr =>
    rw [parts, List.mem_cons, List.mem_append] at hg
    rcases hg with rfl | hg | hg
    · exact this
    · exact ihl hg ⟨regular.1, unfolded.1⟩ regular.1 unfolded.1
    · exact ihr hg ⟨regular.2, unfolded.2⟩ regular.2 unfolded.2
  | eventually w f ih | always w f ih =>
    rw [parts, List.mem_cons] at hg
    rcases hg with rfl | hg
    · exact this
    · exact ih hg ⟨regular.2, unfolded.2⟩ regular.2 unfolded.2
  | untl w l r ihl ihr | release w l r ihl ihr =>
    rw [parts, List.mem_cons, List.mem_append] at hg
    rcases hg with rfl | hg | hg
    · exact this
    · exact ihl hg ⟨regular.2.1, unfolded.2.1⟩ regular.2.1 unfolded.2.1
    · exact ihr hg ⟨regular.2.2, unfolded.2.2⟩ regular.2.2 unfolded.2.2

end Formula

/-! ## Values for witnesses -/

open scoped Classical in
noncomputable def Env.guess (ρ : Env) (x : Var → ℝ) : Env :=
  { ρ with now := fun v => if ∃ n, v = Symbol.witness n then .number (x v) else ρ.now v }

namespace Env

variable {ρ : Env} {x : Var → ℝ}

theorem amount_guess (n : Int) :
    (Term.var (Symbol.witness n)).amount (ρ.guess x) = x (Symbol.witness n) := by
  simp [Term.amount, Term.eval, guess]

theorem guess_now {v : Var} (h : ∀ n, v ≠ Symbol.witness n) : (ρ.guess x).now v = ρ.now v := by
  simp [guess, h]

theorem Sorted.guess (h : ρ.Sorted) (x : Var → ℝ) : (ρ.guess x).Sorted := by
  refine ⟨fun v => ?_, h.2⟩
  by_cases hv : ∃ n, v = Symbol.witness n
  · obtain ⟨n, rfl⟩ := hv
    exact ⟨x (Symbol.witness n), by simp [Env.guess]⟩
  · rw [guess_now (not_exists.1 hv)]
    exact h.1 v

theorem amount_stop_guess (k : Int) :
    (Timeline.stop k).amount (ρ.guess x) = (Timeline.stop k).amount ρ := by
  simp only [Timeline.stop, Term.amount, Term.eval, guess_now (Symbol.tau_ne_witness k)]

theorem amount_start_guess (k : Int) :
    (Timeline.start k).amount (ρ.guess x) = (Timeline.start k).amount ρ := by
  unfold Timeline.start
  split
  · rfl
  · exact amount_stop_guess (k - 1)

end Env

namespace BaseValuation

/-- A trace does not depend on the witnesses if no cell mentions one. -/
theorem trace_guess {bv : BaseValuation} {N : Nat} {ρ : Env} (x : Var → ℝ)
    (free : ∀ key row, bv.rows.get? key = some row → ∀ c ∈ row, c.flowFree = true ∧
      ∀ n, c.mentions (Symbol.witness n) = false) :
    bv.trace N (ρ.guess x) = bv.trace N ρ := by
  have contains (k : Nat) (u : ℝ) :
      Timeline.Contains (ρ.guess x) N k u ↔ Timeline.Contains ρ N k u := by
    rw [Timeline.Contains, Timeline.Contains, Env.amount_start_guess, Env.amount_stop_guess]
  have cell {c : Term} (hflow : c.flowFree = true)
      (hfree : ∀ n, c.mentions (Symbol.witness n) = false) (y : Value) :
      c.Holds ((ρ.guess x).set Symbol.offset y) ↔ c.Holds (ρ.set Symbol.offset y) := by
    have agree : Term.Agree ((ρ.guess x).set Symbol.offset y) (ρ.set Symbol.offset y) c := by
      refine ⟨fun v hv => ?_, fun _ _ => rfl⟩
      by_cases ho : v = Symbol.offset
      · subst ho
        simp
      · rw [Env.set_now_of_ne _ _ ho, Env.set_now_of_ne _ _ ho]
        refine Env.guess_now fun n hn => ?_
        rw [hn, hfree] at hv
        cases hv
    rw [Term.Holds, Term.eval_congr hflow agree]
  have shows (key : String) (u : ℝ) : bv.Shows N (ρ.guess x) key u ↔ bv.Shows N ρ key u := by
    refine exists_congr fun row => exists_congr fun k => exists_congr fun c =>
      and_congr_right fun hrow => and_congr_right fun hc => ?_
    obtain ⟨hflow, hfree⟩ := free key row hrow c (List.mem_of_getElem? hc)
    rw [contains, cell hflow hfree, Env.amount_start_guess]
  simp only [trace, Env.amount_stop_guess, shows]

end BaseValuation

namespace Formula

variable {P : Var → Prop} {R : String → Prop} {Q : Formula → Prop} {N : Nat} {bv : BaseValuation}

/-- What guessing and separating make of a formula in normal form. -/
structure Skolemized (Q : Formula → Prop) (N : Nat) (f : Formula) (g : Guessed) (s : Separated) :
    Prop where
  numbered : Numbered ⟨N⟩ (g.guesses, g.constraints)
  kept : Kept Q g.guesses s.sub
  separates : Separates g.guesses s.sub f s.top

/-- A formula can be partitioned, and witnesses can be guessed for it. -/
theorem Over.guess {f : Formula} (h : f.Over P R) {leaf : Formula → Prop}
    (hl : f.nnf.Every leaf fun w => 0 ≤ w.lower) (N : Nat) :
    ∃ g, f.guess ⟨N⟩ = .ok g ∧ Collects leaf [] f.nnf g.partition := by
  have none : ∀ e ∈ ([] : Partition), IsEntry leaf e := by simp
  obtain ⟨p, hp, collects⟩ := (h.normal false).collectAtoms hl _ none
  exact ⟨_, Attempt.bind_eq_ok.2 ⟨p, hp, rfl⟩, collects⟩

theorem Regular.guess {f : Formula} (h : f.Regular P R) {leaf : Formula → Prop}
    (hl : f.nnf.Every leaf fun w => 0 ≤ w.lower) (N : Nat) :
    ∃ g, f.guess ⟨N⟩ = .ok g ∧ Collects leaf [] f.nnf g.partition :=
  h.over.guess hl N

theorem skolemized_of_guess {f : Formula} {g : Guessed} (h : f.guess ⟨N⟩ = .ok g)
    (hand : ∀ fs, Q (and fs) → ∀ f ∈ fs, Q f) (hor : ∀ fs, Q (or fs) → ∀ f ∈ fs, Q f)
    (hf : Q f.nnf) : Skolemized Q N f.nnf g (f.separate g.guesses) := by
  obtain ⟨p, -, h⟩ := Attempt.bind_eq_ok.1 h
  cases h
  have kept : Kept Q (guessFrom ⟨N⟩ ([], []) f.nnf).1 [] := fun _ _ h => by simp at h
  obtain ⟨kept, -, separates⟩ := separateFrom_spec hand hor hf kept
  exact ⟨numbered_guessFrom f.nnf numbered_nil, kept, separates⟩

/-- The value of a separated formula at a point says that it holds there with the instants that were
guessed. -/
theorem valuation_separated {ρ : Env} {σ : Trace} (hbv : bv.Describes N ρ σ) (hρ : ρ.Typed)
    {f : Formula} {g : Guessed} (hg : f.guess ⟨N⟩ = .ok g)
    (hf : f.nnf.Every (Tabulated bv fun _ => False) fun w => 0 ≤ w.lower) {a : Rat} (h0 : 0 ≤ a)
    (ha : (a : ℝ) ≤ σ.length) :
    ∃ u, (f.separate g.guesses).valuation (Window.point a) bv = .ok u ∧
      u.Constraint Term.noFlow ∧ (u.Holds ρ ↔ (f.separate g.guesses).top.Holds
        (σ.guessed (f.separate g.guesses).sub fun w => (Term.var w).amount ρ) a) := by
  obtain ⟨numbered, kept, separates⟩ := skolemized_of_guess hg (fun _ => everyAll_iff.1)
    (fun _ => everyAll_iff.1) hf
  exact valuation_point (answers_separated hbv numbered kept separates hf) hρ h0 ha

/-- The constraints on witnesses say that they lie in the trace. -/
theorem constraints_hold {cs : List Term} {guesses : Guesses} (h : Numbered ⟨N⟩ (guesses, cs))
    {ρ : Env} (hρ : ρ.Typed)
    (inside : ∀ i : Nat, 0 ≤ (Term.var (Symbol.witness i)).amount ρ ∧
      (Term.var (Symbol.witness i)).amount ρ ≤ (Timeline.stop N).amount ρ) :
    ∀ c ∈ cs, c.Holds ρ := by
  intro c hc
  obtain ⟨i, rfl⟩ := h.placed c hc
  exact ((domain_spec (Term.amount_var rfl)).2 ρ hρ).2 (inside i)

/-- Instants for the witnesses of a formula can be guessed exactly if the formula itself is
satisfied, and no two of its subformulas share a witness. -/
theorem separation_skolemizes {scope : Scope} {s : String} {f : Formula}
    (identifiers : ∀ name d, scope.get? name = some d → isIdentifier name = true)
    (read : ofText scope s = .ok f) (unfolded : f.Unfolded) (N : Nat) :
    ∃ g, f.guess ⟨N⟩ = .ok g ∧
      (∀ φ ∈ f.nnf.parts, ∀ ψ ∈ f.nnf.parts, ∀ w, g.guesses.get? φ.text = some w →
        g.guesses.get? ψ.text = some w → φ = ψ) ∧
      ∀ sig : Signal, (∀ e ∈ g.partition, ∀ k ∈ steps (N + 1), ∃ c,
          BaseValuation.cell sig e.2 k = .ok c ∧ IsCell c ∧
            ∀ n, c.mentions (Symbol.witness n) = false) →
        ∃ bv, BaseValuation.tabulate g.partition ⟨N⟩ sig = .ok bv ∧
          ∀ ρ : Env, ρ.Sorted → Timeline.Increasing ρ N →
          ∀ a : Rat, 0 ≤ a → (a : ℝ) ≤ (Timeline.stop N).amount ρ →
            ∃ u v, (f.separate g.guesses).valuation (Window.point a) bv = .ok u ∧
              Separated.valuation ⟨f.nnf, []⟩ (Window.point a) bv = .ok v ∧
              ((∃ x : Var → ℝ, (∀ c ∈ g.constraints, c.Holds (ρ.guess x)) ∧
                u.Holds (ρ.guess x)) ↔ v.Holds ρ) := by
  have hv := Scope.vocabulary identifiers
  have regular := regular_of_ofText read
  have definite : f.nnf.Definite scope.Declares scope.Proposes :=
    ⟨regular.normal false, unfolded.normal regular false⟩
  have parts : f.nnf.Every (fun _ => True) fun w => 0 ≤ w.lower :=
    definite.regular.every (fun _ => trivial) (fun _ _ => trivial) fun _ _ => trivial
  obtain ⟨g, hg, collects⟩ := regular.guess parts N
  obtain ⟨numbered, kept, separates⟩ := skolemized_of_guess hg inherited_definite.and
    inherited_definite.or definite
  refine ⟨g, hg, fun φ hφ ψ hψ w hw hw' => ?_, fun sig cells => ?_⟩
  · have htext := numbered.unique _ _ _ hw hw'
    exact (definite.part hφ).eq_of_text hv (definite.part hψ) htext
  obtain ⟨bv, made, rows⟩ := BaseValuation.exists_tabulate fun e he k hk => by
    obtain ⟨c, hc, -⟩ := cells e he k hk
    exact ⟨c, hc⟩
  have tabulated := tabulated_of_listed rows collects.listed
  have isCell : ∀ e ∈ g.partition, ∀ k ∈ steps (N + 1), ∀ c,
      BaseValuation.cell sig e.2 k = .ok c → IsCell c ∧
        ∀ n, c.mentions (Symbol.witness n) = false := by
    intro e he k hk c hc
    obtain ⟨c', hc', cell⟩ := cells e he k hk
    rw [hc] at hc'
    cases hc'
    exact cell
  have free : ∀ key row, bv.rows.get? key = some row → ∀ c ∈ row, c.flowFree = true ∧
      ∀ n, c.mentions (Symbol.witness n) = false := by
    intro key row hrow c hc
    obtain ⟨e, he, hmade⟩ := (BaseValuation.rows_of_tabulate made).2 key row hrow
    obtain ⟨k, hk, hcell⟩ := Attempt.mem_of_mapM (BaseValuation.row_eq_ok.1 hmade) hc
    obtain ⟨cell, fresh⟩ := isCell _ he k hk c hcell
    exact ⟨Term.flowFree_of_plain cell.constraint.sorted, fresh⟩
  refine ⟨bv, made, fun ρ hρ inc a h0 ha => ?_⟩
  have describes (x : Var → ℝ) : bv.Describes N (ρ.guess x) (bv.trace N ρ) := by
    have inc' : Timeline.Increasing (ρ.guess x) N := by
      simpa only [Timeline.Increasing, Env.amount_stop_guess] using inc
    have := BaseValuation.describes_trace made
      (fun e he k hk c hc => (isCell e he k hk c hc).1) inc'
    rwa [BaseValuation.trace_guess x free] at this
  have alike : Alike (Definite scope.Declares scope.Proposes) (bv.trace N ρ) := by
    intro φ ψ hφ hψ htext
    rw [hφ.eq_of_text hv hψ htext]
    exact Same.refl _
  have stop0 : (0 : ℝ) ≤ a := by exact_mod_cast h0
  have value (x : Var → ℝ) :=
    valuation_separated (describes x) (hρ.guess x).typed hg tabulated h0 ha
  obtain ⟨u, hu, -, -⟩ := value fun _ => 0
  have answers : Answers ρ (bv.trace N ρ) f.nnf (Separated.valueAt ⟨f.nnf, []⟩ bv) :=
    value_spec (BaseValuation.describes_trace made
      (fun e he k hk c hc => (isCell e he k hk c hc).1) inc) (fun _ h => h.elim) tabulated
  obtain ⟨v, hv', -, truth⟩ := valuation_point (s := ⟨f.nnf, []⟩) answers hρ.typed h0 ha
  have separated (x : Var → ℝ) : u.Holds (ρ.guess x) ↔ (f.separate g.guesses).top.Holds
      ((bv.trace N ρ).guessed (f.separate g.guesses).sub
        fun w => (Term.var w).amount (ρ.guess x)) a := by
    obtain ⟨u', hu', -, holds⟩ := value x
    rw [hu] at hu'
    cases hu'
    exact holds
  refine ⟨u, v, hu, hv', ?_⟩
  rw [truth]
  constructor
  · rintro ⟨x, -, holds⟩
    exact holds_of_separates inherited_definite alike numbered kept stop0 ha definite separates
      ((separated x).1 holds)
  · intro holds
    have length0 : 0 ≤ (bv.trace N ρ).length := stop0.trans ha
    obtain ⟨x, inside, met⟩ := Formula.exists_guess inherited_definite kept stop0 length0
    refine ⟨x, constraints_hold numbered (hρ.guess x).typed fun i => ?_, (separated x).2 ?_⟩
    · rw [Env.amount_guess, Env.amount_stop_guess]
      exact inside _
    · refine Separates.holds inherited_definite alike numbered kept stop0 ha (fun i φ hφ h => ?_)
        definite separates holds
      rw [Env.amount_guess]
      exact met _ φ hφ h

/-! ## A formula read from text -/

def patienceScope : Scope :=
  [("p", { sort := .bool, isProp := true }), ("x", { sort := .bool })]

theorem patience_cell (a : Atomic) (k : Int) : ∃ c, BaseValuation.cell patience a k = .ok c ∧
    IsCell c ∧ ∀ n, c.mentions (Symbol.witness n) = false := by
  cases a with
  | prop name => exact ⟨_, rfl, ⟨Term.constraint_bool _, rfl, fun n => rfl⟩, fun n => rfl⟩
  | constraint c =>
    have free (v : Var) (hv : v ≠ Symbol.offset) :
        (Term.cmp .ge (.var Symbol.offset) (.num .real 1)).mentions v = false := by
      refine (Term.hereditary_not_mentions _ _ (.cmp .ge) rfl).2 fun a ha => ?_
      obtain rfl | rfl : a = .var Symbol.offset ∨ a = .num .real 1 := by
        simpa [Term.operands] using ha
      · exact Term.mentions_var_of_ne hv
      · rfl
    refine ⟨_, rfl, ⟨⟨rfl, rfl⟩, rfl, fun n => free _ ?_⟩, fun n => free _ ?_⟩
    · exact (Symbol.offset_ne_instant n).symm
    · intro h
      cases congrArg Var.role h

/-- A single step of one unit of time: an instant at which the constraint holds can be guessed. -/
theorem skolemized_patient : ofText patienceScope "p U x" = .ok patient ∧
    ∃ g bv u v, patient.guess ⟨0⟩ = .ok g ∧
      BaseValuation.tabulate g.partition ⟨0⟩ patience = .ok bv ∧
      (patient.separate g.guesses).valuation (Window.point 0) bv = .ok u ∧
      Separated.valuation ⟨patient.nnf, []⟩ (Window.point 0) bv = .ok v ∧
      ((∃ x : Var → ℝ,
        (∀ c ∈ g.constraints, c.Holds ((Env.blank.set (Symbol.tau 0) (.number 1)).guess x)) ∧
          u.Holds ((Env.blank.set (Symbol.tau 0) (.number 1)).guess x)) ↔
        v.Holds (Env.blank.set (Symbol.tau 0) (.number 1))) := by
  have read : ofText patienceScope "p U x" = .ok patient := by cbv
  have stop : (Timeline.stop 0).amount (Env.blank.set (Symbol.tau 0) (.number 1)) = 1 := by
    simp [Timeline.stop, Term.amount, Term.eval]
  have sorted : (Env.blank.set (Symbol.tau 0) (.number 1)).Sorted :=
    Env.blank_sorted.set ⟨1, rfl⟩
  have identifiers (name : String) (d : Decl) (h : patienceScope.get? name = some d) :
      isIdentifier name = true := by
    have all : ∀ e ∈ patienceScope, isIdentifier e.1 = true := by decide
    exact all _ (Table.mem_of_get? h)
  have unfolded : patient.Unfolded := by
    refine ⟨trivial, fun b h => ?_, fun b h => ?_⟩
    · cases h
    · cases Formula.atom.inj h
  obtain ⟨g, hg, -, values⟩ := separation_skolemizes identifiers read unfolded 0
  obtain ⟨bv, made, values⟩ := values patience fun e _ k _ => patience_cell e.2 k
  have increasing : Timeline.Increasing (Env.blank.set (Symbol.tau 0) (.number 1)) 0 :=
    ⟨by norm_num [stop], fun k hk => absurd hk k.not_lt_zero⟩
  obtain ⟨u, v, hu, hv, holds⟩ := values _ sorted increasing 0 le_rfl (by norm_num [stop])
  exact ⟨read, g, bv, u, v, hg, made, hu, hv, holds⟩

end Formula

end HybridCheck
