import HybridCheck.Proofs.Temporal

/-!
# Negation normal form

A signal gives a state and the truth of the propositions to each instant. On it the normal form of
a formula holds where the formula does, and that of its negation where the formula does not,
whatever its windows are: negating turns every temporal operator into its dual around the same
window. In a normal form negation stands above propositions only, and a normal form is its own.
-/

namespace HybridCheck

/-- A signal: the state and the propositions that hold at each instant. -/
structure Course where
  state : ℝ → Env
  prop : String → ℝ → Prop

/-- The trace that a signal is up to the instant `D`. Constraints are read in its states. -/
def Course.trace (σ : Course) (D : ℝ) : Trace where
  length := D
  prop := σ.prop
  atom c t := c.Holds (σ.state t)

namespace Formula

/-- A leaf of a formula that someone has written: no guessed instant and no missing part. -/
def IsWritten : Formula → Prop
  | witness _ | missing => False
  | _ => True

mutual

/-- Whether a formula has no implications, and negations above propositions only. -/
def isNormal : Formula → Bool
  | not (prop _) => true
  | not _ | implies .. => false
  | and fs | or fs => allNormal fs
  | eventually _ f | always _ f => isNormal f
  | untl _ l r | release _ l r => isNormal l && isNormal r
  | bool _ | prop _ | atom _ | witness _ | missing => true

/-- Whether several formulas have no implications, and negations above propositions only. -/
def allNormal : List Formula → Bool
  | [] => true
  | f :: fs => isNormal f && allNormal fs

end

theorem allNormal_iff {fs : List Formula} :
    allNormal fs = true ↔ ∀ f ∈ fs, f.isNormal = true := by
  induction fs with
  | nil => simp [allNormal]
  | cons f fs ih => simp [allNormal, ih]

theorem isNormal_normal {f : Formula} (h : f.Every IsWritten fun _ => True) (negated : Bool) :
    (f.normal negated).isNormal = true := by
  have all {fs : List Formula} (h : EveryAll IsWritten (fun _ => True) fs) (negated : Bool)
      (ih : ∀ f ∈ fs, f.Every IsWritten (fun _ => True) → (f.normal negated).isNormal = true) :
      allNormal (normalAll negated fs) = true := by
    rw [normalAll_eq, allNormal_iff]
    simpa using fun f hf => ih f hf (everyAll_iff.1 h f hf)
  induction f using induct generalizing negated with
  | bool => rfl
  | prop | atom => cases negated <;> rfl
  | witness | missing => exact h.elim
  | not f ih => exact ih h _
  | and fs ih | or fs ih =>
    cases negated <;> exact all h _ fun f hf hw => ih f hf hw _
  | implies l r ihl ihr =>
    cases negated <;> simp [normal, isNormal, allNormal, ihl h.1, ihr h.2]
  | eventually w f ih | always w f ih => cases negated <;> exact ih h.2 _
  | untl w l r ihl ihr | release w l r ihl ihr =>
    cases negated <;> simp [normal, isNormal, ihl h.2.1, ihr h.2.2]

/-- What is in normal form already stays as it is. -/
theorem normal_of_isNormal {f : Formula} (h : f.isNormal = true) : f.normal false = f := by
  have all {fs : List Formula} (h : allNormal fs = true)
      (ih : ∀ f ∈ fs, f.isNormal = true → f.normal false = f) : normalAll false fs = fs := by
    rw [normalAll_eq]
    exact (List.map_congr_left fun f hf => ih f hf (allNormal_iff.1 h f hf)).trans fs.map_id'
  induction f using induct with
  | bool b => simp [normal]
  | prop | atom | witness | missing => rfl
  | not f ih => cases f <;> simp_all [isNormal, normal]
  | and fs ih => simp only [normal, Bool.false_eq_true, if_false, all h ih]
  | or fs ih => simp only [normal, Bool.false_eq_true, if_false, all h ih]
  | implies => simp [isNormal] at h
  | eventually w f ih | always w f ih =>
    rw [isNormal] at h
    simp only [normal, Bool.false_eq_true, if_false, ih h]
  | untl w l r ihl ihr | release w l r ihl ihr =>
    rw [isNormal, Bool.and_eq_true] at h
    simp only [normal, Bool.false_eq_true, if_false, ihl h.1, ihr h.2]

/-! ## Dual operators -/

variable {σ : Trace} {w : Window} {l r : Formula} {t : ℝ}

theorem holds_not_eventually :
    (not (eventually w r)).Holds σ t ↔ (always w (not r)).Holds σ t := by
  simp only [Holds, not_exists, not_and]

theorem holds_not_untl :
    (not (untl w l r)).Holds σ t ↔ (release w (not l) (not r)).Holds σ t := by
  simp only [Holds, not_exists, not_and]
  refine forall₃_congr fun u _ _ => ?_
  rw [← imp_iff_not_or]
  simp only [not_forall, exists_prop]

/-! ## Normal forms are exact -/

/-- The normal form of a written formula means what the formula means at every instant of every
signal, and the normal form of its negation the contrary, windows being cut at the end, where the
operators are each other's duals. It has no implications and negates propositions only, and
normalising it again changes nothing. -/
theorem nnf_exact {f : Formula} (written : f.Every IsWritten fun _ => True) :
    (∀ (σ : Course) (D t : ℝ),
      (f.nnf.Holds (σ.trace D) t ↔ f.Holds (σ.trace D) t) ∧
        ((not f).nnf.Holds (σ.trace D) t ↔ ¬f.Holds (σ.trace D) t) ∧
        ∀ w l, ((not (eventually w f)).Holds (σ.trace D) t ↔
            (always w (not f)).Holds (σ.trace D) t) ∧
          ((not (untl w l f)).Holds (σ.trace D) t ↔
            (release w (not l) (not f)).Holds (σ.trace D) t)) ∧
      (f.nnf.isNormal = true ∧ (not f).nnf.isNormal = true) ∧ f.nnf.nnf = f.nnf := by
  have normal := isNormal_normal written
  refine ⟨fun σ D t => ?_, ⟨normal false, normal true⟩, normal_of_isNormal (normal false)⟩
  have means : (f.nnf.Holds (σ.trace D) t ↔ f.Holds (σ.trace D) t) ∧
      ((not f).nnf.Holds (σ.trace D) t ↔ ¬f.Holds (σ.trace D) t) := by
    -- no window leads out of all of time, so nothing is asked of the windows
    refine holds_normal_on Set.ordConnected_univ (written.mono ?_ ?_) (Set.mem_univ t)
    · exact fun _ _ c _ t _ => Term.holds_mkNot
    · exact fun _ _ _ _ u _ _ => Set.mem_univ u
  exact ⟨means.1, means.2, fun w l => ⟨holds_not_eventually, holds_not_untl⟩⟩

/-- That `p` does not lead up to `q` is a release of the negations. -/
theorem nnf_exact_untl :
    (untl .unbounded (prop "p") (prop "q")).Every IsWritten (fun _ => True) ∧
      ∀ (σ : Course) (D t : ℝ), (release .unbounded (not (prop "p")) (not (prop "q"))).Holds
        (σ.trace D) t ↔ ¬(untl .unbounded (prop "p") (prop "q")).Holds (σ.trace D) t := by
  have written : (untl .unbounded (prop "p") (prop "q")).Every IsWritten (fun _ => True) :=
    ⟨trivial, trivial, trivial⟩
  exact ⟨written, fun σ D t => ((nnf_exact written).1 σ D t).2.1⟩

end Formula

end HybridCheck
