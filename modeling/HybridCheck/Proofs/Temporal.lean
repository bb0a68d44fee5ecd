import HybridCheck.Formula.Basic
import HybridCheck.Proofs.Constraint
import Mathlib.Tactic.Linarith
import Mathlib.Order.Interval.Set.OrdConnected

/-!
# The meaning of formulas

A trace runs from zero to its length and says at which instants propositions, constraints and
witnesses hold. Formulas are read on it over real time: windows are cut at the end of the trace, the
left side of an until has to hold from now up to and without the instant at which the right side
holds, and a release is the dual of that. A missing part holds nowhere.
-/

namespace HybridCheck

/-- What formulas are read on. -/
structure Trace where
  length : ℝ
  prop : String → ℝ → Prop
  atom : Term → ℝ → Prop
  witness : Var → ℝ → Prop := fun _ _ => False

def Window.Covers (w : Window) (t u : ℝ) : Prop :=
  (if w.leftOpen then t + w.lower < u else t + w.lower ≤ u) ∧
    match w.hi with
    | none => True
    | some h => if w.rightOpen then u < t + h else u ≤ t + h

theorem Window.Covers.nonneg {w : Window} {t u : ℝ} (h : w.Covers t u) (hw : 0 ≤ w.lower)
    (ht : 0 ≤ t) : 0 ≤ u := by
  have hw : (0 : ℝ) ≤ w.lower := by exact_mod_cast hw
  have hlow := h.1
  split at hlow <;> linarith

namespace Formula

mutual

def Holds (σ : Trace) : Formula → ℝ → Prop
  | bool b, _ => b = true
  | prop name, t => σ.prop name t
  | atom c, t => σ.atom c t
  | not f, t => ¬Holds σ f t
  | and fs, t => HoldAll σ fs t
  | or fs, t => HoldSome σ fs t
  | implies l r, t => Holds σ l t → Holds σ r t
  | eventually w f, t => ∃ u, w.Covers t u ∧ u ≤ σ.length ∧ Holds σ f u
  | always w f, t => ∀ u, w.Covers t u → u ≤ σ.length → Holds σ f u
  | untl w l r, t => ∃ u, w.Covers t u ∧ u ≤ σ.length ∧ Holds σ r u ∧
      ∀ v, t ≤ v → v < u → Holds σ l v
  | release w l r, t => ∀ u, w.Covers t u → u ≤ σ.length →
      Holds σ r u ∨ ∃ v, t ≤ v ∧ v < u ∧ Holds σ l v
  | witness w, t => σ.witness w t
  | missing, _ => False

def HoldAll (σ : Trace) : List Formula → ℝ → Prop
  | [], _ => True
  | f :: fs, t => Holds σ f t ∧ HoldAll σ fs t

def HoldSome (σ : Trace) : List Formula → ℝ → Prop
  | [], _ => False
  | f :: fs, t => Holds σ f t ∨ HoldSome σ fs t

end

theorem holdAll_iff {σ : Trace} {fs : List Formula} {t : ℝ} :
    HoldAll σ fs t ↔ ∀ f ∈ fs, Holds σ f t := by
  induction fs with
  | nil => simp [HoldAll]
  | cons f fs ih => simp [HoldAll, ih]

theorem holdSome_iff {σ : Trace} {fs : List Formula} {t : ℝ} :
    HoldSome σ fs t ↔ ∃ f ∈ fs, Holds σ f t := by
  induction fs with
  | nil => simp [HoldSome]
  | cons f fs ih => simp [HoldSome, ih]

theorem holds_and {σ : Trace} {fs : List Formula} {t : ℝ} :
    (and fs).Holds σ t ↔ ∀ f ∈ fs, f.Holds σ t := by
  rw [Holds, holdAll_iff]

theorem holds_or {σ : Trace} {fs : List Formula} {t : ℝ} :
    (or fs).Holds σ t ↔ ∃ f ∈ fs, f.Holds σ t := by
  rw [Holds, holdSome_iff]

/-! ## Parts of formulas -/

mutual

/-- Every part of a formula that is no connective satisfies `leaf`, and every window `window`. -/
def Every (leaf : Formula → Prop) (window : Window → Prop) : Formula → Prop
  | not f => Every leaf window f
  | and fs | or fs => EveryAll leaf window fs
  | implies l r => Every leaf window l ∧ Every leaf window r
  | eventually w f | always w f => window w ∧ Every leaf window f
  | untl w l r | release w l r => window w ∧ Every leaf window l ∧ Every leaf window r
  | bool b => leaf (bool b)
  | prop name => leaf (prop name)
  | atom c => leaf (atom c)
  | witness w => leaf (witness w)
  | missing => leaf missing

def EveryAll (leaf : Formula → Prop) (window : Window → Prop) : List Formula → Prop
  | [] => True
  | f :: fs => Every leaf window f ∧ EveryAll leaf window fs

end

theorem everyAll_iff {leaf : Formula → Prop} {window : Window → Prop} {fs : List Formula} :
    EveryAll leaf window fs ↔ ∀ f ∈ fs, Every leaf window f := by
  induction fs with
  | nil => simp [EveryAll]
  | cons f fs ih => simp [EveryAll, ih]

/-- Induction over formulas, the operands of a conjunction or disjunction taken one by one. -/
@[elab_as_elim]
theorem induct {motive : Formula → Prop} (bool : ∀ b, motive (.bool b))
    (prop : ∀ name, motive (.prop name)) (atom : ∀ c, motive (.atom c))
    (not : ∀ f, motive f → motive (.not f))
    (and : ∀ fs, (∀ f ∈ fs, motive f) → motive (.and fs))
    (or : ∀ fs, (∀ f ∈ fs, motive f) → motive (.or fs))
    (implies : ∀ l r, motive l → motive r → motive (.implies l r))
    (eventually : ∀ w f, motive f → motive (.eventually w f))
    (always : ∀ w f, motive f → motive (.always w f))
    (untl : ∀ w l r, motive l → motive r → motive (.untl w l r))
    (release : ∀ w l r, motive l → motive r → motive (.release w l r))
    (witness : ∀ w, motive (.witness w)) (missing : motive .missing) (f : Formula) :
    motive f := by
  induction h : sizeOf f using Nat.strongRecOn generalizing f with
  | ind n ih =>
    subst h
    have member {fs : List Formula} {f : Formula} (hf : f ∈ fs) := List.sizeOf_lt_of_mem hf
    cases f with
    | bool b => exact bool b
    | prop name => exact prop name
    | atom c => exact atom c
    | witness w => exact witness w
    | missing => exact missing
    | not f => exact not f (ih _ (by simp +arith) f rfl)
    | and fs =>
      refine and fs fun f hf => ih _ ?_ f rfl
      have := member hf
      simp +arith
      omega
    | or fs =>
      refine or fs fun f hf => ih _ ?_ f rfl
      have := member hf
      simp +arith
      omega
    | implies l r =>
      exact implies l r (ih _ (by simp +arith) l rfl) (ih _ (by simp +arith) r rfl)
    | eventually w f => exact eventually w f (ih _ (by simp +arith) f rfl)
    | always w f => exact always w f (ih _ (by simp +arith) f rfl)
    | untl w l r => exact untl w l r (ih _ (by simp +arith) l rfl) (ih _ (by simp +arith) r rfl)
    | release w l r =>
      exact release w l r (ih _ (by simp +arith) l rfl) (ih _ (by simp +arith) r rfl)

theorem Every.mono {leaf leaf' : Formula → Prop} {window window' : Window → Prop}
    (hl : ∀ f, leaf f → leaf' f) (hw : ∀ w, window w → window' w) {f : Formula}
    (h : f.Every leaf window) : f.Every leaf' window' := by
  induction f using Formula.induct with
  | bool | prop | atom | witness | missing => exact hl _ h
  | not f ih => exact ih h
  | and fs ih | or fs ih =>
    simp only [Every, everyAll_iff] at h ⊢
    exact fun f hf => ih f hf (h f hf)
  | implies l r ihl ihr => exact ⟨ihl h.1, ihr h.2⟩
  | eventually w f ih | always w f ih => exact ⟨hw w h.1, ih h.2⟩
  | untl w l r ihl ihr | release w l r ihl ihr => exact ⟨hw w h.1, ihl h.2.1, ihr h.2.2⟩

theorem Every.and {leaf leaf' : Formula → Prop} {window window' : Window → Prop} {f : Formula}
    (h : f.Every leaf window) (h' : f.Every leaf' window') :
    f.Every (fun g => leaf g ∧ leaf' g) fun w => window w ∧ window' w := by
  induction f using Formula.induct with
  | bool | prop | atom | witness | missing => exact ⟨h, h'⟩
  | not f ih => exact ih h h'
  | and fs ih | or fs ih =>
    simp only [Every, everyAll_iff] at h h' ⊢
    exact fun f hf => ih f hf (h f hf) (h' f hf)
  | implies l r ihl ihr => exact ⟨ihl h.1 h'.1, ihr h.2 h'.2⟩
  | eventually w f ih | always w f ih => exact ⟨⟨h.1, h'.1⟩, ih h.2 h'.2⟩
  | untl w l r ihl ihr | release w l r ihl ihr =>
    exact ⟨⟨h.1, h'.1⟩, ihl h.2.1 h'.2.1, ihr h.2.2 h'.2.2⟩

/-! ## What the truth of a formula depends on -/

def Agrees (σ σ' : Trace) : Formula → Prop
  | prop name => ∀ t, 0 ≤ t → t ≤ σ.length → (σ.prop name t ↔ σ'.prop name t)
  | atom c => ∀ t, 0 ≤ t → t ≤ σ.length → (σ.atom c t ↔ σ'.atom c t)
  | witness w => ∀ t, 0 ≤ t → t ≤ σ.length → (σ.witness w t ↔ σ'.witness w t)
  | _ => True

/-- A formula holds at the same instants of two traces of one length that agree on its parts. -/
theorem holds_congr {σ σ' : Trace} (hlen : σ.length = σ'.length) {f : Formula}
    (h : f.Every (Agrees σ σ') fun w => 0 ≤ w.lower) {t : ℝ} (h0 : 0 ≤ t) (ht : t ≤ σ.length) :
    f.Holds σ t ↔ f.Holds σ' t := by
  induction f using induct generalizing t with
  | bool | missing => exact Iff.rfl
  | prop | atom | witness => exact h t h0 ht
  | not f ih => exact not_congr (ih h h0 ht)
  | and fs ih =>
    rw [Every, everyAll_iff] at h
    rw [holds_and, holds_and]
    exact forall₂_congr fun f hf => ih f hf (h f hf) h0 ht
  | or fs ih =>
    rw [Every, everyAll_iff] at h
    rw [holds_or, holds_or]
    exact exists_congr fun f => and_congr_right fun hf => ih f hf (h f hf) h0 ht
  | implies l r ihl ihr => exact imp_congr (ihl h.1 h0 ht) (ihr h.2 h0 ht)
  | eventually w f ih =>
    rw [Holds, Holds, ← hlen]
    exact exists_congr fun u => and_congr_right fun hu => and_congr_right fun hle =>
      ih h.2 (hu.nonneg h.1 h0) hle
  | always w f ih =>
    rw [Holds, Holds, ← hlen]
    exact forall₃_congr fun u hu hle => ih h.2 (hu.nonneg h.1 h0) hle
  | untl w l r ihl ihr =>
    rw [Holds, Holds, ← hlen]
    refine exists_congr fun u => and_congr_right fun hu => and_congr_right fun hle => ?_
    exact and_congr (ihr h.2.2 (hu.nonneg h.1 h0) hle) (forall₃_congr fun v hv hlt =>
      ihl h.2.1 (h0.trans hv) (hlt.le.trans hle))
  | release w l r ihl ihr =>
    rw [Holds, Holds, ← hlen]
    refine forall₃_congr fun u hu hle => ?_
    exact or_congr (ihr h.2.2 (hu.nonneg h.1 h0) hle) (exists_congr fun v =>
      and_congr_right fun hv => and_congr_right fun hlt =>
        ihl h.2.1 (h0.trans hv) (hlt.le.trans hle))

/-! ## Negation normal form -/

theorem normalAll_eq (negated : Bool) (fs : List Formula) :
    normalAll negated fs = fs.map (normal negated) := by
  induction fs with
  | nil => rfl
  | cons f fs ih => rw [normalAll, ih, List.map_cons]

/-- What holds of the parts of a formula holds of those of its normal forms, if it holds of
constants and of the negations of constraints. -/
theorem Every.normal {leaf : Formula → Prop} {window : Window → Prop} (hbool : ∀ b, leaf (bool b))
    (hatom : ∀ c, leaf (atom c) → leaf (atom c.mkNot)) {f : Formula} (h : f.Every leaf window)
    (negated : Bool) : (f.normal negated).Every leaf window := by
  have all {fs : List Formula} (ih : ∀ f ∈ fs, f.Every leaf window →
        ∀ negated, (f.normal negated).Every leaf window)
      (h : EveryAll leaf window fs) (negated : Bool) :
      EveryAll leaf window (normalAll negated fs) := by
    rw [normalAll_eq, everyAll_iff]
    simpa using fun f hf => ih f hf (everyAll_iff.1 h f hf) negated
  induction f using Formula.induct generalizing negated with
  | bool b => exact hbool _
  | prop | witness | missing =>
    rw [Formula.normal]
    split <;> exact h
  | atom c =>
    rw [Formula.normal]
    split
    · exact hatom c h
    · exact h
  | not f ih => exact ih h _
  | and fs ih | or fs ih =>
    rw [Formula.normal]
    split <;> exact all (fun f hf h negated => ih f hf h negated) h _
  | implies l r ihl ihr =>
    rw [Formula.normal]
    split <;> exact ⟨ihl h.1 _, ihr h.2 _, trivial⟩
  | eventually w f ih | always w f ih =>
    rw [Formula.normal]
    split <;> exact ⟨h.1, ih h.2 _⟩
  | untl w l r ihl ihr | release w l r ihl ihr =>
    rw [Formula.normal]
    split <;> exact ⟨h.1, ihl h.2.1 _, ihr h.2.2 _⟩

/-- The constraints of a formula are negated on a trace as terms are. -/
def Negates (σ : Trace) : Formula → Prop
  | atom c => ∀ t, 0 ≤ t → t ≤ σ.length → (σ.atom c.mkNot t ↔ ¬σ.atom c t)
  | _ => True

/-- The normal form of a formula holds where the formula does, and that of its negation where it
does not, at all instants of an interval that the windows do not lead out of and on which
constraints are negated as terms are. -/
theorem holds_normal_on {σ : Trace} {I : Set ℝ} (convex : I.OrdConnected) {f : Formula}
    (h : f.Every (fun g => ∀ c, g = atom c → ∀ t ∈ I, (σ.atom c.mkNot t ↔ ¬σ.atom c t))
      fun w => ∀ t ∈ I, ∀ u, w.Covers t u → u ≤ σ.length → u ∈ I) {t : ℝ} (ht : t ∈ I) :
    ((f.normal false).Holds σ t ↔ f.Holds σ t) ∧ ((f.normal true).Holds σ t ↔ ¬f.Holds σ t) := by
  induction f using induct generalizing t with
  | bool b => cases b <;> simp [normal, Holds]
  | prop name => simp [normal, Holds]
  | atom c => exact ⟨Iff.rfl, h c rfl t ht⟩
  | witness w => simp [normal, Holds]
  | missing => simp [normal, Holds]
  | not f ih =>
    obtain ⟨pos, neg⟩ := ih h ht
    refine ⟨neg, pos.trans ?_⟩
    simp [Holds]
  | and fs ih =>
    rw [Every, everyAll_iff] at h
    have pos f (hf : f ∈ fs) := (ih f hf (h f hf) ht).1
    have neg f (hf : f ∈ fs) := (ih f hf (h f hf) ht).2
    constructor
    · simp only [normal, normalAll_eq, Bool.false_eq_true, if_false, holds_and, List.forall_mem_map]
      exact forall₂_congr pos
    · simp only [normal, normalAll_eq, if_true, holds_and, holds_or, List.mem_map,
        exists_exists_and_eq_and, not_forall]
      refine exists_congr fun f => ?_
      rw [exists_prop]
      exact and_congr_right (neg f)
  | or fs ih =>
    rw [Every, everyAll_iff] at h
    have pos f (hf : f ∈ fs) := (ih f hf (h f hf) ht).1
    have neg f (hf : f ∈ fs) := (ih f hf (h f hf) ht).2
    constructor
    · simp only [normal, normalAll_eq, Bool.false_eq_true, if_false, holds_or, List.mem_map,
        exists_exists_and_eq_and]
      exact exists_congr fun f => and_congr_right (pos f)
    · simp only [normal, normalAll_eq, if_true, holds_and, holds_or, List.forall_mem_map,
        not_exists, not_and]
      exact forall₂_congr neg
  | implies l r ihl ihr =>
    obtain ⟨posl, negl⟩ := ihl h.1 ht
    obtain ⟨posr, negr⟩ := ihr h.2 ht
    constructor
    · simp [normal, holds_or, posr, negl, Holds, imp_iff_not_or]
    · simp [normal, holds_and, posl, negr, Holds]
  | eventually w f ih =>
    have each u (hu : w.Covers t u) (hle : u ≤ σ.length) := ih h.2 (h.1 t ht u hu hle)
    constructor
    · exact exists_congr fun u => and_congr_right fun hu => and_congr_right fun hle =>
        (each u hu hle).1
    · simp only [normal, if_true, Holds, not_exists, not_and]
      exact forall₃_congr fun u hu hle => (each u hu hle).2
  | always w f ih =>
    have each u (hu : w.Covers t u) (hle : u ≤ σ.length) := ih h.2 (h.1 t ht u hu hle)
    constructor
    · exact forall₃_congr fun u hu hle => (each u hu hle).1
    · simp only [normal, if_true, Holds, not_forall, exists_prop]
      exact exists_congr fun u => and_congr_right fun hu => and_congr_right fun hle =>
        (each u hu hle).2
  | untl w l r ihl ihr =>
    have right u (hu : w.Covers t u) (hle : u ≤ σ.length) := ihr h.2.2 (h.1 t ht u hu hle)
    have left u (hu : w.Covers t u) (hle : u ≤ σ.length) v (hv : t ≤ v) (hlt : v < u) :=
      ihl h.2.1 (convex.out ht (h.1 t ht u hu hle) ⟨hv, hlt.le⟩)
    constructor
    · exact exists_congr fun u => and_congr_right fun hu => and_congr_right fun hle =>
        and_congr (right u hu hle).1 (forall₃_congr fun v hv hlt => (left u hu hle v hv hlt).1)
    · simp only [normal, if_true, Holds, not_exists, not_and, not_forall, exists_prop]
      refine forall₃_congr fun u hu hle => ?_
      rw [(right u hu hle).2, ← imp_iff_not_or]
      exact imp_congr_right fun _ => exists_congr fun v => and_congr_right fun hv =>
        and_congr_right fun hlt => (left u hu hle v hv hlt).2
  | release w l r ihl ihr =>
    have right u (hu : w.Covers t u) (hle : u ≤ σ.length) := ihr h.2.2 (h.1 t ht u hu hle)
    have left u (hu : w.Covers t u) (hle : u ≤ σ.length) v (hv : t ≤ v) (hlt : v < u) :=
      ihl h.2.1 (convex.out ht (h.1 t ht u hu hle) ⟨hv, hlt.le⟩)
    constructor
    · exact forall₃_congr fun u hu hle => or_congr (right u hu hle).1 (exists_congr fun v =>
        and_congr_right fun hv => and_congr_right fun hlt => (left u hu hle v hv hlt).1)
    · simp only [normal, if_true, Holds, not_forall, exists_prop, not_or, not_exists, not_and]
      exact exists_congr fun u => and_congr_right fun hu => and_congr_right fun hle =>
        and_congr (right u hu hle).2 (forall₃_congr fun v hv hlt => (left u hu hle v hv hlt).2)

/-- The same on a trace whose constraints are negated as terms are, for windows that look
forward. -/
theorem holds_normal {σ : Trace} {f : Formula} (h : f.Every (Negates σ) fun w => 0 ≤ w.lower)
    {t : ℝ} (h0 : 0 ≤ t) (ht : t ≤ σ.length) :
    ((f.normal false).Holds σ t ↔ f.Holds σ t) ∧ ((f.normal true).Holds σ t ↔ ¬f.Holds σ t) := by
  refine holds_normal_on (Set.ordConnected_Icc (a := 0) (b := σ.length)) (h.mono ?_ ?_) ⟨h0, ht⟩
  · rintro _ negates c rfl t ⟨h0, ht⟩
    exact negates t h0 ht
  · exact fun w hw t ht u hu hle => ⟨hu.nonneg hw ht.1, hle⟩

end Formula

end HybridCheck
