import HybridCheck.Proofs.Constraint
import Mathlib.Tactic.Linarith
import Mathlib.Tactic.Ring

/-!
# Affine terms and convex bodies

A term that the syntactic check accepts as affine in a variable is an affine function of the value
of that variable. A body that the check accepts as convex therefore holds on an interval: if it
holds for two values of the variable, it holds for every value between them.
-/

namespace HybridCheck

def Affine (f : ℝ → ℝ) : Prop := ∃ p q : ℝ, ∀ x, f x = p * x + q

namespace Affine

variable {f g : ℝ → ℝ}

theorem const (y : ℝ) : Affine fun _ => y := ⟨0, y, fun x => by ring⟩

theorem id : Affine fun x => x := ⟨1, 0, fun x => by ring⟩

theorem add (hf : Affine f) (hg : Affine g) : Affine fun x => f x + g x := by
  obtain ⟨p, q, hf⟩ := hf
  obtain ⟨p', q', hg⟩ := hg
  exact ⟨p + p', q + q', fun x => by simp only [hf, hg]; ring⟩

theorem sub (hf : Affine f) (hg : Affine g) : Affine fun x => f x - g x := by
  obtain ⟨p, q, hf⟩ := hf
  obtain ⟨p', q', hg⟩ := hg
  exact ⟨p - p', q - q', fun x => by simp only [hf, hg]; ring⟩

theorem mul_const (hf : Affine f) (y : ℝ) : Affine fun x => f x * y := by
  obtain ⟨p, q, hf⟩ := hf
  exact ⟨p * y, q * y, fun x => by simp only [hf]; ring⟩

/-- Between two places an affine function is at most the larger of the values there. -/
theorem le_max (hf : Affine f) {x y z : ℝ} (hxy : x ≤ y) (hyz : y ≤ z) :
    f y ≤ max (f x) (f z) := by
  obtain ⟨p, q, hf⟩ := hf
  rw [hf x, hf y, hf z]
  rcases le_total 0 p with hp | hp
  · exact le_max_of_le_right (by nlinarith)
  · exact le_max_of_le_left (by nlinarith)

/-- What two affine functions satisfy at two places they satisfy in between. -/
theorem compares_between {r : Relation} (hf : Affine f) (hg : Affine g) {x y z : ℝ} (hxy : x ≤ y)
    (hyz : y ≤ z) (hx : r.Compares (.number (f x)) (.number (g x)))
    (hz : r.Compares (.number (f z)) (.number (g z))) :
    r.Compares (.number (f y)) (.number (g y)) := by
  have above := (hf.sub hg).le_max hxy hyz
  have below := (hg.sub hf).le_max hxy hyz
  simp only [le_max_iff] at above below
  cases r with
  | eq =>
    have hx : f x = g x := by simpa [Relation.Compares] using hx
    have hz : f z = g z := by simpa [Relation.Compares] using hz
    have hy : f y = g y := by
      apply le_antisymm
      · rcases above with h | h <;> linarith
      · rcases below with h | h <;> linarith
    simp [Relation.Compares, hy]
  | lt | le =>
    simp only [Relation.Compares, Value.toReal_number] at hx hz ⊢
    rcases above with h | h <;> linarith
  | gt | ge =>
    simp only [Relation.Compares, Value.toReal_number] at hx hz ⊢
    rcases below with h | h <;> linarith

end Affine

namespace Term

variable {c : Var}

theorem affineInAll_iff {as : List Term} :
    affineInAll c as = true ↔ ∀ a ∈ as, affineIn c a = true := by
  induction as with
  | nil => simp [affineInAll]
  | cons a as ih => simp [affineInAll, ih]

theorem convexInAll_iff {as : List Term} :
    convexInAll c as = true ↔ ∀ a ∈ as, convexIn c a = true := by
  induction as with
  | nil => simp [convexInAll]
  | cons a as ih => simp [convexInAll, ih]

/-- A sum of affine terms is affine. -/
private theorem affine_sum {as : List Term} {v : ℝ → Term → ℝ}
    (h : ∀ a ∈ as, Affine fun x => v x a) : Affine fun x => (as.map (v x)).sum := by
  induction as with
  | nil => exact .const 0
  | cons a as ih =>
    simp only [List.map_cons, List.sum_cons]
    exact (h a (by simp)).add (ih fun b hb => h b (by simp [hb]))

/-- A product is affine if one factor is and the others are constant. -/
private theorem affine_prod {as : List Term} {v : ℝ → Term → ℝ} {moves : Term → Bool}
    (constant : ∀ a ∈ as, moves a = false → ∃ y, ∀ x, v x a = y)
    (h : ∀ a ∈ as, Affine fun x => v x a) (few : (as.filter moves).length ≤ 1) :
    Affine fun x => (as.map (v x)).prod := by
  have fixed {as : List Term} (hc : ∀ a ∈ as, ∃ y, ∀ x, v x a = y) :
      ∃ y, ∀ x, (as.map (v x)).prod = y := by
    induction as with
    | nil => exact ⟨1, fun _ => rfl⟩
    | cons a as ih =>
      obtain ⟨y, hy⟩ := hc a (by simp)
      obtain ⟨z, hz⟩ := ih fun b hb => hc b (by simp [hb])
      exact ⟨y * z, fun x => by rw [List.map_cons, List.prod_cons, hy, hz]⟩
  induction as with
  | nil => exact .const 1
  | cons a as ih =>
    simp only [List.map_cons, List.prod_cons]
    have later b (hb : b ∈ as) := constant b (by simp [hb])
    cases ha : moves a with
    | false =>
      obtain ⟨y, hy⟩ := constant a (by simp) ha
      have rest := ih later (fun b hb => h b (by simp [hb])) (by simpa [ha] using few)
      simp only [hy, mul_comm y]
      exact rest.mul_const y
    | true =>
      have none : as.filter moves = [] := by simpa [ha] using few
      obtain ⟨y, hy⟩ := fixed fun b hb => later b hb (by
        by_contra hm
        exact List.ne_nil_of_mem (List.mem_filter.2 ⟨hb, by simpa using hm⟩) none)
      simp only [hy]
      exact (h a (by simp)).mul_const y

/-- A term that is affine in a variable by its shape is affine in its value. -/
theorem affine_of_affineIn {t : Term} (hf : t.flowFree = true) (h : affineIn c t = true) (ρ : Env) :
    Affine fun x => t.amount (ρ.set c (.number x)) := by
  have unmentioned {t : Term} (hf : t.flowFree = true) (h : t.mentions c = false) :
      ∃ y, ∀ x, t.amount (ρ.set c (.number x)) = y :=
    ⟨t.amount ρ, fun x => by rw [amount, eval_set hf h]⟩
  have constant {t : Term} (hf : t.flowFree = true) (h : t.mentions c = false) :
      Affine fun x => t.amount (ρ.set c (.number x)) := by
    obtain ⟨y, hy⟩ := unmentioned hf h
    simp only [hy]
    exact .const y
  induction t, hf using flowFree_induct with
  | operator t o ho hs hf ih =>
    refine (em (t.mentions c = false)).elim (constant hf) fun hm => ?_
    cases t with
    | var | next | quant | integral | throughout => cases ho
    | add s as =>
      simp only [affineIn, hm, affineInAll_iff, Bool.or_eq_true, Bool.not_eq_true',
        Bool.true_eq_false, false_or] at h
      simp only [amount, eval, Value.toReal_number, evalAll_eq, List.map_map]
      exact affine_sum fun a ha => ih a ha (h a ha)
    | mul s as =>
      simp only [affineIn, hm, affineInAll_iff, Bool.or_eq_true, Bool.not_eq_true',
        Bool.true_eq_false, false_or, Bool.and_eq_true, decide_eq_true_eq] at h
      simp only [amount, eval, Value.toReal_number, evalAll_eq, List.map_map]
      exact affine_prod (fun a ha => unmentioned (hs a ha)) (fun a ha => ih a ha (h.2 a ha)) h.1
    | sub a b =>
      simp only [affineIn, hm, Bool.or_eq_true, Bool.not_eq_true', Bool.true_eq_false, false_or,
        Bool.and_eq_true] at h
      simp only [amount, eval, Value.toReal_number]
      exact (ih a (by simp [operands]) h.1).sub (ih b (by simp [operands]) h.2)
    | neg a =>
      simp only [affineIn, hm, Bool.or_eq_true, Bool.not_eq_true', Bool.true_eq_false,
        false_or] at h
      simp only [amount, eval, Value.toReal_number]
      simpa using (ih a (by simp [operands]) h).mul_const (-1)
    | div a b =>
      simp only [affineIn, hm, Bool.or_eq_true, Bool.not_eq_true', Bool.true_eq_false, false_or,
        Bool.and_eq_true] at h
      obtain ⟨y, hy⟩ := unmentioned (hs b (by simp [operands])) h.2
      simp only [amount, eval, Value.toReal_number] at hy ⊢
      simp only [hy, div_eq_mul_inv]
      exact (ih a (by simp [operands]) h.1).mul_const y⁻¹
    | _ => exact absurd (by simpa [affineIn] using h) hm
  | var v =>
    by_cases hv : v = c
    · subst hv
      simpa [amount, eval] using Affine.id
    · exact constant rfl (mentions_var_of_ne (Ne.symm hv))
  | next v => exact constant rfl rfl
  | quant q v body _ hf => exact constant hf (by simpa [affineIn] using h)

/-- What is no number is affine in a real variable only if it does not mention it. -/
theorem mentions_of_affineIn {judge : Judge} {t : Term} (hc : c.sort = .real)
    (sorted : t.sorted judge = true) (hs : t.sort.numeric = false) (h : affineIn c t = true) :
    t.mentions c = false := by
  cases t with
  | var v =>
    have hv : c ≠ v := by
      rintro rfl
      rw [sort, hc] at hs
      cases hs
    exact mentions_var_of_ne hv
  | add s as | mul s as => simp [sort] at hs
  | sub a b =>
    rw [sort] at hs
    split at hs <;> cases hs
  | div a b => cases hs
  | neg a =>
    have ha := ((sorted_operator (t := neg a) rfl).1 sorted).1
    simp only [Operator.accepts, operands, List.map_cons, List.map_nil] at ha
    rw [sort, ha] at hs
    cases hs
  | next | bool => rfl
  | _ => simpa [affineIn] using h

/-- A comparison of affine terms holds between two values for which it holds. -/
private theorem cmp_between {judge : Judge} {r : Relation} {a b : Term} (hc : c.sort = .real)
    (hf : (cmp r a b).flowFree = true) (sorted : (cmp r a b).sorted judge = true)
    (ha : affineIn c a = true) (hb : affineIn c b = true) {ρ : Env} (hρ : ρ.Typed) {x y z : ℝ}
    (hxy : x ≤ y) (hyz : y ≤ z) (hx : (cmp r a b).Holds (ρ.set c (.number x)))
    (hz : (cmp r a b).Holds (ρ.set c (.number z))) :
    (cmp r a b).Holds (ρ.set c (.number y)) := by
  obtain ⟨accepts, hs⟩ := (sorted_operator rfl).1 sorted
  have hfs := (hereditary_flowFree (cmp r a b) _ rfl).1 hf
  simp only [operands, List.mem_cons, List.not_mem_nil, or_false, forall_eq_or_imp, forall_eq]
    at accepts hs hfs
  have typed (w : ℝ) : (ρ.set c (.number w)).Typed := hρ.set (hc ▸ ⟨w, rfl⟩)
  simp only [Holds, eval, Value.holds_truth] at hx hz ⊢
  by_cases hn : a.sort.numeric = true ∧ b.sort.numeric = true
  · have value {t : Term} (ht : t.sorted judge = true) (hn : t.sort.numeric = true) (w : ℝ) :=
      eval_eq_number ht hn (typed w)
    rw [value hs.1 hn.1, value hs.2 hn.2] at hx hz ⊢
    exact (affine_of_affineIn hfs.1 ha ρ).compares_between (affine_of_affineIn hfs.2 hb ρ) hxy hyz
      hx hz
  · -- only an equation of values that are no numbers is left, and these do not mention the clock
    have alike : a.sort.alike b.sort = true := by
      cases r with
      | eq => exact accepts
      | _ =>
        simp only [Operator.accepts, List.map_cons, List.map_nil, Bool.and_eq_true] at accepts
        exact absurd accepts hn
    have hna : a.sort.numeric = false := by
      by_contra h
      have h : a.sort.numeric = true := by simpa using h
      exact hn ⟨h, TermSort.numeric_of_alike (TermSort.alike_symm alike) h⟩
    have hnb : b.sort.numeric = false := by
      by_contra h
      have h : b.sort.numeric = true := by simpa using h
      exact hn ⟨TermSort.numeric_of_alike alike h, h⟩
    rw [eval_set hfs.1 (mentions_of_affineIn hc hs.1 hna ha),
      eval_set hfs.2 (mentions_of_affineIn hc hs.2 hnb hb)] at hx ⊢
    exact hx

/-- A body that is convex by its shape holds between two values for which it holds. -/
theorem holds_between {judge : Judge} {t : Term} (hc : c.sort = .real) (hf : t.flowFree = true)
    (sorted : t.sorted judge = true) (h : convexIn c t = true) {ρ : Env} (hρ : ρ.Typed)
    {x y z : ℝ} (hxy : x ≤ y) (hyz : y ≤ z) (hx : t.Holds (ρ.set c (.number x)))
    (hz : t.Holds (ρ.set c (.number z))) : t.Holds (ρ.set c (.number y)) := by
  induction t, hf using flowFree_induct with
  | operator t o ho hs hf ih =>
    cases t with
    | var | next | quant | integral | throughout => cases ho
    | and as =>
      simp only [convexIn, convexInAll_iff] at h
      simp only [Holds, eval, evalAll_eq, Value.holds_truth, List.forall_mem_map] at hx hz ⊢
      have each := ((sorted_operator (t := and as) rfl).1 sorted).2
      exact fun a ha => ih a ha (each a ha) (h a ha) (hx a ha) (hz a ha)
    | cmp r a b =>
      simp only [convexIn, Bool.and_eq_true] at h
      exact cmp_between hc hf sorted h.1 h.2 hρ hxy hyz hx hz
    | _ =>
      simp only [convexIn, Bool.not_eq_true'] at h
      rw [Holds, eval_set hf h] at hx ⊢
      exact hx
  | var v | next v | quant q v body _ hf =>
    simp only [convexIn, Bool.not_eq_true'] at h
    rw [Holds, eval_set (by first | rfl | assumption) h] at hx ⊢
    exact hx

end Term

end HybridCheck
