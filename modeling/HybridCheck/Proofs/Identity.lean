import HybridCheck.Proofs.Refutation
import HybridCheck.Proofs.TraceConstraints

/-!
# When two terms count as identical

Two terms count as identical when digest, text and sort agree. Over names that can be told apart the
text of a term without flow primitives gives back the term, except for the sorts of constants, sums
and products, which are not written and do not change the value. Where the sorts agree as well, only
a term and itself count as identical.

Two things are in no text and no digest. The sort of a variable is left out below the root, and so
are the discrete values of an integral and the exit values of a body that holds throughout. Terms
that differ there count as identical although they expand to terms of different values.
-/

namespace HybridCheck

theorem NumSort.toSort_inj {s s' : NumSort} : s.toSort = s'.toSort ↔ s = s' := by
  cases s <;> cases s' <;> simp [toSort]

namespace Term

variable {t u : Term}

/-- Operator and operands are all there is to a term that has them. -/
theorem eq_of_operator {o : Operator} (ht : t.operator? = some o) (hu : u.operator? = some o)
    (h : t.operands = u.operands) : t = u := by
  cases t <;> cases ht <;> cases u <;> cases hu <;> first | rfl | simpa [operands] using h

theorem operands_canonical (t : Term) : t.canonical.operands = t.operands.map canonical := by
  cases t <;> simp [canonical, canonicalAll_eq, operands]

/-- Of an operator only the sort is made uniform. -/
theorem operator_of_canonical (h : t.canonical = u.canonical) (sort : t.sort = u.sort) :
    t.operator? = u.operator? := by
  cases t <;> cases u <;> simp only [canonical, reduceCtorEq] at h <;>
    simp_all [operator?, Term.sort, NumSort.toSort_inj]

def SortsAgree (t u : Term) : Prop :=
  ∀ a ∈ t.subterms, ∀ b ∈ u.subterms, a.text = b.text → a.sort = b.sort

instance : Decidable (SortsAgree t u) :=
  inferInstanceAs
    (Decidable (∀ a ∈ t.subterms, ∀ b ∈ u.subterms, a.text = b.text → a.sort = b.sort))

/-- Nothing but sorts is made uniform. -/
theorem eq_of_canonical (h : t.canonical = u.canonical) (sorts : SortsAgree t u) : t = u := by
  induction t using induct generalizing u with
  | operator t o ho ih =>
    have text : t.text = u.text := by rw [← text_canonical t, h, text_canonical]
    have sort := sorts t (self_mem_subterms t) u (self_mem_subterms u) text
    have ho' : u.operator? = some o := (operator_of_canonical h sort).symm.trans ho
    have args : t.operands.map canonical = u.operands.map canonical := by
      rw [← operands_canonical, h, operands_canonical]
    have same {a b : Term} (ha : a ∈ t.operands) (hb : b ∈ u.operands)
        (hab : a.canonical = b.canonical) : a = b :=
      ih a ha hab fun c hc d hd => sorts c ((mem_subterms_operator ho).2 (Or.inr ⟨a, ha, hc⟩)) d
        ((mem_subterms_operator ho').2 (Or.inr ⟨b, hb, hd⟩))
    refine eq_of_operator ho ho' (List.ext_getElem (by simpa using congrArg List.length args) ?_)
    intro i hi hi'
    refine same (List.getElem_mem hi) (List.getElem_mem hi') ?_
    simpa [hi, hi'] using congrArg (·[i]?) args
  | quant q v body ih =>
    cases u <;> simp only [canonical, reduceCtorEq, quant.injEq] at h
    obtain ⟨rfl, rfl, h⟩ := h
    rw [ih h fun c hc d hd => sorts c (by simp [hc]) d (by simp [hd])]
  | var | next | integral | throughout =>
    cases u <;> simp_all [canonical]

theorem text_of_identical (h : t.identical u = true) : t.text = u.text := by
  simp only [identical, Bool.and_eq_true, beq_iff_eq] at h
  exact h.1.2

theorem identical_self (t : Term) : t.identical t = true := by
  simp [identical]

/-- Integrals have their texts for digests. -/
theorem identical_integral {seg seg' : Segment} (h : (integral seg).text = (integral seg').text) :
    (integral seg).identical (integral seg') = true := by
  have digest : (integral seg).digest = (integral seg').digest := by
    rw [Term.digest, Term.digest, h]
  simp [identical, digest, h, sort]

/-- Bodies that hold throughout have their texts for digests. -/
theorem identical_throughout {seg seg' : Segment} {body body' : Term}
    (h : (throughout seg body).text = (throughout seg' body').text) :
    (throughout seg body).identical (throughout seg' body') = true := by
  have digest : (throughout seg body).digest = (throughout seg' body').digest := by
    rw [Term.digest, Term.digest, h]
  simp [identical, digest, h, sort]

/-- Terms without flow primitives that count as identical have one value wherever they are read, and
where what they are made of tells its sort by its text, they are the same term. -/
theorem identical_exact (ht : t.flowFree = true) (hu : u.flowFree = true)
    (named : ∀ a ∈ [t, u], ∀ v ∈ a.labels, IsSymbolName v.name)
    (unique : ∀ a ∈ [t, u], ∀ b ∈ [t, u], ∀ v ∈ a.labels, ∀ w ∈ b.labels, v.name = w.name → v = w) :
    (t.identical u = true → ∃ a b, t.expand = .ok a ∧ u.expand = .ok b ∧
      ∀ ρ, a.eval ρ = b.eval ρ) ∧
    (SortsAgree t u → (t.identical u = true ↔ t = u)) := by
  have canonical_eq (h : t.identical u = true) : t.canonical = u.canonical :=
    canonical_of_text (legible_labels named unique) (names_labels (by simp) ht)
      (names_labels (by simp) hu) (text_of_identical h)
  constructor
  · intro h
    refine ⟨t, u, expand_of_flowFree ht, expand_of_flowFree hu, fun ρ => ?_⟩
    rw [← eval_canonical ht, canonical_eq h, eval_canonical hu]
  · intro sorts
    refine ⟨fun h => eq_of_canonical (canonical_eq h) sorts, ?_⟩
    rintro rfl
    exact identical_self t

/-- A bound for a sum of integers that counts as a number of a sort. -/
def bounded (s : NumSort) : Term :=
  cmp .le (add s [var ⟨"n", .int, .logical⟩, next ⟨"n", .int, .logical⟩]) zero

/-- The sort of a sum is not told by its text, but its value is. A bound and its opposite agree in
what is told, and do not count as identical. -/
theorem identical_exact_bounded :
    ((bounded .int).identical (bounded .real) = true ∧ bounded .int ≠ bounded .real ∧
      ∃ a b, (bounded .int).expand = .ok a ∧ (bounded .real).expand = .ok b ∧
        ∀ ρ, a.eval ρ = b.eval ρ) ∧
    SortsAgree (bounded .int) (.not (bounded .int)) ∧
      (bounded .int).identical (.not (bounded .int)) = false := by
  have identical : (bounded .int).identical (bounded .real) = true := by
    simp [Term.identical, bounded, digest, digestAll, sort]
  have labels (s : NumSort) : (bounded s).labels = [⟨"n", .int, .logical⟩, ⟨"n", .int, .logical⟩] ∧
      (Term.not (bounded s)).labels = [⟨"n", .int, .logical⟩, ⟨"n", .int, .logical⟩] := by
    cases s <;> decide
  have exact {t u : Term} (ht : t.flowFree = true) (hu : u.flowFree = true)
      (labels : ∀ a ∈ [t, u], a.labels = [⟨"n", .int, .logical⟩, ⟨"n", .int, .logical⟩]) :=
    identical_exact ht hu
      (fun a ha v hv => by
        obtain rfl : v = ⟨"n", .int, .logical⟩ := by simpa [labels a ha] using hv
        exact Or.inl ⟨rfl, by decide, by decide⟩)
      (fun a ha b hb v hv w hw _ => by
        simp only [labels a ha, labels b hb, List.mem_cons, List.not_mem_nil, or_false,
          or_self] at hv hw
        rw [hv, hw])
  have sorts : SortsAgree (bounded .int) (.not (bounded .int)) := by decide
  refine ⟨⟨identical, by simp [bounded], (exact rfl rfl ?_).1 identical⟩, sorts, ?_⟩
  · simp [labels]
  · rw [← Bool.not_eq_true, (exact rfl rfl (by simp [labels])).2 sorts]
    simp [bounded]

/-! ## What is not told -/

def cruise (speed : Rat) : Segment where
  flow := ⟨⟨"c", .real, .bound⟩, [("x", var ⟨"speed", .real, .logical⟩)], []⟩
  time := real 1
  entry := [("x", zero)]
  exit := [("x", var ⟨"y", .real, .continuous⟩)]
  mode := [("speed", real speed)]

/-- A stretch of time at whose end a variable has a value, which is compared with one. -/
def landing (x : Rat) : Term :=
  throughout ⟨⟨⟨"c", .real, .bound⟩, [], []⟩, real 1, [("x", zero)], [("x", real x)], [], {}⟩
    (cmp .lt (next ⟨"x", .real, .logical⟩) (real 1))

def topped (s : TermSort) : Term := cmp .le (var ⟨"x", s, .logical⟩) (real 1)

/-- Two terms count as identical, though they are different and expand to terms whose values differ
somewhere. -/
structure Confused (a b : Term) : Prop where
  identical : a.identical b = true
  ne : a ≠ b
  differ : ∃ u v, a.expand = .ok u ∧ b.expand = .ok v ∧
    ∃ ρ : Env, ρ.Sorted ∧ u.eval ρ ≠ v.eval ρ

/-- Terms are confused where one expands to what holds and the other to what does not. -/
theorem confused_of_holds {a b u v : Term} {ρ : Env} (identical : a.identical b = true)
    (ne : a ≠ b) (ha : a.expand = .ok u) (hb : b.expand = .ok v) (hρ : ρ.Sorted)
    (hu : u.Holds ρ) (hv : ¬v.Holds ρ) : Confused a b :=
  ⟨identical, ne, u, v, ha, hb, ρ, hρ, fun same => hv (by rwa [Term.Holds, ← same])⟩

/-- Integrals that differ in their discrete values count as identical, and so do bodies that hold
throughout segments with different exit values, and bounds for variables of different sorts. -/
theorem identical_confuses :
    Confused (integral (cruise 1)) (integral (cruise 2)) ∧ Confused (landing 0) (landing 5) ∧
      Confused (topped .int) (topped .real) := by
  refine ⟨?speeds, ?exits, ?sorts⟩
  case speeds =>
    refine confused_of_holds (u := cmp .eq (var ⟨"y", .real, .continuous⟩) (real 1))
      (v := cmp .eq (var ⟨"y", .real, .continuous⟩) (real 2)) (identical_integral rfl)
      (by simp [cruise, real]) (by cbv) (by cbv)
      (Env.blank_sorted.set (v := ⟨"y", .real, .continuous⟩) ⟨1, rfl⟩) ?_ ?_ <;>
      simp [Term.Holds, eval, Relation.Compares, real]
  case exits =>
    refine confused_of_holds (u := bool true) (v := bool false) (identical_throughout rfl)
      (by simp [landing, real]) (by cbv) (by cbv) Env.blank_sorted ?_ ?_ <;>
      simp [Term.Holds, eval]
  case sorts =>
    have identical : (topped .int).identical (topped .real) = true := by
      simp [Term.identical, topped, digest, Var.digest, sort]
    refine confused_of_holds identical (by simp [topped]) (expand_of_flowFree rfl)
      (expand_of_flowFree rfl)
      (Env.blank_sorted.set (v := ⟨"x", .real, .logical⟩) ⟨5, rfl⟩) ?_ ?_ <;>
      simp [topped, Term.Holds, eval, Relation.Compares, real, Env.set, Env.blank]

end Term

end HybridCheck
