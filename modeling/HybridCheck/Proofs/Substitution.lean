import HybridCheck.Proofs.Constraint
import HybridCheck.Proofs.Keeping

/-!
# Replacement keeps values

A replacement changes a term leaf by leaf and folds what lies above. If every leaf becomes a term of
its kind whose value is that of the leaf in another environment, then the whole term becomes such a
term, whichever nodes were kept and whichever were folded. For a replacement of variables and of
references after a jump the other environment reads these from their replacements.

A quantifier is never entered here in earnest: what is replaced does not occur free under one.
-/

namespace HybridCheck

namespace Operator

variable {o : Operator} {as : List Term} {f : Term → Term}

/-- An operator accepts operands of the same kinds. -/
theorem accepts_of_alike (h : ∀ a ∈ as, (f a).sort.alike a.sort = true)
    (ha : o.accepts (as.map Term.sort) = true) :
    o.accepts ((as.map f).map Term.sort) = true := by
  have bool {a : Term} (h : (f a).sort.alike a.sort = true) (ha : a.sort = .bool) :
      (f a).sort = .bool := by
    rw [ha] at h
    exact TermSort.alike_bool.1 h
  have numeric {a : Term} (h : (f a).sort.alike a.sort = true) (ha : a.sort.numeric = true) :
      (f a).sort.numeric = true := TermSort.numeric_of_alike h ha
  cases o with
  | bool | num =>
    cases as with
    | nil => exact ha
    | cons => cases ha
  | and | or =>
    simp only [accepts, List.map_map, List.all_map, List.all_eq_true, Function.comp,
      decide_eq_true_eq] at ha ⊢
    exact fun a m => bool (h a m) (ha a m)
  | add | mul =>
    simp only [accepts, List.map_map, List.all_map, List.all_eq_true, Function.comp] at ha ⊢
    exact fun a m => numeric (h a m) (ha a m)
  | not =>
    rcases as with _ | ⟨a, _ | _⟩ <;> simp [accepts] at ha h ⊢
    exact bool h ha
  | neg =>
    rcases as with _ | ⟨a, _ | _⟩ <;> simp [accepts] at ha h ⊢
    exact numeric h ha
  | implies =>
    rcases as with _ | ⟨a, _ | ⟨b, _ | _⟩⟩ <;> simp [accepts] at ha h ⊢
    exact ⟨bool h.1 ha.1, bool h.2 ha.2⟩
  | sub | div =>
    rcases as with _ | ⟨a, _ | ⟨b, _ | _⟩⟩ <;> simp [accepts] at ha h ⊢
    exact ⟨numeric h.1 ha.1, numeric h.2 ha.2⟩
  | cmp r =>
    rcases as with _ | ⟨a, _ | ⟨b, _ | _⟩⟩ <;> cases r <;> simp [accepts] at ha h ⊢
    · exact TermSort.alike_trans h.1 (TermSort.alike_trans ha (TermSort.alike_symm h.2))
    all_goals exact ⟨numeric h.1 ha.1, numeric h.2 ha.2⟩
  | ite =>
    rcases as with _ | ⟨c, _ | ⟨a, _ | ⟨b, _ | _⟩⟩⟩ <;> simp [accepts] at ha h ⊢
    exact ⟨bool h.1 ha.1, TermSort.alike_trans h.2.1 (TermSort.alike_trans ha.2
      (TermSort.alike_symm h.2.2))⟩

/-- The results on operands of the same kinds are of the same kind. -/
theorem result_alike (h : ∀ a ∈ as, (f a).sort.alike a.sort = true)
    (ha : o.accepts (as.map Term.sort) = true) :
    (o.result ((as.map f).map Term.sort)).alike (o.result (as.map Term.sort)) = true := by
  cases o with
  | ite =>
    rcases as with _ | ⟨c, _ | ⟨a, _ | ⟨b, _ | _⟩⟩⟩ <;> simp [accepts] at ha h ⊢
    exact h.2.1
  | neg =>
    rcases as with _ | ⟨a, _ | _⟩ <;> simp [accepts] at ha h ⊢
    exact h
  | sub =>
    rcases as with _ | ⟨a, _ | ⟨b, _ | _⟩⟩ <;> simp [accepts] at ha h ⊢
    refine TermSort.alike_of_numeric ?_ ?_ <;> (simp only [result]; split <;> rfl)
  | _ => exact TermSort.alike_refl _

end Operator

/-- The replacement of the identifiers that a substitution maps. -/
abbrev Replacement.ofSubst (s : Subst) : Replacement where
  onVar v := if v.role = .logical then s.get? v.name else none

namespace Term

variable {judge : Judge} {r : Replacement}

/-- Operands are transformed one by one. -/
theorem transformAll?_eq {as : List Term} {f : Term → Term}
    (h : ∀ a ∈ as, a.transform r = .ok (f a)) :
    ∃ us, transformAll? r as = .ok us ∧ us.getD as = as.map f := by
  induction as with
  | nil => exact ⟨none, rfl, rfl⟩
  | cons a as ih =>
    obtain ⟨a', h', ha⟩ := transform_eq_ok.1 (h a (by simp))
    obtain ⟨us, hs, hus⟩ := ih fun b hb => h b (by simp [hb])
    rw [List.map_cons, ← ha, ← hus]
    simp only [transformAll?, h', hs, bind, Except.bind]
    cases a' <;> cases us <;> exact ⟨_, rfl, rfl⟩

/-- A quantifier that is entered is kept if its body did not change, and is otherwise built anew. -/
theorem transform_quant_eq {q : Quantifier} {v : Var} {body u : Term} (hv : r.stopsAt v = false)
    (h : body.transform r = .ok u) :
    (u = body ∧ (quant q v body).transform r = .ok (quant q v body)) ∨
      (quant q v body).transform r = .ok (mkQuant q v u) := by
  obtain ⟨body', hbody, rfl⟩ := transform_eq_ok.1 h
  have hv : ¬r.stopsAt v = true := by simp [hv]
  cases body' with
  | none =>
    refine Or.inl ⟨rfl, ?_⟩
    rw [transform, transform?, if_neg hv, hbody]
    rfl
  | some u =>
    right
    rw [transform, transform?, if_neg hv, hbody]
    rfl

theorem transform_quant_of_stops {q : Quantifier} {v : Var} {body : Term}
    (hv : r.stopsAt v = true) : (quant q v body).transform r = .ok (quant q v body) := by
  rw [transform, transform?, if_pos hv]
  rfl

theorem transform_var (v : Var) : (var v).transform r = .ok ((r.onVar v).getD (var v)) :=
  transform_eq_ok.2 ⟨_, by rw [transform?], getD_changedVar v _⟩

theorem transform_next (v : Var) : (next v).transform r = .ok ((r.onNext v).getD (next v)) :=
  transform_eq_ok.2 ⟨_, by rw [transform?], getD_changedNext v _⟩

/-- What a substitution makes of a variable is the variable, unless its identifier is mapped, or
what the identifier is mapped to. -/
theorem getD_ofSubst {H : Term → Prop} {s : Subst} {v : Var}
    (own : (v.role = .logical → s.get? v.name = none) → H (var v))
    (mapped : v.role = .logical → ∀ u, s.get? v.name = some u → H u) :
    H (((Replacement.ofSubst s).onVar v).getD (var v)) := by
  by_cases role : v.role = .logical
  · cases hu : s.get? v.name with
    | none => simpa [role, hu] using own fun _ => hu
    | some u => simpa [role, hu] using mapped role u hu
  · simpa [role] using own fun h => absurd h role

/-- An operator whose operands are transformed is kept if none of them changed, and is otherwise
built anew. -/
theorem transform_eq {t : Term} {o : Operator} (ho : t.operator? = some o) {f : Term → Term}
    (h : ∀ a ∈ t.operands, a.transform r = .ok (f a)) :
    (t.operands.map f = t.operands ∧ t.transform r = .ok t) ∨
      t.transform r = o.build (t.operands.map f) := by
  obtain ⟨us, hus, hmap⟩ := transformAll?_eq h
  cases us with
  | none =>
    refine Or.inl ⟨hmap.symm, ?_⟩
    rw [transform, transform?_operator r ho, hus]
    rfl
  | some us =>
    right
    have hmap : us = t.operands.map f := hmap
    rw [transform, transform?_operator r ho, hus, hmap]
    simp only [bind, Except.bind, rebuildAll]
    cases o.build (t.operands.map f) <;> rfl

/-- An operator whose operands become terms of their kinds becomes a folded form of itself on
these. -/
theorem transform_folds {t : Term} {o : Operator} (ho : t.operator? = some o)
    (accepts : o.accepts (t.operands.map sort) = true) {f : Term → Term}
    (h : ∀ a ∈ t.operands, a.transform r = .ok (f a))
    (sorted : ∀ a ∈ t.operands, (f a).sorted judge = true)
    (alike : ∀ a ∈ t.operands, (f a).sort.alike a.sort = true) :
    ∃ u, t.transform r = .ok u ∧ Folds judge u o (t.operands.map f) := by
  have sorted : ∀ u ∈ t.operands.map f, u.sorted judge = true := by simpa using sorted
  have accepts' := Operator.accepts_of_alike alike accepts
  rcases transform_eq ho h with ⟨kept, hu⟩ | hu
  · rw [kept] at sorted ⊢
    exact ⟨t, hu, folds_self ho ((sorted_operator ho).2 ⟨accepts, sorted⟩)⟩
  · obtain ⟨u, built, folds⟩ := folds_build sorted accepts'
    exact ⟨u, hu.trans built, folds⟩

/-- A term becomes another one of its kind, with the value it had in a changed environment. -/
structure Becomes (judge : Judge) (φ : Env → Env) (t u : Term) : Prop where
  sorted : u.sorted judge = true
  alike : u.sort.alike t.sort = true
  eval : ∀ ρ : Env, ρ.Typed → u.eval ρ = t.eval (φ ρ)

theorem Becomes.constraint {φ : Env → Env} {t u : Term} (h : Becomes judge φ t u)
    (hs : t.sort = .bool) : u.Constraint judge :=
  ⟨h.sorted, TermSort.alike_bool.1 (hs ▸ h.alike)⟩

/-- If the operands of an operator become other terms, so does the operator. -/
theorem transform_operator {φ : Env → Env} {t : Term} {o : Operator} (ho : t.operator? = some o)
    (accepts : o.accepts (t.operands.map sort) = true)
    (h : ∀ a ∈ t.operands, ∃ u, a.transform r = .ok u ∧ Becomes judge φ a u) :
    ∃ u, t.transform r = .ok u ∧ Becomes judge φ t u ∧ ∀ H, Hereditary H →
      (∀ a ∈ t.operands, ∀ u, a.transform r = .ok u → H u) → H u := by
  have : Nonempty Term := ⟨bot⟩
  choose! f hf becomes using h
  have alike a m := (becomes a m).alike
  obtain ⟨u, hu, folds⟩ := transform_folds ho accepts hf (fun a m => (becomes a m).sorted) alike
  refine ⟨u, hu, ⟨folds.sorted, ?_, fun ρ hρ => ?_⟩, fun H hH hall => folds.keeps H hH ?_⟩
  · rw [sort_operator ho]
    exact TermSort.alike_trans folds.alike (Operator.result_alike alike accepts)
  · rw [folds.eval ρ hρ, eval_operator ho, List.map_map]
    exact congrArg o.apply (List.map_congr_left fun a m => (becomes a m).eval ρ hρ)
  · simpa using fun a m => hall a m (f a) (hf a m)

/-- If the body of a quantifier becomes another one, so does the quantifier, provided that the
change leaves its variable alone. -/
theorem transform_quant {φ : Env → Env} {q : Quantifier} {v : Var} {body u : Term}
    (passes : r.stopsAt v = false) (hbool : body.sort = .bool) (hu : body.transform r = .ok u)
    (becomes : Becomes judge φ body u)
    (apart : ∀ ρ : Env, ρ.Typed → ∀ x, Value.IsOf v.sort x →
      body.eval (φ (ρ.set v x)) = body.eval ((φ ρ).set v x)) :
    ∃ u, (quant q v body).transform r = .ok u ∧ Becomes judge φ (quant q v body) u := by
  have constraint := becomes.constraint hbool
  have value (ρ : Env) (hρ : ρ.Typed) : (quant q v u).eval ρ = (quant q v body).eval (φ ρ) :=
    eval_quant_congr fun x hx => by rw [becomes.eval _ (hρ.set hx.fits), apart ρ hρ x hx]
  rcases transform_quant_eq (q := q) passes hu with ⟨rfl, h⟩ | h
  · exact ⟨_, h, (sorted_quant q v u).2 ⟨hbool, constraint.sorted⟩, TermSort.alike_refl _, value⟩
  · refine ⟨_, h, sorted_mkQuant constraint.sorted constraint.sort, ?_, fun ρ hρ => ?_⟩
    · rw [sort_mkQuant constraint.sort]
      rfl
    · rw [eval_mkQuant constraint.sort, value ρ hρ]

/-! ## Terms that are left alone -/

/-- A replacement finds nothing to replace in a term. -/
structure Unread (r : Replacement) (t : Term) : Prop where
  flowFree : t.flowFree = true
  now : ∀ v, t.mentions v = true → r.onVar v = none
  next : ∀ v, Term.next v ∈ t.subterms → r.onNext v = none
  stops : ∀ v, r.stopsAt v = true ∨ r.onVar v = none

theorem Unread.operand {t a : Term} {o : Operator} (ho : t.operator? = some o) (h : Unread r t)
    (ha : a ∈ t.operands) : Unread r a where
  flowFree := (hereditary_flowFree t o ho).1 h.flowFree a ha
  now v hv := h.now v ((mentions_operator ho).2 ⟨a, ha, hv⟩)
  next v hv := h.next v ((mem_subterms_operator ho).2 (Or.inr ⟨a, ha, hv⟩))
  stops := h.stops

/-- A term in which there is nothing to replace is left as it is. -/
theorem transform?_of_unread {t : Term} (h : Unread r t) : t.transform? r = .ok none := by
  obtain ⟨hf, now, next, stops⟩ := h
  induction t, hf using flowFree_induct with
  | operator t o ho hs hf ih =>
    have all : ∀ as : List Term, (∀ a ∈ as, a ∈ t.operands) → transformAll? r as = .ok none := by
      intro as
      induction as with
      | nil => exact fun _ => rfl
      | cons a as ih' =>
        intro m
        have ha : a ∈ t.operands := m a (by simp)
        have hu := Unread.operand ho ⟨hf, now, next, stops⟩ ha
        rw [transformAll?, ih a ha hu.now hu.next, ih' fun b hb => m b (by simp [hb])]
        rfl
    rw [transform?_operator r ho, all t.operands fun a ha => ha]
    rfl
  | var v => rw [transform?, now v (by simp)]; rfl
  | next v => rw [transform?, next v (by simp)]; rfl
  | quant q v body _ _ ih =>
    rw [transform?]
    split
    · rfl
    · next hv =>
      have hbody : transform? r body = .ok none := by
        refine ih (fun w hw => ?_) fun w hw => next w (by simp [hw])
        by_cases hwv : w = v
        · rw [hwv]
          exact (stops v).resolve_left hv
        · exact now w (mentions_quant.2 ⟨hw, hwv⟩)
      rw [hbody]
      rfl

theorem transform_of_unread {t : Term} (h : Unread r t) : t.transform r = .ok t :=
  transform_eq_ok.2 ⟨none, transform?_of_unread h, rfl⟩

/-- On a term without flow primitives an empty substitution is no special case. -/
theorem substitute_eq_transform {t : Term} (h : t.flowFree = true) (s : Subst) :
    t.substitute s = t.transform
      { onVar := fun v => if v.role = .logical then s.get? v.name else none } := by
  rw [substitute]
  split
  · next hs =>
    obtain rfl : s = [] := by simpa using hs
    exact (transform_of_unread ⟨h, fun v _ => by simp, fun _ _ => rfl,
      fun v => Or.inr (by simp)⟩).symm
  · rfl

theorem substituteNext_eq_transform {t : Term} (h : t.flowFree = true) (s : Subst) :
    t.substituteNext s = t.transform { onNext := fun v => s.get? v.name } := by
  rw [substituteNext]
  split
  · next hs =>
    obtain rfl : s = [] := by simpa using hs
    exact (transform_of_unread ⟨h, fun _ _ => rfl, fun _ _ => rfl, fun _ => Or.inr rfl⟩).symm
  · rfl

/-! ## Replacing variables and references -/

/-- A term is built by operators from variables, references after a jump, and terms of which no
structure is known. -/
inductive Over (P Q : Var → Prop) (F : Term → Prop) : Term → Prop where
  | var {v : Var} : P v → Over P Q F (var v)
  | next {v : Var} : Q v → Over P Q F (next v)
  | operator {t : Term} {o : Operator} : t.operator? = some o →
      (∀ a ∈ t.operands, Over P Q F a) → Over P Q F t
  | whole {t : Term} : F t → Over P Q F t

theorem Over.mono {P P' Q Q' : Var → Prop} {F F' : Term → Prop} (hP : ∀ v, P v → P' v)
    (hQ : ∀ v, Q v → Q' v) (hF : ∀ t, F t → F' t) {t : Term} (h : Over P Q F t) :
    Over P' Q' F' t := by
  induction h with
  | var h => exact .var (hP _ h)
  | next h => exact .next (hQ _ h)
  | operator ho _ ih => exact .operator ho ih
  | whole h => exact .whole (hF _ h)

theorem hereditary_over {P Q : Var → Prop} {F : Term → Prop}
    (down : ∀ t o, t.operator? = some o → F t → ∀ a ∈ t.operands, F a) :
    Hereditary (Over P Q F) := by
  intro t o ho
  refine ⟨fun h => ?_, .operator ho⟩
  cases h with
  | var | next => cases ho
  | operator _ h => exact h
  | whole h => exact fun a ha => .whole (down t o ho h a ha)

theorem Over.flowFree {P Q : Var → Prop} {F : Term → Prop} (hF : ∀ a, F a → a.flowFree = true)
    {t : Term} (h : Over P Q F t) : t.flowFree = true := by
  induction h with
  | var | next => rfl
  | operator ho _ ih => exact (hereditary_flowFree _ _ ho).2 ih
  | whole h => exact hF _ h

theorem Over.quantFree {P Q : Var → Prop} {t : Term} (h : Over P Q (fun _ => False) t) :
    t.quantFree = true := by
  induction h with
  | var | next => rfl
  | operator ho _ ih => exact (hereditary_quantFree _ _ ho).2 ih
  | whole h => exact h.elim

theorem Over.of_mentions {P Q : Var → Prop} {t : Term} (h : Over P Q (fun _ => False) t) {v : Var}
    (hv : t.mentions v = true) : P v := by
  induction h with
  | var h => exact mentions_var.1 hv ▸ h
  | next => simp at hv
  | operator ho _ ih =>
    obtain ⟨a, ha, hv⟩ := (mentions_operator ho).1 hv
    exact ih a ha hv
  | whole h => exact h.elim

theorem Over.of_next {P Q : Var → Prop} {t : Term} (h : Over P Q (fun _ => False) t) {v : Var}
    (hv : Term.next v ∈ t.subterms) : Q v := by
  induction h with
  | var => simp at hv
  | next h =>
    obtain rfl : v = _ := by simpa using hv
    exact h
  | operator ho _ ih =>
    rcases (mem_subterms_operator ho).1 hv with rfl | ⟨a, ha, hv⟩
    · cases ho
    · exact ih a ha hv
  | whole h => exact h.elim

theorem Over.uses {P Q B : Var → Prop} {t : Term} (h : Over P Q (fun _ => False) t) :
    t.Uses P Q B noPrimitive := by
  induction h with
  | var h => exact uses_var.2 h
  | next h => exact uses_next.2 h
  | operator ho _ ih => exact (hereditary_uses _ _ ho).2 ih
  | whole h => exact h.elim

/-- The value of a term comes from the values of what it is built from. -/
theorem Over.eval_congr {P Q : Var → Prop} {F : Term → Prop} {ρ ρ' : Env}
    (now : ∀ v, P v → ρ.now v = ρ'.now v) (next : ∀ v, Q v → ρ.next v = ρ'.next v)
    (whole : ∀ a, F a → a.eval ρ = a.eval ρ') {t : Term} (h : Over P Q F t) :
    t.eval ρ = t.eval ρ' := by
  induction h with
  | var h => exact now _ h
  | next h => exact next _ h
  | operator ho _ ih => rw [eval_operator ho, eval_operator ho, List.map_congr_left ih]
  | whole h => exact whole _ h

/-- A term without quantifiers and flow primitives is built from what it reads. -/
theorem over_of_quantFree {P Q : Var → Prop} {F : Term → Prop} {t : Term}
    (hf : t.flowFree = true) (hq : t.quantFree = true) (now : ∀ v, t.mentions v = true → P v)
    (next : ∀ v, Term.next v ∈ t.subterms → Q v) : Over P Q F t := by
  induction t, hf using flowFree_induct with
  | operator t o ho _ _ ih =>
    refine .operator ho fun a ha => ?_
    exact ih a ha ((hereditary_quantFree t o ho).1 hq a ha)
      (fun v hv => now v ((mentions_operator ho).2 ⟨a, ha, hv⟩))
      fun v hv => next v ((mem_subterms_operator ho).2 (Or.inr ⟨a, ha, hv⟩))
  | var v => exact .var (now v (by simp))
  | next v => exact .next (next v (by simp))
  | quant => simp at hq

end Term

/-- The environment in which variables and references have the values of their replacements. -/
noncomputable def Replacement.pull (r : Replacement) (ρ : Env) : Env where
  now v := ((r.onVar v).map (·.eval ρ)).getD (ρ.now v)
  next v := ((r.onNext v).map (·.eval ρ)).getD (ρ.next v)

namespace Term

theorem eval_of_unread {r : Replacement} {t : Term} (h : Unread r t) (ρ : Env) :
    t.eval ρ = t.eval (r.pull ρ) := by
  refine eval_congr h.flowFree ⟨fun v hv => ?_, fun v hv => ?_⟩
  · simp [Replacement.pull, h.now v hv]
  · simp [Replacement.pull, h.next v hv]

/-- Replacing variables and references by terms of their kind. -/
theorem transform_over {judge : Judge} {r : Replacement} {P Q : Var → Prop} {F : Term → Prop}
    (unread : ∀ a, F a → Unread r a)
    (onVar : ∀ v u, P v → r.onVar v = some u →
      u.sorted judge = true ∧ u.sort.alike v.sort = true)
    (onNext : ∀ v u, Q v → r.onNext v = some u →
      u.sorted judge = true ∧ u.sort.alike v.sort = true)
    {t : Term} (ht : Over P Q F t) (sorted : t.sorted judge = true) :
    ∃ u, t.transform r = .ok u ∧ Becomes judge r.pull t u ∧ ∀ H, Hereditary H →
      (∀ v, P v → H ((r.onVar v).getD (var v))) → (∀ v, Q v → H ((r.onNext v).getD (next v))) →
      (∀ a, F a → H a) → H u := by
  induction ht with
  | @var v hv =>
    refine ⟨(r.onVar v).getD (var v), transform_var v, ?_, fun H _ h _ _ => h v hv⟩
    cases h : r.onVar v with
    | none => exact ⟨rfl, TermSort.alike_refl _, fun ρ _ => by simp [eval, Replacement.pull, h]⟩
    | some u =>
      obtain ⟨hu, ha⟩ := onVar v u hv h
      exact ⟨hu, ha, fun ρ _ => by simp [eval, Replacement.pull, h]⟩
  | @next v hv =>
    refine ⟨(r.onNext v).getD (next v), transform_next v, ?_, fun H _ _ h _ => h v hv⟩
    cases h : r.onNext v with
    | none => exact ⟨rfl, TermSort.alike_refl _, fun ρ _ => by simp [eval, Replacement.pull, h]⟩
    | some u =>
      obtain ⟨hu, ha⟩ := onNext v u hv h
      exact ⟨hu, ha, fun ρ _ => by simp [eval, Replacement.pull, h]⟩
  | @operator t o ho _ ih =>
    obtain ⟨accepts, sorted⟩ := (sorted_operator ho).1 sorted
    have operands a ha := ih a ha (sorted a ha)
    obtain ⟨u, hu, becomes, keeps⟩ := transform_operator (r := r) ho accepts fun a ha => by
      obtain ⟨u, hu, becomes, -⟩ := operands a ha
      exact ⟨u, hu, becomes⟩
    refine ⟨u, hu, becomes, fun H hH h1 h2 h3 => keeps H hH fun a ha w hw => ?_⟩
    obtain ⟨u', hu', -, keeps'⟩ := operands a ha
    cases hu'.symm.trans hw
    exact keeps' H hH h1 h2 h3
  | @whole t h =>
    refine ⟨t, transform_of_unread (unread t h), ⟨sorted, TermSort.alike_refl _, fun ρ _ => ?_⟩,
      fun H _ _ _ h3 => h3 t h⟩
    exact eval_of_unread (unread t h) ρ

/-! ## Substitution -/

section

variable {judge : Judge} {P Q : Var → Prop} {F : Term → Prop} {s : Subst} {t : Term}

/-- Identifiers of a term without quantifiers are read from a substitution. -/
theorem substitute_over
    (fit : ∀ v u, P v → v.role = .logical → s.get? v.name = some u →
      u.sorted judge = true ∧ u.sort.alike v.sort = true)
    (ht : Over P Q (fun _ => False) t) (sorted : t.sorted judge = true) :
    ∃ u, t.substitute s = .ok u ∧ Becomes judge (fun ρ => ρ.bind (s.mapValues (·.eval ρ))) t u ∧
      ∀ H, Hereditary H →
        (∀ v, P v → H ((if v.role = .logical then s.get? v.name else none).getD (var v))) →
        (∀ v, Q v → H (next v)) → H u := by
  let r : Replacement := { onVar := fun v => if v.role = .logical then s.get? v.name else none }
  have pull (ρ : Env) (hρ : ρ.Typed) :
      t.eval (r.pull ρ) = t.eval (ρ.bind (s.mapValues (·.eval ρ))) := by
    refine ht.eval_congr (fun v hv => ?_) (fun v _ => ?_) fun _ h => h.elim
    swap
    · rfl
    by_cases hr : v.role = .logical
    · cases hu : s.get? v.name with
      | none => simp [r, Replacement.pull, Env.bind, hr, hu]
      | some u =>
        obtain ⟨hs, alike⟩ := fit v u hv hr hu
        simp [r, Replacement.pull, Env.bind, hr, hu,
          Value.found_some ((fits_eval hs hρ).of_alike alike)]
    · simp [r, Replacement.pull, Env.bind, hr]
  have onVar v u (hv : P v) (h : r.onVar v = some u) :
      u.sorted judge = true ∧ u.sort.alike v.sort = true := by
    by_cases hr : v.role = .logical
    · exact fit v u hv hr (by simpa [r, hr] using h)
    · simp [r, hr] at h
  have onNext v u (_ : Q v) (h : r.onNext v = some u) :
      u.sorted judge = true ∧ u.sort.alike v.sort = true := by cases h
  obtain ⟨u, hu, becomes, keeps⟩ := transform_over (fun _ h => h.elim) onVar onNext ht sorted
  have value : Becomes judge (fun ρ => ρ.bind (s.mapValues (·.eval ρ))) t u :=
    ⟨becomes.sorted, becomes.alike, fun ρ hρ => (becomes.eval ρ hρ).trans (pull ρ hρ)⟩
  refine ⟨u, ?_, value, fun H hH h1 h2 => keeps H hH h1 h2 fun _ h => h.elim⟩
  exact (substitute_eq_transform (ht.flowFree fun _ h => h.elim) s).trans hu

/-- A term in which a substitution has no reference after a jump to resolve. -/
structure NextFree (s : Subst) (t : Term) : Prop where
  flowFree : t.flowFree = true
  next : ∀ v, Term.next v ∈ t.subterms → s.get? v.name = none

/-- References after a jump are read from a substitution. -/
theorem substituteNext_over (unresolved : ∀ a, F a → NextFree s a)
    (fit : ∀ v u, Q v → s.get? v.name = some u →
      u.sorted judge = true ∧ u.sort.alike v.sort = true)
    (ht : Over P Q F t) (sorted : t.sorted judge = true) :
    ∃ u, t.substituteNext s = .ok u ∧
      Becomes judge (fun ρ => ρ.bindNext (s.mapValues (·.eval ρ))) t u ∧
      ∀ H, Hereditary H → (∀ v, P v → H (var v)) →
        (∀ v, Q v → H ((s.get? v.name).getD (next v))) → (∀ a, F a → H a) → H u := by
  let r : Replacement := { onNext := fun v => s.get? v.name }
  have pull (ρ : Env) (hρ : ρ.Typed) :
      t.eval (r.pull ρ) = t.eval (ρ.bindNext (s.mapValues (·.eval ρ))) := by
    refine ht.eval_congr (fun v _ => ?_) (fun v hv => ?_) fun a ha => ?_
    · rfl
    · cases hu : s.get? v.name with
      | none => simp [r, Replacement.pull, Env.bindNext, hu]
      | some u =>
        obtain ⟨hs, alike⟩ := fit v u hv hu
        simp [r, Replacement.pull, Env.bindNext, hu,
          Value.found_some ((fits_eval hs hρ).of_alike alike)]
    · refine eval_congr (unresolved a ha).flowFree ⟨fun _ _ => rfl, fun v hv => ?_⟩
      have := (unresolved a ha).next v hv
      simp [r, Replacement.pull, Env.bindNext, this]
  have onVar v u (_ : P v) (h : r.onVar v = some u) :
      u.sorted judge = true ∧ u.sort.alike v.sort = true := by cases h
  have unread a (h : NextFree s a) : Unread r a :=
    ⟨h.flowFree, fun _ _ => rfl, h.next, fun _ => Or.inr rfl⟩
  obtain ⟨u, hu, becomes, keeps⟩ :=
    transform_over (fun a h => unread a (unresolved a h)) onVar fit ht sorted
  have value : Becomes judge (fun ρ => ρ.bindNext (s.mapValues (·.eval ρ))) t u :=
    ⟨becomes.sorted, becomes.alike, fun ρ hρ => (becomes.eval ρ hρ).trans (pull ρ hρ)⟩
  refine ⟨u, ?_, value, fun H hH h1 h2 h3 => keeps H hH h1 h2 h3⟩
  exact (substituteNext_eq_transform (ht.flowFree fun a h => (unresolved a h).flowFree) s).trans hu

/-- A term without flow primitives that does not mention a variable. -/
structure Fresh (c : Var) (t : Term) : Prop where
  flowFree : t.flowFree = true
  mentions : t.mentions c = false

theorem Fresh.operand {c : Var} {t a : Term} {o : Operator} (ho : t.operator? = some o)
    (h : Fresh c t) (ha : a ∈ t.operands) : Fresh c a :=
  ⟨(hereditary_flowFree t o ho).1 h.flowFree a ha,
    (hereditary_not_mentions c t o ho).1 h.mentions a ha⟩

theorem NextFree.operand {t a : Term} {o : Operator} (ho : t.operator? = some o)
    (h : NextFree s t) (ha : a ∈ t.operands) : NextFree s a :=
  ⟨(hereditary_flowFree t o ho).1 h.flowFree a ha,
    fun v hv => h.next v ((mem_subterms_operator ho).2 (Or.inr ⟨a, ha, hv⟩))⟩

/-- One variable is read from a term put in its place. -/
theorem replace_over {c : Var} {d : Term} (fresh : ∀ a, F a → Fresh c a)
    (hd : d.sorted judge = true) (alike : d.sort.alike c.sort = true) (ht : Over P Q F t)
    (sorted : t.sorted judge = true) :
    ∃ u, t.replace c d = .ok u ∧ Becomes judge (fun ρ => ρ.set c (d.eval ρ)) t u ∧
      ∀ H, Hereditary H → H d → (∀ v, P v → v ≠ c → H (var v)) → (∀ v, Q v → H (next v)) →
        (∀ a, F a → H a) → H u := by
  let r : Replacement :=
    { onVar := fun w => if w = c then some d else none, stopsAt := fun w => w = c }
  have pull ρ : r.pull ρ = ρ.set c (d.eval ρ) := by
    refine Env.ext (funext fun v => ?_) rfl
    by_cases hv : v = c
    · simp [r, Replacement.pull, Env.set, hv]
    · simp [r, Replacement.pull, Env.set, hv]
  have onVar v u (_ : P v) (h : r.onVar v = some u) :
      u.sorted judge = true ∧ u.sort.alike v.sort = true := by
    by_cases hv : v = c
    · obtain rfl : d = u := by simpa [r, hv] using h
      exact ⟨hd, hv ▸ alike⟩
    · simp [r, hv] at h
  have onNext v u (_ : Q v) (h : r.onNext v = some u) :
      u.sorted judge = true ∧ u.sort.alike v.sort = true := by cases h
  have unread a (h : Fresh c a) : Unread r a := by
    refine ⟨h.flowFree, fun v hv => ?_, fun _ _ => rfl, fun v => ?_⟩
    · refine if_neg ?_
      rintro rfl
      rw [h.mentions] at hv
      cases hv
    · by_cases hv : v = c
      · exact Or.inl (by simp [r, hv])
      · exact Or.inr (by simp [r, hv])
  obtain ⟨u, hu, becomes, keeps⟩ := transform_over (fun a h => unread a (fresh a h)) onVar onNext ht
    sorted
  have value : Becomes judge (fun ρ => ρ.set c (d.eval ρ)) t u :=
    ⟨becomes.sorted, becomes.alike, fun ρ hρ => by rw [becomes.eval ρ hρ, pull]⟩
  refine ⟨u, hu, value, fun H hH h1 h2 h3 h4 => keeps H hH (fun v hv => ?_) h3 h4⟩
  by_cases hvc : v = c
  · simpa [r, hvc] using h1
  · simpa [r, hvc] using h2 v hv hvc

end

end Term

end HybridCheck
