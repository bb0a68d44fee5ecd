import HybridCheck.Proofs.Substitution

/-!
# Arithmetic without truth values

Arithmetic has no answer where it would need the number of a Boolean constant. Whether an operand
can become one is told by its shape: connectives, comparisons and quantifiers can, variables cannot
as long as they are replaced by numbers. If no operand of arithmetic in a term can become a truth
value, then replacing variables and references by terms of which the same is true always has an
answer, and the answer is again such a term.
-/

namespace HybridCheck

/-- Arithmetic takes numbers only. -/
theorem Operator.numeric_of_accepts {o : Operator} {ss : List TermSort}
    (harith : o.arithmetic = true) (h : o.accepts ss = true) : ∀ s ∈ ss, s.numeric = true := by
  cases o with
  | num => rcases ss with _ | ⟨s, ss⟩ <;> simp [accepts] at h ⊢
  | add | mul => simpa [accepts] using h
  | neg =>
    rcases ss with _ | ⟨s, _ | ⟨s', ss⟩⟩ <;> simp [accepts] at h ⊢
    exact h
  | sub | div =>
    rcases ss with _ | ⟨s, _ | ⟨s', _ | ⟨s'', ss⟩⟩⟩ <;> simp [accepts] at h ⊢
    exact h
  | bool | not | and | or | implies | ite | cmp => cases harith

namespace Term

/-! ## Answers that are missing -/

section

variable {a b : Term} {as : List Term} {e : Failure}

theorem splitNumbers_error (h : splitNumbers as = .error e) : e = .fault .booleanOperand := by
  induction as with
  | nil => cases h
  | cons a as ih =>
    cases a with
    | bool b =>
      cases h
      rfl
    | _ =>
      obtain h | ⟨_, -, h⟩ := Attempt.bind_eq_error.1 h
      · exact ih h
      · cases h

theorem mkAdd_error (h : mkAdd as = .error e) : e = .fault .booleanOperand := by
  obtain h | ⟨_, -, h⟩ := Attempt.bind_eq_error.1 h
  · exact splitNumbers_error h
  · dsimp only at h
    split at h <;> cases h

theorem mkMul_error (h : mkMul as = .error e) : e = .fault .booleanOperand := by
  obtain h | ⟨_, -, h⟩ := Attempt.bind_eq_error.1 h
  · exact splitNumbers_error h
  · dsimp only at h
    split at h
    · cases h
    · split at h <;> cases h

theorem mkSub_error (h : mkSub a b = .error e) : e = .fault .booleanOperand := by
  unfold mkSub at h
  repeat' split at h
  all_goals cases h
  all_goals rfl

theorem mkDiv_error (h : mkDiv a b = .error e) : e = .fault .booleanOperand := by
  unfold mkDiv at h
  repeat' split at h
  all_goals cases h
  all_goals rfl

theorem mkNeg_error (h : mkNeg a = .error e) : e = .fault .booleanOperand := by
  unfold mkNeg at h
  split at h <;> cases h
  rfl

end

/-! ## Operands that are no truth values -/

section

variable {a b u : Term} {as : List Term}

def NotBool (t : Term) : Prop := ∀ b, t ≠ .bool b

theorem notBool_of_splitNumbers {r : List Rat × List Term} (h : splitNumbers as = .ok r) :
    ∀ a ∈ as, NotBool a := by
  induction as generalizing r with
  | nil => simp
  | cons a as ih =>
    obtain ⟨qs', rest', hs, -⟩ := splitNumbers_cons h
    have ha : NotBool a := by
      rintro b rfl
      cases h
    exact List.forall_mem_cons.2 ⟨ha, ih hs⟩

theorem exists_splitNumbers (h : ∀ a ∈ as, NotBool a) : ∃ r, splitNumbers as = .ok r := by
  induction as with
  | nil => exact ⟨_, rfl⟩
  | cons a as ih =>
    obtain ⟨ha, has⟩ := List.forall_mem_cons.1 h
    obtain ⟨r, hr⟩ := ih has
    cases a with
    | bool b => exact (ha b rfl).elim
    | num s q => exact ⟨_, Attempt.bind_eq_ok.2 ⟨r, hr, rfl⟩⟩
    | _ => exact ⟨_, Attempt.bind_eq_ok.2 ⟨r, hr, rfl⟩⟩

theorem notBool_of_mkAdd (h : mkAdd as = .ok u) : ∀ a ∈ as, NotBool a := by
  obtain ⟨r, hr, -⟩ := Attempt.bind_eq_ok.1 h
  exact notBool_of_splitNumbers hr

theorem notBool_of_mkMul (h : mkMul as = .ok u) : ∀ a ∈ as, NotBool a := by
  obtain ⟨r, hr, -⟩ := Attempt.bind_eq_ok.1 h
  exact notBool_of_splitNumbers hr

theorem notBool_of_mkSub (h : mkSub a b = .ok u) : NotBool b := by
  rintro c rfl
  cases h

theorem notBool_of_mkDiv (h : mkDiv a b = .ok u) : NotBool b := by
  rintro c rfl
  cases h

theorem notBool_of_mkNeg (h : mkNeg a = .ok u) : NotBool a := by
  rintro c rfl
  cases h

theorem notBool_num (s : NumSort) (q : Rat) : NotBool (.num s q) := nofun

theorem notBool_var (v : Var) : NotBool (.var v) := nofun

theorem exists_mkAdd (h : ∀ a ∈ as, NotBool a) : ∃ u, mkAdd as = .ok u ∧ NotBool u := by
  obtain ⟨⟨qs, rest⟩, hs⟩ := exists_splitNumbers h
  have kept : ∀ a ∈ (if qs.foldr (· + ·) 0 ≠ 0 ∨ rest.isEmpty then
      rest ++ [Term.num (arithSort as) (qs.foldr (· + ·) 0)] else rest), NotBool a := by
    intro a ha
    split at ha
    · rcases List.mem_append.1 ha with ha | ha
      · exact h a (mem_of_splitNumbers hs a ha)
      · obtain rfl := List.mem_singleton.1 ha
        exact notBool_num _ _
    · exact h a (mem_of_splitNumbers hs a ha)
  unfold mkAdd
  rw [hs]
  dsimp only [Attempt.bind_ok]
  split
  · next heq => exact ⟨_, rfl, kept _ (by rw [heq]; simp)⟩
  · exact ⟨_, rfl, nofun⟩

theorem exists_mkMul (h : ∀ a ∈ as, NotBool a) : ∃ u, mkMul as = .ok u ∧ NotBool u := by
  obtain ⟨⟨qs, rest⟩, hs⟩ := exists_splitNumbers h
  have kept : ∀ a ∈ (if qs.foldr (· * ·) 1 ≠ 1 ∨ rest.isEmpty then
      Term.num (arithSort as) (qs.foldr (· * ·) 1) :: rest else rest), NotBool a := by
    intro a ha
    split at ha
    · rcases List.mem_cons.1 ha with rfl | ha
      · exact notBool_num _ _
      · exact h a (mem_of_splitNumbers hs a ha)
    · exact h a (mem_of_splitNumbers hs a ha)
  unfold mkMul
  rw [hs]
  dsimp only [Attempt.bind_ok]
  split
  · exact ⟨_, rfl, notBool_num _ _⟩
  · split
    · next heq => exact ⟨_, rfl, kept _ (by rw [heq]; simp)⟩
    · exact ⟨_, rfl, nofun⟩

theorem exists_mkSub (ha : NotBool a) (hb : NotBool b) : ∃ u, mkSub a b = .ok u ∧ NotBool u := by
  unfold mkSub
  split
  · next c => exact (hb c rfl).elim
  · split
    · exact ⟨_, rfl, ha⟩
    · split
      · next c => exact (ha c rfl).elim
      · exact ⟨_, rfl, nofun⟩
      · exact ⟨_, rfl, nofun⟩
  · exact ⟨_, rfl, nofun⟩

theorem exists_mkDiv (ha : NotBool a) (hb : NotBool b) : ∃ u, mkDiv a b = .ok u ∧ NotBool u := by
  unfold mkDiv
  split
  · next c => exact (hb c rfl).elim
  · split
    · exact ⟨_, rfl, nofun⟩
    · split
      · next c => exact (ha c rfl).elim
      · exact ⟨_, rfl, notBool_num _ _⟩
      · split
        · exact ⟨_, rfl, ha⟩
        · exact ⟨_, rfl, nofun⟩
  · exact ⟨_, rfl, nofun⟩

end

/-! ## Terms that never calculate with truth values -/

/-- Whether a term can become a truth value, as far as its shape shows. -/
def truthful : Term → Bool
  | bool _ | not _ | and _ | or _ | implies .. | cmp .. | quant .. | integral _ | throughout .. =>
    true
  | ite _ a b => truthful a || truthful b
  | var _ | num .. | next _ | add .. | sub .. | mul .. | div .. | neg _ => false

/-- Whether a node is no arithmetic on something that can become a truth value. -/
def calculates (n : Term) : Bool :=
  match n.operator? with
  | some o => !o.arithmetic || n.operands.all fun a => !a.truthful
  | none => true

/-- Whether no arithmetic in a term is on something that can become a truth value. -/
def arithmetical (t : Term) : Bool := t.subterms.all calculates

/-- No arithmetic in a term is on something that can become a truth value, and its flow primitives
are those named. -/
def Safe (F : Term → Prop) (t : Term) : Prop :=
  ∀ n ∈ t.subterms, n.calculates = true ∧ (n.isFlow = true → F n)

/-- A term that arithmetic may be done on. -/
structure Quantity (F : Term → Prop) (t : Term) : Prop where
  safe : t.Safe F
  numeric : t.truthful = false

/-- A term can take the place of another: it may be calculated with if the other may. -/
structure Substitutes (F : Term → Prop) (t u : Term) : Prop where
  safe : u.Safe F
  numeric : t.truthful = false → u.truthful = false

section

variable {F F' : Term → Prop} {t u a b : Term} {as : List Term} {v : Var}

theorem Safe.mono (h : t.Safe F) (hF : ∀ a, F a → F' a) : t.Safe F' := fun n hn =>
  ⟨(h n hn).1, fun hflow => hF n ((h n hn).2 hflow)⟩

theorem safe_operator {o : Operator} (ho : t.operator? = some o) : t.Safe F ↔
    (o.arithmetic = true → ∀ a ∈ t.operands, a.truthful = false) ∧ ∀ a ∈ t.operands, a.Safe F := by
  have plain : t.isFlow = false := by cases t <;> cases ho <;> rfl
  have node : t.calculates = true ↔
      (o.arithmetic = true → ∀ a ∈ t.operands, a.truthful = false) := by
    cases harith : o.arithmetic <;> simp [calculates, ho, harith]
  rw [Safe, forall_subterms_operator ho, node]
  simp [plain, Safe]

/-- Operators other than arithmetic are safe if their operands are. -/
theorem inherited_safe : Inherited (·.arithmetic = false) (Safe F) := by
  intro t o ho hlogical
  rw [safe_operator ho]
  simp [hlogical]

theorem connectives_safe : Inherited (·.connective = true) (Safe F) := inherited_safe.connectives

/-- The results of arithmetic may be calculated with. -/
theorem inherited_quantity : Inherited (·.arithmetic = true) (Quantity F) := by
  intro t o ho harith
  have numeric : t.truthful = false := by cases t <;> cases ho <;> first | rfl | cases harith
  constructor
  · intro h a ha
    obtain ⟨own, operands⟩ := (safe_operator ho).1 h.safe
    exact ⟨operands a ha, own harith a ha⟩
  · intro h
    exact ⟨(safe_operator ho).2 ⟨fun _ a ha => (h a ha).numeric, fun a ha => (h a ha).safe⟩,
      numeric⟩

@[simp] theorem quantity_var : (var v).Quantity F := by
  refine ⟨fun n hn => ?_, rfl⟩
  obtain rfl := List.mem_singleton.1 hn
  exact ⟨rfl, nofun⟩

@[simp] theorem quantity_next : (next v).Quantity F := by
  refine ⟨fun n hn => ?_, rfl⟩
  obtain rfl := List.mem_singleton.1 hn
  exact ⟨rfl, nofun⟩

theorem quantity_zero : zero.Quantity F := inherited_quantity.num _ _

@[simp] theorem safe_quant {q : Quantifier} : (quant q v t).Safe F ↔ t.Safe F := by
  simp [Safe, calculates, operator?, isFlow]

theorem Safe.mkQuant (h : t.Safe F) (q : Quantifier) (v : Var) : (mkQuant q v t).Safe F := by
  unfold Term.mkQuant
  split
  · exact h
  · exact safe_quant.2 h

theorem safe_of_arithmetical (h : t.arithmetical = true) (plain : t.flowFree = true) :
    t.Safe noPrimitive := by
  simp only [arithmetical, flowFree, List.all_eq_true] at h plain
  intro n hn
  refine ⟨h n hn, fun hflow => ?_⟩
  have := plain n hn
  simp [hflow] at this

/-- A well-sorted number cannot become a truth value. -/
theorem truthful_of_numeric {judge : Judge} (sorted : t.sorted judge = true)
    (numeric : t.sort.numeric = true) : t.truthful = false := by
  fun_induction truthful t with
  | case10 c a b iha ihb =>
    obtain ⟨accepts, operands⟩ := (sorted_operator (o := .ite) rfl).1 sorted
    simp only [Operator.accepts, Term.operands, List.map_cons, List.map_nil, Bool.and_eq_true]
      at accepts
    have second := TermSort.numeric_of_alike (TermSort.alike_symm accepts.2) numeric
    rw [iha (operands a (by simp [Term.operands])) numeric,
      ihb (operands b (by simp [Term.operands])) second]
    rfl
  | _ => first | rfl | cases numeric

/-- Arithmetic in a well-sorted term is on numbers. -/
theorem safe_of_plain (h : t.plain = true) : t.Safe noPrimitive := by
  induction t, flowFree_of_plain h using flowFree_induct with
  | operator t o ho _ _ ih =>
    obtain ⟨accepts, operands⟩ := (sorted_operator ho).1 h
    refine (safe_operator ho).2 ⟨fun harith a ha => ?_, fun a ha => ih a ha (operands a ha)⟩
    exact truthful_of_numeric (operands a ha)
      (Operator.numeric_of_accepts harith accepts _ (List.mem_map_of_mem ha))
  | var v => exact quantity_var.safe
  | next v => exact quantity_next.safe
  | quant q v body _ _ ih =>
    have inner : body.plain = true := by
      simp only [sorted, List.all_eq_true] at h ⊢
      exact fun n hn => h n (by simp [hn])
    exact safe_quant.2 (ih inner)

theorem Quantity.substitutes (h : u.Quantity F) : Substitutes F t u := ⟨h.safe, fun _ => h.numeric⟩

/-- A truth value may become anything. -/
theorem Safe.substitutes (h : u.Safe F) (ht : t.truthful = true) : Substitutes F t u :=
  ⟨h, fun numeric => absurd (ht.symm.trans numeric) (by decide)⟩

/-! ## Building -/

theorem Quantity.notBool (h : t.Quantity F) : NotBool t := by
  rintro b rfl
  cases h.numeric

theorem Quantity.mkAdd (h : ∀ a ∈ as, Quantity F a) : ∃ u, mkAdd as = .ok u ∧ u.Quantity F := by
  obtain ⟨u, hu, -⟩ := exists_mkAdd fun a ha => (h a ha).notBool
  exact ⟨u, hu, inherited_quantity.mkAdd h hu⟩

theorem Quantity.mkMul (h : ∀ a ∈ as, Quantity F a) : ∃ u, mkMul as = .ok u ∧ u.Quantity F := by
  obtain ⟨u, hu, -⟩ := exists_mkMul fun a ha => (h a ha).notBool
  exact ⟨u, hu, inherited_quantity.mkMul h hu⟩

theorem Quantity.mkSub (ha : a.Quantity F) (hb : b.Quantity F) :
    ∃ u, mkSub a b = .ok u ∧ u.Quantity F := by
  obtain ⟨u, hu, -⟩ := exists_mkSub ha.notBool hb.notBool
  exact ⟨u, hu, inherited_quantity.mkSub ha hb hu⟩

theorem Quantity.mkDiv (ha : a.Quantity F) (hb : b.Quantity F) :
    ∃ u, mkDiv a b = .ok u ∧ u.Quantity F := by
  obtain ⟨u, hu, -⟩ := exists_mkDiv ha.notBool hb.notBool
  exact ⟨u, hu, inherited_quantity.mkDiv ha hb hu⟩

theorem Quantity.mkNeg (ha : a.Quantity F) : ∃ u, mkNeg a = .ok u ∧ u.Quantity F := by
  have answer : ∃ u, Term.mkNeg a = .ok u := by
    unfold Term.mkNeg
    split
    · exact (ha.notBool _ rfl).elim
    all_goals exact ⟨_, rfl⟩
  obtain ⟨u, hu⟩ := answer
  exact ⟨u, hu, inherited_quantity.mkNeg ha hu⟩

/-- A conditional can become a truth value only if one of its branches can. -/
theorem truthful_mkIte {c : Term} (ha : a.truthful = false) (hb : b.truthful = false) :
    (mkIte c a b).truthful = false := by
  unfold Term.mkIte
  split
  · exact ha
  · exact hb
  · simp [truthful, ha, hb]

/-- Only a conditional is neither arithmetic nor a truth value. -/
theorem eq_ite {o : Operator} (ho : t.operator? = some o) (hlogical : o.arithmetic = false)
    (numeric : t.truthful = false) : ∃ c a b, t = ite c a b := by
  cases t <;> cases ho <;> simp_all [Operator.arithmetic, truthful]

theorem Quantity.build {o : Operator} (ho : t.operator? = some o) (harith : o.arithmetic = true)
    {f : Term → Term} (h : ∀ a ∈ t.operands, (f a).Quantity F) :
    ∃ u, o.build (t.operands.map f) = .ok u ∧ u.Quantity F := by
  have list : ∀ u ∈ t.operands.map f, u.Quantity F := List.forall_mem_map.2 h
  cases t <;> cases ho <;> try cases harith
  case num s q => exact ⟨_, rfl, inherited_quantity.num s q⟩
  case add s as => exact Quantity.mkAdd list
  case mul s as => exact Quantity.mkMul list
  case sub a b => exact (h a (by simp [operands])).mkSub (h b (by simp [operands]))
  case div a b => exact (h a (by simp [operands])).mkDiv (h b (by simp [operands]))
  case neg a => exact (h a (by simp [operands])).mkNeg

/-- An operator has an answer on operands that take the places of its own. -/
theorem Safe.build {o : Operator} (ho : t.operator? = some o) (ht : t.Safe F) {f : Term → Term}
    (h : ∀ a ∈ t.operands, Substitutes F' a (f a)) :
    ∃ u, o.build (t.operands.map f) = .ok u ∧ Substitutes F' t u := by
  obtain ⟨own, -⟩ := (safe_operator ho).1 ht
  cases harith : o.arithmetic with
  | true =>
    obtain ⟨u, hu, quantity⟩ := Quantity.build ho harith fun a ha =>
      ⟨(h a ha).safe, (h a ha).numeric (own harith a ha)⟩
    exact ⟨u, hu, quantity.substitutes⟩
  | false =>
    have answer : ∃ u, o.build (t.operands.map f) = .ok u := by
      cases t <;> cases ho <;> first | exact ⟨_, rfl⟩ | cases harith
    obtain ⟨u, hu⟩ := answer
    have inherited : Inherited (·.arithmetic = o.arithmetic) (Safe F') := harith ▸ inherited_safe
    have safe := inherited.build (List.forall_mem_map.2 fun a ha => (h a ha).safe) hu
    refine ⟨u, hu, safe, fun numeric => ?_⟩
    obtain ⟨c, a, b, rfl⟩ := eq_ite ho harith numeric
    cases ho
    cases hu
    simp only [truthful, Bool.or_eq_false_iff] at numeric
    exact truthful_mkIte ((h a (by simp [operands])).numeric numeric.1)
      ((h b (by simp [operands])).numeric numeric.2)

/-! ## Replacing -/

variable {r : Replacement}

/-- A replacement has an answer on every term without arithmetic on truth values, if it replaces
variables and references by what may be calculated with and has an answer on the flow primitives. -/
theorem Safe.transform (now : ∀ v, ((r.onVar v).getD (var v)).Quantity F')
    (next : ∀ v, ((r.onNext v).getD (next v)).Quantity F')
    (flow : ∀ a, F a → ∃ u, a.transform r = .ok u ∧ u.Safe F')
    (stops : ∀ v, r.stopsAt v = true → ∀ a, F a → F' a) (h : t.Safe F) :
    ∃ u, t.transform r = .ok u ∧ Substitutes F' t u := by
  have : Nonempty Term := ⟨bot⟩
  induction t using induct with
  | operator t o ho ih =>
    have operands a ha := ih a ha (((safe_operator ho).1 h).2 a ha)
    choose! f hf substitutes using operands
    obtain ⟨us, hus, hmap⟩ := transformAll?_eq hf
    obtain ⟨u, hu, answer⟩ := h.build ho substitutes
    cases us with
    | none =>
      have same : t.operands = t.operands.map f := hmap
      refine ⟨t, transform_eq_ok.2 ⟨none, ?_, rfl⟩, ?_, id⟩
      · rw [transform?_operator r ho, hus]
        rfl
      · refine (safe_operator ho).2 ⟨((safe_operator ho).1 h).1, ?_⟩
        rw [same]
        exact List.forall_mem_map.2 fun a ha => (substitutes a ha).safe
    | some us =>
      obtain rfl : us = t.operands.map f := hmap
      refine ⟨u, transform_eq_ok.2 ⟨some u, ?_, rfl⟩, answer⟩
      rw [transform?_operator r ho, hus]
      simp only [Attempt.bind_ok, rebuildAll, hu, Except.map]
  | var v =>
    have replaced := transform_eq_ok.2 ⟨_, by rw [transform?], getD_changedVar v (r.onVar v)⟩
    exact ⟨_, replaced, (now v).substitutes⟩
  | next v =>
    have replaced := transform_eq_ok.2 ⟨_, by rw [transform?], getD_changedNext v (r.onNext v)⟩
    exact ⟨_, replaced, (next v).substitutes⟩
  | quant q v body ih =>
    by_cases hv : r.stopsAt v = true
    · refine ⟨quant q v body, transform_eq_ok.2 ⟨none, ?_, rfl⟩, h.mono (stops v hv), id⟩
      rw [transform?, if_pos hv]
    · obtain ⟨body', hbody, safe, -⟩ := ih (safe_quant.1 h)
      obtain ⟨changed, hchanged, rfl⟩ := transform_eq_ok.1 hbody
      cases changed with
      | none =>
        refine ⟨quant q v body, transform_eq_ok.2 ⟨none, ?_, rfl⟩, safe_quant.2 safe, id⟩
        rw [transform?, if_neg hv, hchanged]
        rfl
      | some body' =>
        refine ⟨Term.mkQuant q v body', transform_eq_ok.2 ⟨some _, ?_, rfl⟩,
          (safe.mkQuant q v).substitutes rfl⟩
        rw [transform?, if_neg hv, hchanged]
        rfl
  | integral seg | throughout seg body =>
    obtain ⟨u, hu, safe⟩ := flow _ ((h _ (self_mem_subterms _)).2 rfl)
    exact ⟨u, hu, safe.substitutes rfl⟩

section

variable {s : Subst} (values : ∀ e ∈ s, e.2.Quantity noPrimitive)
include values

theorem quantity_of_get? {d : Term} (hd : d.Quantity noPrimitive) (name : String) :
    ((s.get? name).getD d).Quantity noPrimitive := by
  cases h : s.get? name with
  | none => exact hd
  | some a => exact values _ (Table.mem_of_get? h)

theorem Safe.substitute (h : t.Safe noPrimitive) :
    ∃ u, t.substitute s = .ok u ∧ Substitutes noPrimitive t u := by
  rw [Term.substitute]
  split
  · exact ⟨t, rfl, h, id⟩
  · refine h.transform (fun v => ?_) (fun v => quantity_next) (fun _ hf => hf.elim)
      fun _ _ _ h => h
    by_cases hv : v.role = .logical
    · simpa [hv] using quantity_of_get? values quantity_var v.name
    · simp [hv]

theorem Safe.substituteNext (h : t.Safe noPrimitive) :
    ∃ u, t.substituteNext s = .ok u ∧ Substitutes noPrimitive t u := by
  rw [Term.substituteNext]
  split
  · exact ⟨t, rfl, h, id⟩
  · exact h.transform (fun v => quantity_var)
      (fun v => quantity_of_get? values quantity_next v.name) (fun _ hf => hf.elim) fun _ _ _ h => h

end

theorem Safe.replace {d : Term} (h : t.Safe noPrimitive) (hd : d.Quantity noPrimitive) (v : Var) :
    ∃ u, t.replace v d = .ok u ∧ Substitutes noPrimitive t u := by
  refine h.transform (fun w => ?_) (fun w => quantity_next) (fun _ hf => hf.elim) fun _ _ _ h => h
  by_cases hw : w = v
  · simpa [hw] using hd
  · simp [hw]

end

end Term

end HybridCheck
