import HybridCheck.Proofs.Operator

/-!
# Subterms and free variables

A property of terms is hereditary if an operator has it exactly when all its operands do. Being free
of quantifiers, being free of flow primitives, and whatever is said of the free variables are such
properties. The value of a term without flow primitives depends on its free variables and its
references after a jump only.
-/

namespace HybridCheck.Term

/-- A property that an operator has exactly when all its operands do. Nothing is said about
variables, quantifiers and flow primitives. -/
def Hereditary (H : Term → Prop) : Prop :=
  ∀ t o, t.operator? = some o → (H t ↔ ∀ a ∈ t.operands, H a)

/-! ## Nodes -/

def subterms (t : Term) : List Term := t.nodes fun _ => true

def isFlow : Term → Bool
  | .integral _ | .throughout .. => true
  | _ => false

def isQuant : Term → Bool
  | .quant .. => true
  | _ => false

def flowFree (t : Term) : Bool := t.subterms.all fun n => !n.isFlow

def quantFree (t : Term) : Bool := t.subterms.all fun n => !n.isQuant

private theorem mem_nodesAll {n : Term} {as : List Term} :
    n ∈ nodesAll (fun _ => true) as ↔ ∃ a ∈ as, n ∈ a.subterms := by
  induction as with
  | nil => simp [nodesAll]
  | cons a as ih => simp [nodesAll, ih, subterms]

theorem mem_nodesTable {n : Term} {es : List (String × Term)} :
    n ∈ nodesTable (fun _ => true) es ↔ ∃ e ∈ es, n ∈ e.2.subterms := by
  induction es with
  | nil => simp [nodesTable]
  | cons e es ih => simp [nodesTable, ih, subterms]

theorem mem_subterms_operator {t n : Term} {o : Operator} (h : t.operator? = some o) :
    n ∈ t.subterms ↔ n = t ∨ ∃ a ∈ t.operands, n ∈ a.subterms := by
  cases t <;> cases h <;> simp [subterms, nodes, operands, mem_nodesAll]

@[simp] theorem subterms_var (v : Var) : (var v).subterms = [var v] := rfl

@[simp] theorem subterms_next (v : Var) : (next v).subterms = [next v] := rfl

@[simp] theorem subterms_quant (q : Quantifier) (v : Var) (body : Term) :
    (quant q v body).subterms = quant q v body :: body.subterms := by
  simp [subterms, nodes]

theorem self_mem_subterms (t : Term) : t ∈ t.subterms := by
  cases t with
  | integral seg => obtain ⟨⟨_, _, _⟩, _, _, _, _, _⟩ := seg; simp [subterms, nodes]
  | throughout seg body => obtain ⟨⟨_, _, _⟩, _, _, _, _, _⟩ := seg; simp [subterms, nodes]
  | _ => simp [subterms, nodes]

/-- All nodes of an operator are it and the nodes of its operands. -/
theorem forall_subterms_operator {P : Term → Prop} {t : Term} {o : Operator}
    (h : t.operator? = some o) :
    (∀ n ∈ t.subterms, P n) ↔ P t ∧ ∀ a ∈ t.operands, ∀ n ∈ a.subterms, P n := by
  simp only [mem_subterms_operator h]
  constructor
  · intro all
    exact ⟨all t (Or.inl rfl), fun a ha n hn => all n (Or.inr ⟨a, ha, hn⟩)⟩
  · rintro ⟨own, operands⟩ n (rfl | ⟨a, ha, hn⟩)
    · exact own
    · exact operands a ha n hn

/-- What is said of all nodes and holds of every operator is hereditary. -/
theorem hereditary_subterms {P : Term → Prop} (operator : ∀ t o, t.operator? = some o → P t) :
    Hereditary fun t => ∀ n ∈ t.subterms, P n := fun t o ho =>
  (forall_subterms_operator ho).trans (and_iff_right (operator t o ho))

theorem hereditary_flowFree : Hereditary fun t => t.flowFree = true := by
  simp only [flowFree, List.all_eq_true]
  exact hereditary_subterms fun t o ho => by cases t <;> cases ho <;> rfl

theorem hereditary_quantFree : Hereditary fun t => t.quantFree = true := by
  simp only [quantFree, List.all_eq_true]
  exact hereditary_subterms fun t o ho => by cases t <;> cases ho <;> rfl

@[simp] theorem flowFree_var (v : Var) : (var v).flowFree = true := rfl

@[simp] theorem flowFree_next (v : Var) : (next v).flowFree = true := rfl

@[simp] theorem quantFree_var (v : Var) : (var v).quantFree = true := rfl

@[simp] theorem quantFree_next (v : Var) : (next v).quantFree = true := rfl

@[simp] theorem flowFree_quant (q : Quantifier) (v : Var) (body : Term) :
    (quant q v body).flowFree = body.flowFree := by
  simp [flowFree, isFlow]

@[simp] theorem quantFree_quant (q : Quantifier) (v : Var) (body : Term) :
    (quant q v body).quantFree = false := by
  simp [quantFree, isQuant]

@[simp] theorem flowFree_integral (seg : Segment) : (integral seg).flowFree = false := by
  rw [flowFree, List.all_eq_false]
  exact ⟨_, self_mem_subterms _, by simp [isFlow]⟩

@[simp] theorem flowFree_throughout (seg : Segment) (body : Term) :
    (throughout seg body).flowFree = false := by
  rw [flowFree, List.all_eq_false]
  exact ⟨_, self_mem_subterms _, by simp [isFlow]⟩

/-- Induction over terms without flow primitives. -/
@[elab_as_elim]
theorem flowFree_induct {motive : (t : Term) → t.flowFree = true → Prop}
    (operator : ∀ t o, t.operator? = some o → ∀ (hs : ∀ a ∈ t.operands, a.flowFree = true) h,
      (∀ a m, motive a (hs a m)) → motive t h)
    (var : ∀ v h, motive (.var v) h) (next : ∀ v h, motive (.next v) h)
    (quant : ∀ q v body hbody h, motive body hbody → motive (.quant q v body) h)
    (t : Term) (h : t.flowFree = true) : motive t h := by
  induction t using induct with
  | operator t o ho ih =>
    exact operator t o ho ((hereditary_flowFree t o ho).1 h) h fun a m => ih a m _
  | var v => exact var v h
  | next v => exact next v h
  | quant q v body ih => exact quant q v body (by simpa using h) h (ih _)
  | integral seg => simp at h
  | throughout seg body => simp at h

/-! ## Free variables -/

section Mentions

variable {bound : List Var} {v : Var}

private theorem mem_occurrencesAll {as : List Term} :
    v ∈ occurrencesAll bound as ↔ ∃ a ∈ as, v ∈ occurrences bound a := by
  induction as with
  | nil => simp [occurrencesAll]
  | cons a as ih => simp [occurrencesAll, ih]

theorem mem_occurrences_operator {t : Term} {o : Operator} (h : t.operator? = some o) :
    v ∈ occurrences bound t ↔ ∃ a ∈ t.operands, v ∈ occurrences bound a := by
  cases t <;> cases h <;> simp [occurrences, operands, mem_occurrencesAll]

/-- A variable occurs free under binders if it occurs free and is not among them. -/
theorem mem_occurrences {t : Term} :
    v ∈ occurrences bound t ↔ t.mentions v = true ∧ v ∉ bound := by
  rw [mentions, List.contains_iff_mem]
  -- A quantifier adds to the binders on both sides, so these vary on both.
  suffices h : ∀ bound', (v ∈ bound' → v ∉ occurrences bound' t) ∧
      (v ∉ bound' → (v ∈ occurrences bound t ↔ v ∈ occurrences bound' t ∧ v ∉ bound)) from
    (h []).2 List.not_mem_nil
  apply occurrences.induct
    (fun bound t => ∀ bound', (v ∈ bound' → v ∉ occurrences bound' t) ∧
      (v ∉ bound' → (v ∈ occurrences bound t ↔ v ∈ occurrences bound' t ∧ v ∉ bound)))
    (fun bound es => ∀ bound', (v ∈ bound' → v ∉ occurrencesTable bound' es) ∧
      (v ∉ bound' →
        (v ∈ occurrencesTable bound es ↔ v ∈ occurrencesTable bound' es ∧ v ∉ bound)))
    (fun bound as => ∀ bound', (v ∈ bound' → v ∉ occurrencesAll bound' as) ∧
      (v ∉ bound' → (v ∈ occurrencesAll bound as ↔ v ∈ occurrencesAll bound' as ∧ v ∉ bound)))
  all_goals simp only [occurrences, occurrencesAll, occurrencesTable]
  all_goals grind

@[simp] theorem mentions_var {w : Var} : (var w).mentions v = true ↔ v = w := by
  simp [mentions, occurrences]

theorem mem_freeVars {t : Term} : v ∈ t.freeVars ↔ t.mentions v = true := by
  simp [freeVars, freeVarsOf, mentions, occurrencesAll]

theorem mem_freeVarsOf {ts : List Term} : v ∈ freeVarsOf ts ↔ ∃ t ∈ ts, t.mentions v = true := by
  simp [freeVarsOf, mem_occurrencesAll, mentions]

theorem nodup_eraseDups {α : Type} [BEq α] [LawfulBEq α] (l : List α) : l.eraseDups.Nodup := by
  induction hn : l.length using Nat.strongRecOn generalizing l with
  | ind n ih =>
    subst hn
    cases l with
    | nil => simp
    | cons a l =>
      rw [List.eraseDups_cons, List.nodup_cons]
      exact ⟨by simp, ih _ (Nat.lt_succ_of_le (List.length_filter_le ..)) _ rfl⟩

/-- The free variables of several terms are listed once. -/
theorem nodup_freeVarsOf (ts : List Term) : (freeVarsOf ts).Nodup :=
  (List.mergeSort_perm ..).nodup_iff.2 (nodup_eraseDups _)

/-- The free variables of several terms are listed by name and then by role. -/
theorem pairwise_freeVarsOf (ts : List Term) : (freeVarsOf ts).Pairwise fun v w =>
    v.name < w.name ∨ v.name = w.name ∧ v.role.code ≤ w.role.code := by
  have trans (u v w : Var) (huv : u.precedes v) (hvw : v.precedes w) : u.precedes w := by
    simp only [Var.precedes, Bool.or_eq_true, Bool.and_eq_true, decide_eq_true_eq] at *
    rcases huv with huv | ⟨huv, hc⟩
    · rcases hvw with hvw | ⟨hvw, -⟩
      · exact Or.inl (String.lt_trans huv hvw)
      · exact Or.inl (hvw ▸ huv)
    · rcases hvw with hvw | ⟨hvw, hc'⟩
      · exact Or.inl (huv ▸ hvw)
      · exact Or.inr ⟨huv.trans hvw, hc.trans hc'⟩
  have total (v w : Var) : v.precedes w || w.precedes v := by
    simp only [Var.precedes, Bool.or_eq_true, Bool.and_eq_true, decide_eq_true_eq]
    by_cases hvw : v.name < w.name
    · exact Or.inl (Or.inl hvw)
    · by_cases hwv : w.name < v.name
      · exact Or.inr (Or.inl hwv)
      · have h : v.name = w.name := String.le_antisymm hwv hvw
        exact (le_total v.role.code w.role.code).imp (fun hc => Or.inr ⟨h, hc⟩)
          fun hc => Or.inr ⟨h.symm, hc⟩
  refine (List.pairwise_mergeSort trans total _).imp fun h => ?_
  simpa [Var.precedes] using h

theorem mentions_var_of_ne {w : Var} (h : v ≠ w) : (var w).mentions v = false := by
  rw [← Bool.not_eq_true, mentions_var]
  exact h

@[simp] theorem mentions_next {w : Var} : (next w).mentions v = false := rfl

theorem mentions_operator {t : Term} {o : Operator} (h : t.operator? = some o) :
    t.mentions v = true ↔ ∃ a ∈ t.operands, a.mentions v = true := by
  simp only [mentions, List.contains_iff_mem]
  exact mem_occurrences_operator h

theorem mentions_quant {q : Quantifier} {w : Var} {body : Term} :
    (quant q w body).mentions v = true ↔ body.mentions v = true ∧ v ≠ w := by
  rw [mentions, List.contains_iff_mem, occurrences, mem_occurrences]
  simp

/-- A variable that a term mentions is one of its nodes. -/
theorem mem_subterms_of_mentions {t : Term} (h : t.mentions v = true) : var v ∈ t.subterms := by
  rw [mentions, List.contains_iff_mem] at h
  revert h
  apply occurrences.induct (fun bound t => v ∈ occurrences bound t → var v ∈ t.subterms)
    (fun bound es => v ∈ occurrencesTable bound es → var v ∈ nodesTable (fun _ => true) es)
    (fun bound as => v ∈ occurrencesAll bound as → var v ∈ nodesAll (fun _ => true) as)
  all_goals simp only [occurrences, occurrencesAll, occurrencesTable, subterms, nodes, nodesAll,
    nodesTable]
  all_goals grind

/-- Every occurrence of a variable is free or bound by a quantifier. -/
theorem mentions_of_mem_subterms {t : Term} (hv : var v ∈ t.subterms) :
    t.mentions v = true ∨ ∃ q body, quant q v body ∈ t.subterms := by
  by_contra neither
  obtain ⟨hidden, unbound⟩ := not_or.1 neither
  refine hidden ?_
  rw [mentions, List.contains_iff_mem]
  have unbound : ∀ q body, quant q v body ∉ t.subterms := by simpa using unbound
  have outside : v ∉ ([] : List Var) := List.not_mem_nil
  -- Only a quantifier adds to the variables that are not counted, and none adds the variable.
  revert hv unbound outside
  clear neither hidden
  apply occurrences.induct
    (fun bound t => var v ∈ t.subterms → (∀ q body, quant q v body ∉ t.subterms) → v ∉ bound →
      v ∈ occurrences bound t)
    (fun bound es => var v ∈ nodesTable (fun _ => true) es →
      (∀ q body, quant q v body ∉ nodesTable (fun _ => true) es) → v ∉ bound →
        v ∈ occurrencesTable bound es)
    (fun bound as => var v ∈ nodesAll (fun _ => true) as →
      (∀ q body, quant q v body ∉ nodesAll (fun _ => true) as) → v ∉ bound →
        v ∈ occurrencesAll bound as)
  all_goals simp only [occurrences, occurrencesAll, occurrencesTable, subterms, nodes, nodesAll,
    nodesTable]
  all_goals grind

/-- What is said of all free variables is hereditary. -/
theorem hereditary_mentions (P : Var → Prop) :
    Hereditary fun t => ∀ v, t.mentions v = true → P v := by
  intro t o ho
  simp only [mentions_operator ho]
  exact ⟨fun h a ha v hv => h v ⟨a, ha, hv⟩, fun h v ⟨a, ha, hv⟩ => h a ha v hv⟩

/-- Not mentioning a variable is hereditary. -/
theorem hereditary_not_mentions (v : Var) : Hereditary fun t => t.mentions v = false := by
  intro t o ho
  simp only [← Bool.not_eq_true, mentions_operator ho]
  simp

end Mentions

/-! ## What a value depends on -/

/-- Two environments agree on what a term reads: its free variables and its references after a
jump. -/
structure Agree (ρ ρ' : Env) (t : Term) : Prop where
  now : ∀ v, t.mentions v = true → ρ.now v = ρ'.now v
  next : ∀ v, Term.next v ∈ t.subterms → ρ.next v = ρ'.next v

theorem hereditary_agree (ρ ρ' : Env) : Hereditary (Agree ρ ρ') := by
  intro t o ho
  have hn : ∀ v, t ≠ .next v := by rintro v rfl; cases ho
  constructor
  · intro h a ha
    exact ⟨fun v hv => h.now v ((mentions_operator ho).2 ⟨a, ha, hv⟩),
      fun v hv => h.next v ((mem_subterms_operator ho).2 (Or.inr ⟨a, ha, hv⟩))⟩
  · intro h
    refine ⟨fun v hv => ?_, fun v hv => ?_⟩
    · obtain ⟨a, ha, hv⟩ := (mentions_operator ho).1 hv
      exact (h a ha).now v hv
    · rcases (mem_subterms_operator ho).1 hv with hv | ⟨a, ha, hv⟩
      · exact absurd hv.symm (hn v)
      · exact (h a ha).next v hv

/-- A quantifier has the value that its body gives it. -/
theorem eval_quant_congr {q : Quantifier} {v : Var} {body body' : Term} {ρ ρ' : Env}
    (h : ∀ x, Value.IsOf v.sort x → body.eval (ρ.set v x) = body'.eval (ρ'.set v x)) :
    (quant q v body).eval ρ = (quant q v body').eval ρ' := by
  cases q
  · simp only [eval]
    exact congrArg Value.truth (propext (forall₂_congr fun x hx => by rw [h x hx]))
  · simp only [eval]
    refine congrArg Value.truth (propext (exists_congr fun x => and_congr_right fun hx => ?_))
    rw [h x hx]

/-- The value of a term depends on its free variables and its references after a jump. -/
theorem eval_congr {t : Term} (h : t.flowFree = true) {ρ ρ' : Env} (agree : Agree ρ ρ' t) :
    t.eval ρ = t.eval ρ' := by
  induction t, h using flowFree_induct generalizing ρ ρ' with
  | operator t o ho _ _ ih =>
    have h a m := ih a m ((hereditary_agree ρ ρ' t o ho).1 agree a m)
    rw [eval_operator ho, eval_operator ho, List.map_congr_left h]
  | var v => exact agree.now v (by simp)
  | next v => exact agree.next v (by simp)
  | quant q w body _ _ ih =>
    refine eval_quant_congr fun x _ => ih ⟨fun v hv => ?_, fun v hv => agree.next v (by simp [hv])⟩
    by_cases hw : v = w
    · subst hw
      simp
    · rw [Env.set_now_of_ne _ _ hw, Env.set_now_of_ne _ _ hw]
      exact agree.now v (mentions_quant.2 ⟨hv, hw⟩)

/-- Setting a variable that a term does not mention leaves its value. -/
theorem eval_set {t : Term} (h : t.flowFree = true) {v : Var} (hv : t.mentions v = false)
    (ρ : Env) (x : Value) : t.eval (ρ.set v x) = t.eval ρ := by
  refine eval_congr h ⟨fun w hw => Env.set_now_of_ne ρ x ?_, fun w _ => rfl⟩
  rintro rfl
  rw [hv] at hw
  cases hw

end HybridCheck.Term
