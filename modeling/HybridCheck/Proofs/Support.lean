import HybridCheck.Proofs.Arithmetic
import HybridCheck.Proofs.Interpretation
import HybridCheck.Proofs.Sorting

/-!
# Free variables as the support of a term

The value of a term depends on its free variables and on its references after a jump, and on nothing
else, whatever division by zero is taken to be. Replacing a variable that is not free changes
nothing. Replacing one that is takes it out of the free variables and brings in at most those of the
term that is put in its place: folding can only lose variables, and so can a quantifier that binds a
variable of the new term.

Replacement fails in one way only, where a Boolean constant gets among the operands of arithmetic.
On terms of the right sorts this does not happen.
-/

namespace HybridCheck.Term

variable {t u d : Term} {v w : Var}

/-! ## Values -/

/-- The value of a term under any meaning depends on its free variables and its references after a
jump. -/
theorem value_congr (m : Meaning) (h : t.flowFree = true) {ρ ρ' : Env} (agree : Agree ρ ρ' t) :
    t.value m ρ = t.value m ρ' := by
  induction t, h using flowFree_induct generalizing ρ ρ' with
  | operator t o ho _ _ ih =>
    have same a m := ih a m ((hereditary_agree ρ ρ' t o ho).1 agree a m)
    rw [value_operator m ho, value_operator m ho, List.map_congr_left same]
  | var v =>
    rw [value_var, value_var]
    exact agree.now v (by simp)
  | next v =>
    simp only [value]
    exact agree.next v (by simp)
  | quant q w body _ _ ih =>
    have same (x : Value) : body.value m (ρ.set w x) = body.value m (ρ'.set w x) := by
      refine ih ⟨fun v hv => ?_, fun v hv => agree.next v (by simp [hv])⟩
      by_cases hw : v = w
      · subst hw
        simp
      · rw [Env.set_now_of_ne _ _ hw, Env.set_now_of_ne _ _ hw]
        exact agree.now v (mentions_quant.2 ⟨hv, hw⟩)
    cases q <;> simp only [value, same]

/-! ## Replacing a variable -/

/-- A variable that is not free is nowhere to be replaced. -/
theorem replace_of_not_mentions (h : t.flowFree = true) (hv : t.mentions v = false) :
    t.replace v d = .ok t := by
  refine transform_of_unread ⟨h, fun w hw => if_neg ?_, fun _ _ => rfl, fun w => ?_⟩
  · rintro rfl
    rw [hv] at hw
    cases hw
  · by_cases hw : w = v
    · exact Or.inl (by simpa using hw)
    · exact Or.inr (if_neg hw)

theorem mentions_mkQuant {q : Quantifier} {body : Term} (h : (mkQuant q w body).mentions v = true) :
    body.mentions v = true ∧ v ≠ w := by
  unfold mkQuant at h
  split at h
  · next b hb =>
    rcases truth?_eq_some hb with rfl | ⟨⟨s, x, rfl⟩, -⟩ <;> simp [mentions, occurrences] at h
  · exact mentions_quant.1 h

/-- A quantifier is transformed by transforming its body. -/
theorem exists_of_transform_quant {r : Replacement} {q : Quantifier} {body : Term}
    (passes : r.stopsAt w = false) (hu : (quant q w body).transform r = .ok u) :
    ∃ body', body.transform r = .ok body' ∧
      (body' = body ∧ u = quant q w body ∨ u = mkQuant q w body') := by
  cases hbody : body.transform r with
  | error e =>
    have failed : body.transform? r = .error e := by
      obtain h | ⟨_, -, h⟩ := Attempt.bind_eq_error.1 hbody
      · exact h
      · cases h
    rw [transform, transform?, if_neg (by simp [passes]), failed] at hu
    cases hu
  | ok body' =>
    refine ⟨body', rfl, ?_⟩
    rcases transform_quant_eq (q := q) passes hbody with ⟨kept, h⟩ | h
    · exact Or.inl ⟨kept, Except.ok.inj (hu.symm.trans h)⟩
    · exact Or.inr (Except.ok.inj (hu.symm.trans h))

/-- A replaced variable is gone from a term, and what is new comes from the term that was put
in. -/
theorem mentions_of_replace (h : t.flowFree = true) (hu : t.replace v d = .ok u)
    (hw : u.mentions w = true) : t.mentions w = true ∧ w ≠ v ∨ d.mentions w = true := by
  -- the binders of the term are left behind one by one, so the claim is about all variables
  induction t, h using flowFree_induct generalizing u w with
  | operator t o ho _ _ ih =>
    have inherited := hereditary_mentions fun w => t.mentions w = true ∧ w ≠ v ∨ d.mentions w = true
    refine inherited.transform ho (fun a ha u hu w hw => ?_) hu w hw
    exact (ih a ha hu hw).imp_left fun ⟨free, hne⟩ => ⟨(mentions_operator ho).2 ⟨a, ha, free⟩, hne⟩
  | var x =>
    obtain rfl := Except.ok.inj ((transform_var x).symm.trans hu)
    by_cases hx : x = v
    · exact Or.inr (by simpa [hx] using hw)
    · simp only [hx, ↓reduceIte, Option.getD_none] at hw
      exact Or.inl ⟨hw, mentions_var.1 hw ▸ hx⟩
  | next x =>
    obtain rfl := Except.ok.inj ((transform_next x).symm.trans hu)
    cases hw
  | quant q x body _ _ ih =>
    by_cases hx : x = v
    · obtain rfl := Except.ok.inj ((transform_quant_of_stops (by simpa using hx)).symm.trans hu)
      exact Or.inl ⟨hw, hx ▸ (mentions_quant.1 hw).2⟩
    · obtain ⟨body', hbody, built⟩ := exists_of_transform_quant (by simpa using hx) hu
      obtain ⟨hw, hne⟩ : body'.mentions w = true ∧ w ≠ x := by
        rcases built with ⟨rfl, rfl⟩ | rfl
        · exact mentions_quant.1 hw
        · exact mentions_mkQuant hw
      exact (ih hbody hw).imp_left fun ⟨free, gone⟩ => ⟨mentions_quant.2 ⟨free, hne⟩, gone⟩

/-! ## When replacement fails -/

theorem exists_of_transformAll?_error {r : Replacement} {as : List Term} {e : Failure}
    (h : transformAll? r as = .error e) : ∃ a ∈ as, a.transform? r = .error e := by
  induction as with
  | nil => cases h
  | cons a as ih =>
    rw [transformAll?] at h
    obtain h | ⟨a', -, h⟩ := Attempt.bind_eq_error.1 h
    · exact ⟨a, by simp, h⟩
    · obtain h | ⟨as', -, h⟩ := Attempt.bind_eq_error.1 h
      · obtain ⟨b, hb, failed⟩ := ih h
        exact ⟨b, by simp [hb], failed⟩
      · cases a' <;> cases as' <;> cases h

theorem length_of_transformAll? {r : Replacement} {as us : List Term}
    (h : transformAll? r as = .ok (some us)) : us.length = as.length := by
  induction as generalizing us with
  | nil => cases h
  | cons a as ih =>
    rw [transformAll?] at h
    obtain ⟨a', -, h⟩ := Attempt.bind_eq_ok.1 h
    obtain ⟨as', has', h⟩ := Attempt.bind_eq_ok.1 h
    cases as' with
    | none =>
      cases a' <;> cases h
      rfl
    | some as' =>
      have same := ih has'
      cases a' <;> cases h <;> simp [same]

/-- An operator that has all its operands can miss nothing but a number. -/
theorem build_error {o : Operator} (ho : t.operator? = some o) {us : List Term} {e : Failure}
    (all : us.length = t.operands.length) (h : o.build us = .error e) :
    e = .fault .booleanOperand := by
  cases t <;> cases ho
  case add => exact mkAdd_error h
  case mul => exact mkMul_error h
  case bool | num | and | or => cases h
  all_goals simp only [operands, List.length_cons, List.length_nil] at all
  case not | neg =>
    obtain ⟨a, rfl⟩ := List.length_eq_one_iff.1 all
    first | cases h | exact mkNeg_error h
  case implies | cmp =>
    obtain ⟨a, b, rfl⟩ := List.length_eq_two.1 all
    cases h
  case sub =>
    obtain ⟨a, b, rfl⟩ := List.length_eq_two.1 all
    exact mkSub_error h
  case div =>
    obtain ⟨a, b, rfl⟩ := List.length_eq_two.1 all
    exact mkDiv_error h
  case ite =>
    obtain ⟨c, a, b, rfl⟩ := List.length_eq_three.1 all
    cases h

/-- A replacement that has no answer has met a Boolean constant among the operands of arithmetic. -/
theorem transform?_error {r : Replacement} {e : Failure} (h : t.flowFree = true)
    (he : t.transform? r = .error e) : e = .fault .booleanOperand := by
  induction t, h using flowFree_induct with
  | operator t o ho _ _ ih =>
    rw [transform?_operator r ho] at he
    obtain he | ⟨us, hus, he⟩ := Attempt.bind_eq_error.1 he
    · obtain ⟨a, ha, failed⟩ := exists_of_transformAll?_error he
      exact ih a ha failed
    · cases us with
      | none => cases he
      | some us =>
        refine build_error ho (length_of_transformAll? hus) ?_
        cases built : o.build us with
        | error e' =>
          rw [rebuildAll, built] at he
          exact congrArg _ (Except.error.inj he)
        | ok u =>
          rw [rebuildAll, built] at he
          cases he
  | var v => cases he
  | next v => cases he
  | quant q v body _ _ ih =>
    rw [transform?] at he
    split at he
    · cases he
    · obtain he | ⟨body', -, he⟩ := Attempt.bind_eq_error.1 he
      · exact ih he
      · cases body' <;> cases he

theorem replace_error {e : Failure} (h : t.flowFree = true) (he : t.replace v d = .error e) :
    e = .fault .booleanOperand := by
  obtain he | ⟨_, -, he⟩ := Attempt.bind_eq_error.1 he
  · exact transform?_error h he
  · cases he

/-- A term of its kind can be put in the place of a variable. -/
theorem WellSorted.exists_replace (h : WellSorted t) (hd : WellSorted d)
    (alike : d.sort.alike v.sort = true) : ∃ u, t.replace v d = .ok u := by
  obtain ⟨u, hu, -⟩ := h.transform rfl fun n _ => respected_replace hd alike n
  exact ⟨u, hu⟩

/-! ## The support -/

/-- The free variables of a term are listed once each, by name and then by role, and they are its
support: nothing else but references after a jump shows in its value; a variable that is not among
them can be replaced by anything without a change; and a variable that is replaced leaves them,
while what joins them is free in the term that was put in. -/
theorem freeVars_support (h : t.flowFree = true) :
    (∀ (m : Meaning) (ρ ρ' : Env), (∀ v ∈ t.freeVars, ρ.now v = ρ'.now v) →
      (∀ v, next v ∈ t.subterms → ρ.next v = ρ'.next v) → t.value m ρ = t.value m ρ') ∧
    t.freeVars.Pairwise (fun v w =>
      v.name < w.name ∨ v.name = w.name ∧ v.role.code ≤ w.role.code) ∧
    t.freeVars.Nodup ∧
    (∀ v ∉ t.freeVars, ∀ d, t.replace v d = .ok t) ∧
    ∀ (v : Var) (d : Term),
      (∀ u, t.replace v d = .ok u → ∀ w ∈ u.freeVars, w ∈ t.freeVars ∧ w ≠ v ∨ w ∈ d.freeVars) ∧
      (∀ e, t.replace v d = .error e → e = .fault .booleanOperand) ∧
      (WellSorted t → WellSorted d → d.sort.alike v.sort = true →
        ∃ u, t.replace v d = .ok u) := by
  refine ⟨fun m ρ ρ' now next => ?_, pairwise_freeVarsOf _, nodup_freeVarsOf _, fun v hv d => ?_,
    fun v d => ⟨fun u hu w hw => ?_, fun e => replace_error h, fun sorted hd alike => ?_⟩⟩
  · exact value_congr m h ⟨fun v hv => now v (mem_freeVars.2 hv), next⟩
  · rw [mem_freeVars, Bool.not_eq_true] at hv
    exact replace_of_not_mentions h hv
  · rw [mem_freeVars] at hw
    rw [mem_freeVars, mem_freeVars]
    exact mentions_of_replace h hu hw
  · exact sorted.exists_replace hd alike

def east : Var := ⟨"x", .real, .logical⟩

def north : Var := ⟨"y", .real, .bound⟩

def zenith : Var := ⟨"z", .real, .logical⟩

/-- Each of two variables is free on one side and bound on the other. -/
def crossed : Term :=
  and [quant .all north (cmp .lt (var east) (var north)),
    quant .any east (cmp .lt (var east) (var north))]

theorem wellSorted_crossed : WellSorted crossed := by
  have compared : WellSorted (cmp .lt (var east) (var north)) :=
    .operator rfl rfl (by simpa [operands] using ⟨.var east, .var north⟩)
  refine .operator rfl rfl ?_
  simpa [crossed, operands] using ⟨.quant rfl compared, .quant rfl compared⟩

theorem mem_freeVars_crossed {v : Var} : v ∈ crossed.freeVars ↔ v = east ∨ v = north := by
  have apart : east ≠ north := by decide
  rw [mem_freeVars]
  simp [crossed, mentions, occurrences, occurrencesAll, apart, apart.symm]

/-- The variable that is put in is free on one side and gets bound on the other. -/
theorem freeVars_support_crossed :
    crossed.flowFree = true ∧ zenith ∉ crossed.freeVars ∧ crossed.replace zenith top = .ok crossed ∧
      WellSorted crossed ∧ ∃ u, crossed.replace east (var north) = .ok u ∧
        ∀ w ∈ u.freeVars, w = north := by
  have flowFree : crossed.flowFree = true := by decide
  have apart : zenith ∉ crossed.freeVars := by
    rw [mem_freeVars_crossed]
    decide
  obtain ⟨-, -, -, kept, replaced⟩ := freeVars_support flowFree
  obtain ⟨support, -, answered⟩ := replaced east (var north)
  obtain ⟨u, hu⟩ := answered wellSorted_crossed (.var north) rfl
  refine ⟨flowFree, apart, kept _ apart top, wellSorted_crossed, u, hu, fun w hw => ?_⟩
  rcases support u hu w hw with ⟨hw, hne⟩ | hw
  · exact (mem_freeVars_crossed.1 hw).resolve_left hne
  · exact mentions_var.1 (mem_freeVars.1 hw)

end HybridCheck.Term
