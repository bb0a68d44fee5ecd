import HybridCheck.Solver.Skeleton
import HybridCheck.Proofs.Constraint
import HybridCheck.Proofs.TermText

/-!
# Refuting constraints by their skeletons

The case distinction on skeletons is exact: it refutes formulas if and only if no truth values make
all of them true. Nothing else is asked of a solver in its place (`exact_of_decides`). What a
refutation says about the constraints themselves rests on their texts. An environment gives a truth
value to every constraint that became an atom; constraints of one text have one value in it, so the
environment also gives truth values to the atoms, and a skeleton is then true exactly if its
constraint holds. Where all atoms are Boolean variables, truth values for the atoms are an
environment, and nothing is lost.
-/

namespace HybridCheck

namespace Skeleton

/-! ## Case distinction -/

section

variable (v : SkeletonAtom → Bool) (c p q : Skeleton)

@[simp] theorem eval_mkNot : (mkNot p).eval v = !p.eval v := by
  cases p <;> simp [mkNot, eval]

@[simp] theorem eval_mkAnd : (mkAnd p q).eval v = (p.eval v && q.eval v) := by
  unfold mkAnd
  split <;> simp [eval]

@[simp] theorem eval_mkOr : (mkOr p q).eval v = (p.eval v || q.eval v) := by
  unfold mkOr
  split <;> simp [eval]

@[simp] theorem eval_mkIff : (mkIff p q).eval v = (p.eval v == q.eval v) := by
  unfold mkIff
  split <;> simp [eval]

@[simp] theorem eval_mkIte : (mkIte c p q).eval v = if c.eval v then p.eval v else q.eval v := by
  unfold mkIte
  split <;> simp [eval]

end

/-- Deciding an atom reads it with the value decided. -/
theorem eval_assign (v : SkeletonAtom → Bool) (a : SkeletonAtom) (b : Bool) (p : Skeleton) :
    (p.assign a b).eval v = p.eval (Function.update v a b) := by
  induction p with
  | const c => rfl
  | atom x =>
    by_cases hx : x = a
    · subst hx
      simp [assign, eval]
    · simp [assign, eval, hx]
  | not p ih => simp [assign, eval, ih]
  | and p q ihp ihq => simp [assign, eval, ihp, ihq]
  | or p q ihp ihq => simp [assign, eval, ihp, ihq]
  | iff p q ihp ihq => simp [assign, eval, ihp, ihq]
  | ite c p q ihc ihp ihq => simp [assign, eval, ihc, ihp, ihq]

/-- A formula without atoms is a constant. -/
def Folded (p : Skeleton) : Prop := (∃ b, p = const b) ∨ p.first?.isSome = true

section

variable {c p q : Skeleton}

theorem folded_mkNot (h : p.Folded) : (mkNot p).Folded := by
  rcases h with ⟨b, rfl⟩ | h
  · exact Or.inl ⟨!b, rfl⟩
  · refine Or.inr ?_
    cases p <;> simp_all [mkNot, first?]

theorem folded_mkAnd (hp : p.Folded) (hq : q.Folded) : (mkAnd p q).Folded := by
  unfold mkAnd
  split
  · exact hq
  · exact Or.inl ⟨false, rfl⟩
  · exact hp
  · exact Or.inl ⟨false, rfl⟩
  · rcases hp with ⟨b, rfl⟩ | hp
    · cases b <;> simp_all
    · exact Or.inr (by simp [first?, hp])

theorem folded_mkOr (hp : p.Folded) (hq : q.Folded) : (mkOr p q).Folded := by
  unfold mkOr
  split
  · exact Or.inl ⟨true, rfl⟩
  · exact hq
  · exact Or.inl ⟨true, rfl⟩
  · exact hp
  · rcases hp with ⟨b, rfl⟩ | hp
    · cases b <;> simp_all
    · exact Or.inr (by simp [first?, hp])

theorem folded_mkIff (hp : p.Folded) (hq : q.Folded) : (mkIff p q).Folded := by
  unfold mkIff
  split
  · exact hq
  · exact folded_mkNot hq
  · exact hp
  · exact folded_mkNot hp
  · rcases hp with ⟨b, rfl⟩ | hp
    · cases b <;> simp_all
    · exact Or.inr (by simp [first?, hp])

theorem folded_mkIte (hc : c.Folded) (hp : p.Folded) (hq : q.Folded) : (mkIte c p q).Folded := by
  unfold mkIte
  split
  · exact hp
  · exact hq
  · rcases hc with ⟨b, rfl⟩ | hc
    · cases b <;> simp_all
    · exact Or.inr (by simp [first?, hc])

theorem folded_assign (a : SkeletonAtom) (b : Bool) (p : Skeleton) : (p.assign a b).Folded := by
  induction p with
  | const c => exact Or.inl ⟨c, rfl⟩
  | atom x =>
    rw [assign]
    split
    · exact Or.inl ⟨b, rfl⟩
    · exact Or.inr rfl
  | not p ih => exact folded_mkNot ih
  | and p q ihp ihq => exact folded_mkAnd ihp ihq
  | or p q ihp ihq => exact folded_mkOr ihp ihq
  | iff p q ihp ihq => exact folded_mkIff ihp ihq
  | ite c p q ihc ihp ihq => exact folded_mkIte ihc ihp ihq

end

/-- If there is nothing to choose, all formulas are constants. -/
theorem constant_of_choice? {ps : List Skeleton} (h : choice? ps = none) {p : Skeleton}
    (hp : p ∈ ps) (folded : p.Folded) : ∃ b, p = const b := by
  rcases folded with constant | hsome
  · exact constant
  · rw [choice?, Option.or_eq_none_iff] at h
    rw [List.findSome?_eq_none_iff.1 h.2 p hp] at hsome
    cases hsome

/-- Formulas are refuted exactly if no truth values make all of them true. -/
theorem refuted_iff {ps : List Skeleton} (folded : ∀ p ∈ ps, p.Folded) :
    refuted ps = true ↔ ∀ v, ∃ p ∈ ps, p.eval v = false := by
  have decided (a : SkeletonAtom) (b : Bool) (ps : List Skeleton) (v : SkeletonAtom → Bool) :
      (∃ p ∈ assignAll a b ps, p.eval v = false) ↔
        ∃ p ∈ ps, p.eval (Function.update v a b) = false := by
    simp [assignAll, eval_assign]
  have allFolded (a : SkeletonAtom) (b : Bool) (ps : List Skeleton) :
      ∀ p ∈ assignAll a b ps, p.Folded := by
    simpa [assignAll] using fun p _ => folded_assign a b p
  fun_induction refuted ps with
  | case1 ps hfalse =>
    simp only [true_iff]
    exact fun v => ⟨_, List.contains_iff_mem.1 hfalse, rfl⟩
  | case2 ps hfalse hnone =>
    simp only [Bool.false_eq_true, false_iff, not_forall, not_exists, not_and,
      Bool.not_eq_false]
    refine ⟨fun _ => true, fun p hp => ?_⟩
    obtain ⟨b, rfl⟩ := constant_of_choice? hnone hp (folded p hp)
    cases b
    · exact absurd (List.contains_iff_mem.2 hp) hfalse
    · rfl
  | case3 ps hfalse a b hsome ihb ihn =>
    have hb := ihb (allFolded a b ps)
    have hn := ihn (allFolded a (!b) ps)
    simp only [decided] at hb hn
    refine Bool.and_eq_true_iff.trans ((and_congr hb hn).trans ?_)
    constructor
    · rintro ⟨hb, hn⟩ v
      by_cases h : v a = b
      · have := hb v
        rwa [← h, Function.update_eq_self] at this
      · have := hn v
        rwa [← Bool.eq_not_of_ne h, Function.update_eq_self] at this
    · exact fun h => ⟨fun v => h _, fun v => h _⟩

/-! ## Skeletons of constraints -/

theorem eval_conjunction (v : SkeletonAtom → Bool) (as : List Term) :
    (conjunction as).eval v = as.all fun a => (ofTerm a).eval v := by
  induction as with
  | nil => rfl
  | cons a as ih => simp [conjunction, ih]

theorem eval_disjunction (v : SkeletonAtom → Bool) (as : List Term) :
    (disjunction as).eval v = as.any fun a => (ofTerm a).eval v := by
  induction as with
  | nil => rfl
  | cons a as ih => simp [disjunction, ih]

/-- Whether the skeleton of a term is made of those of its operands. -/
def connects : Term → Bool
  | .bool _ | .num .. | .not _ | .and _ | .or _ | .implies .. => true
  | .cmp .eq a _ | .ite _ a _ => a.sort = .bool
  | _ => false

/-- The atom that stands for a term whose skeleton is not made of those of its operands. -/
def atomOf : Term → SkeletonAtom
  | t@(.var v) =>
    if v.sort = .bool ∧ v.role ≠ .bound then .symbol v.name else .constraint t.text
  | t => .constraint t.text

theorem ofTerm_eq_atom {t : Term} (h : connects t = false) : ofTerm t = atom (atomOf t) := by
  cases t with
  | var v =>
    rw [ofTerm, atomOf]
    split <;> rfl
  | cmp r a b =>
    cases r with
    | eq =>
      have ha : ¬a.sort = .bool := by simpa [connects] using h
      rw [ofTerm, if_neg ha]
      rfl
    | _ => simp [ofTerm, atomOf]
  | ite c a b =>
    have ha : ¬a.sort = .bool := by simpa [connects] using h
    rw [ofTerm, if_neg ha]
    rfl
  | bool | num | not | and | or | implies => cases h
  | _ => simp [ofTerm, atomOf]

theorem folded_ofTerm (t : Term) : (ofTerm t).Folded := by
  have conjunction {as : List Term} (ih : ∀ a ∈ as, (ofTerm a).Folded) :
      (conjunction as).Folded := by
    induction as with
    | nil => exact Or.inl ⟨true, rfl⟩
    | cons a as ih' => exact folded_mkAnd (ih a (by simp)) (ih' fun a ha => ih a (by simp [ha]))
  have disjunction {as : List Term} (ih : ∀ a ∈ as, (ofTerm a).Folded) :
      (disjunction as).Folded := by
    induction as with
    | nil => exact Or.inl ⟨false, rfl⟩
    | cons a as ih' => exact folded_mkOr (ih a (by simp)) (ih' fun a ha => ih a (by simp [ha]))
  have atomic {t : Term} (h : connects t = false) : (ofTerm t).Folded := by
    rw [ofTerm_eq_atom h]
    exact Or.inr rfl
  induction t using Term.induct with
  | operator t o ho ih =>
    cases hc : connects t with
    | false => exact atomic hc
    | true =>
      cases t with
      | bool b => exact Or.inl ⟨b, by rw [ofTerm]⟩
      | num s q => exact Or.inl ⟨false, by rw [ofTerm]⟩
      | not a =>
        rw [ofTerm]
        exact folded_mkNot (ih a (by simp [Term.operands]))
      | and as =>
        rw [ofTerm]
        exact conjunction ih
      | or as =>
        rw [ofTerm]
        exact disjunction ih
      | implies a b =>
        rw [ofTerm]
        exact folded_mkOr (folded_mkNot (ih a (by simp [Term.operands])))
          (ih b (by simp [Term.operands]))
      | cmp r a b =>
        cases r with
        | eq =>
          rw [ofTerm, if_pos (by simpa [connects] using hc)]
          exact folded_mkIff (ih a (by simp [Term.operands])) (ih b (by simp [Term.operands]))
        | _ => cases hc
      | ite c a b =>
        rw [ofTerm, if_pos (by simpa [connects] using hc)]
        exact folded_mkIte (ih c (by simp [Term.operands])) (ih a (by simp [Term.operands]))
          (ih b (by simp [Term.operands]))
      | _ => cases hc
  | _ => exact atomic rfl

/-- If the atoms have the truth values of the terms they stand for, a skeleton has the truth value
of its constraint. -/
theorem eval_ofTerm {v : SkeletonAtom → Bool} {ρ : Env} (hρ : ρ.Typed) {t : Term}
    (ht : t.Constraint Term.noFlow)
    (reads : ∀ n ∈ t.subterms, connects n = false → n.Constraint Term.noFlow →
      (v (atomOf n) = true ↔ n.Holds ρ)) : (ofTerm t).eval v = true ↔ t.Holds ρ := by
  induction t using Term.induct with
  | operator t o ho ih =>
    cases hc : connects t with
    | false =>
      rw [ofTerm_eq_atom hc]
      exact reads t (Term.self_mem_subterms t) hc ht
    | true =>
      obtain ⟨accepts, sorted⟩ := (Term.sorted_operator ho).1 ht.sorted
      have operand (a : Term) (ha : a ∈ t.operands) (hs : a.sort = .bool) :
          (ofTerm a).eval v = true ↔ a.Holds ρ :=
        ih a ha ⟨sorted a ha, hs⟩ fun n hn =>
          reads n ((Term.mem_subterms_operator ho).2 (Or.inr ⟨a, ha, hn⟩))
      have first {a : Term} {as : List Term} : a ∈ a :: as := by simp
      have second {a b : Term} {as : List Term} : b ∈ a :: b :: as := by simp
      cases t with
      | bool b => cases b <;> simp [ofTerm, eval]
      | num s q => cases s <;> cases ht.sort
      | not a =>
        cases ho
        have ha := operand a first (of_decide_eq_true accepts)
        rw [ofTerm, eval_mkNot, Bool.not_eq_true', ← Bool.not_eq_true, ha]
        rfl
      | and as =>
        cases ho
        have hsort : ∀ a ∈ as, a.sort = .bool := by
          simpa [Operator.accepts, Term.operands] using accepts
        simp only [ofTerm, eval_conjunction, List.all_eq_true, Term.Holds, Term.eval,
          Term.evalAll_eq, Value.holds_truth, List.forall_mem_map]
        exact forall₂_congr fun a ha => operand a ha (hsort a ha)
      | or as =>
        cases ho
        have hsort : ∀ a ∈ as, a.sort = .bool := by
          simpa [Operator.accepts, Term.operands] using accepts
        simp only [ofTerm, eval_disjunction, List.any_eq_true, Term.Holds, Term.eval,
          Term.evalAll_eq, Value.holds_truth, List.mem_map, exists_exists_and_eq_and]
        exact exists_congr fun a => and_congr_right fun ha => operand a ha (hsort a ha)
      | implies a b =>
        cases ho
        obtain ⟨hsa, hsb⟩ : a.sort = .bool ∧ b.sort = .bool := by
          simpa [Operator.accepts, Term.operands] using accepts
        have ha := operand a first hsa
        have hb := operand b second hsb
        simp only [ofTerm, eval_mkOr, eval_mkNot, Bool.or_eq_true, Bool.not_eq_true',
          ← Bool.not_eq_true, ha, hb, ← imp_iff_not_or]
        rfl
      | cmp r a b =>
        cases ho
        cases r with
        | eq =>
          have hsa : a.sort = .bool := by simpa [connects] using hc
          have hsb : b.sort = .bool :=
            TermSort.alike_bool.1 (TermSort.alike_symm (hsa ▸ accepts))
          have ha := operand a first hsa
          have hb := operand b second hsb
          rw [ofTerm, if_pos hsa, eval_mkIff, beq_iff_eq, Bool.eq_iff_iff, ha, hb]
          have va := Term.eval_eq_truth (sorted a first) hsa hρ
          have vb := Term.eval_eq_truth (sorted b second) hsb hρ
          simp only [Term.Holds, Term.eval, Value.holds_truth, Relation.Compares]
          rw [va, vb]
          simp
        | _ => cases hc
      | ite c a b =>
        cases ho
        have hsa : a.sort = .bool := by simpa [connects] using hc
        obtain ⟨hsc, hab⟩ : c.sort = .bool ∧ a.sort.alike b.sort = true := by
          simpa [Operator.accepts, Term.operands] using accepts
        have hsb : b.sort = .bool := TermSort.alike_bool.1 (TermSort.alike_symm (hsa ▸ hab))
        have hc' := operand c first hsc
        have ha := operand a second hsa
        have hb := operand b (by simp [Term.operands]) hsb
        rw [ofTerm, if_pos hsa, eval_mkIte, Term.Holds, Term.eval]
        by_cases hcond : c.Holds ρ
        · rw [if_pos (hc'.2 hcond), if_pos hcond, ha]
        · rw [if_neg (mt hc'.1 hcond), if_neg hcond, hb]
      | _ => cases hc
  | var | next | quant =>
    rw [ofTerm_eq_atom rfl]
    exact reads _ (Term.self_mem_subterms _) rfl ht
  | integral seg => cases Term.flowFree_of_plain ht.sorted
  | throughout seg body => cases Term.flowFree_of_plain ht.sorted

end Skeleton

/-! ## Names -/

inductive Symbol.IsGenerated : String → Prop where
  | discrete {id : String} (s : TermSort) (k : Int) :
      isIdentifier id = true → IsGenerated (discrete id s k).name
  | state {id : String} (s : TermSort) (k : Int) (p : Phase) :
      isIdentifier id = true → IsGenerated (state id s k p).name
  | time (k : Int) : IsGenerated (time k).name
  | tau (k : Int) : IsGenerated (tau k).name
  | witness (n : Int) : IsGenerated (witness n).name
  | instant (n : Int) : IsGenerated (instant n).name
  | offset : IsGenerated offset.name

/-- A name that a variable may have: an identifier other than a constant, or a generated name. -/
def IsSymbolName (name : String) : Prop :=
  (isIdentifier name = true ∧ name ≠ "true" ∧ name ≠ "false") ∨ Symbol.IsGenerated name

/-- An identifier with a mark and numbers behind it can be told apart from constants. -/
theorem isLabel_marked (id : String) (h : isIdentifier id = true) {mark : Char}
    (hmark : mark = '@' ∨ mark = '#') {s : String}
    (hs : ∀ c ∈ s.toList, c.isDigit = true ∨ c ∈ ['-', '.', 't']) {name : String}
    (hname : name.toList = id.toList ++ mark :: s.toList) :
    IsLabel name ∧ name ≠ "true" ∧ name ≠ "false" := by
  obtain ⟨word, ⟨c, r, hr, hc⟩, unmarked⟩ := isLabel_of_identifier h
  have rest : ∀ c ∈ mark :: s.toList, isWordChar c = true ∧ c ≠ jumpMark := by
    intro c hc
    rcases List.mem_cons.1 hc with rfl | hc
    · rcases hmark with rfl | rfl <;> decide
    · rcases hs c hc with hd | hc
      · refine ⟨isWordChar_of_isDigit hd, ?_⟩
        rintro rfl
        exact absurd hd (by decide)
      · simp only [List.mem_cons, List.not_mem_nil, or_false] at hc
        rcases hc with rfl | rfl | rfl <;> decide
  have contains : mark ∈ name.toList := by simp [hname]
  refine ⟨⟨⟨by simp [hname], fun c hc => ?_⟩, ⟨c, r ++ mark :: s.toList, by simp [hname, hr], hc⟩,
    fun c hc => ?_⟩, ?_, ?_⟩
  · rw [hname] at hc
    rcases List.mem_append.1 hc with hc | hc
    · exact word.2 c hc
    · exact (rest c hc).1
  · rw [hname] at hc
    rcases List.mem_append.1 hc with hc | hc
    · exact unmarked c hc
    · exact (rest c hc).2
  · rintro rfl
    rcases hmark with rfl | rfl <;> exact absurd contains (by decide)
  · rintro rfl
    rcases hmark with rfl | rfl <;> exact absurd contains (by decide)

theorem IsSymbolName.legible {name : String} (h : IsSymbolName name) :
    IsLabel name ∧ name ≠ "true" ∧ name ≠ "false" := by
  have digits (k : Int) : ∀ c ∈ (toString k).toList, c.isDigit = true ∨ c ∈ ['-', '.', 't'] := by
    intro c hc
    rcases mem_toList_int hc with h | rfl
    · exact Or.inl h
    · exact Or.inr (by simp)
  have numbered (id : String) (h : isIdentifier id = true) {mark : Char}
      (hmark : mark = '@' ∨ mark = '#') (k : Int) {name : String}
      (hname : name.toList = id.toList ++ mark :: (toString k).toList) :
      IsLabel name ∧ name ≠ "true" ∧ name ≠ "false" := isLabel_marked id h hmark (digits k) hname
  rcases h with ⟨h, hne⟩ | h
  · exact ⟨isLabel_of_identifier h, hne⟩
  · cases h with
    | discrete s k h => exact numbered _ h (Or.inl rfl) k (by simp [Symbol.discrete])
    | @state id s k p h =>
      refine isLabel_marked id h (Or.inl rfl) (s := toString k ++ "." ++ p.text) ?_
        (by simp [Symbol.state])
      simp only [String.toList_append, List.mem_append]
      rintro c ((hc | hc) | hc)
      · exact digits k c hc
      · exact Or.inr (by simp_all)
      · cases p
        · obtain rfl : c = '0' := by simpa [Phase.text] using hc
          exact Or.inl rfl
        · obtain rfl : c = 't' := by simpa [Phase.text] using hc
          exact Or.inr (by simp)
    | time k => exact numbered "time" rfl (Or.inr rfl) k (by simp [Symbol.time])
    | tau k => exact numbered "tau" rfl (Or.inr rfl) k (by simp [Symbol.tau])
    | witness n => exact numbered "w" rfl (Or.inr rfl) n (by simp [Symbol.witness])
    | instant n => exact numbered "u" rfl (Or.inr rfl) n (by simp [Symbol.instant])
    | offset =>
      exact isLabel_marked "off" rfl (Or.inr rfl) (s := "") (by simp)
        (by simp [Symbol.offset])

namespace Term

def labels (t : Term) : List Var := t.subterms.filterMap label?

theorem mem_labels {t : Term} {v : Var} : v ∈ t.labels ↔ ∃ n ∈ t.subterms, n.label? = some v :=
  List.mem_filterMap

/-- Names of symbols can be told apart where no two variables of some terms share one. -/
theorem legible_labels {terms : List Term}
    (named : ∀ t ∈ terms, ∀ v ∈ t.labels, IsSymbolName v.name)
    (unique : ∀ t ∈ terms, ∀ u ∈ terms, ∀ v ∈ t.labels, ∀ w ∈ u.labels, v.name = w.name → v = w) :
    Legible fun v => ∃ t ∈ terms, v ∈ t.labels where
  label := fun v ⟨t, ht, hv⟩ => (named t ht v hv).legible.1
  constant := fun v ⟨t, ht, hv⟩ => (named t ht v hv).legible.2
  unique := fun v w ⟨t, ht, hv⟩ ⟨u, hu, hw⟩ => unique t ht u hu v hv w hw

theorem names_labels {terms : List Term} {t : Term} (ht : t ∈ terms)
    (flowFree : t.flowFree = true) : Names (fun v => ∃ t ∈ terms, v ∈ t.labels) t :=
  ⟨flowFree, fun n hn _ hv => ⟨t, ht, mem_labels.2 ⟨n, hn, hv⟩⟩⟩

/-- Whether a term is built from Boolean variables and constants by Boolean operators. -/
def isPropositional (t : Term) : Bool :=
  t.subterms.all fun
    | var v => v.sort = .bool
    | bool _ | not _ | and _ | or _ | implies .. => true
    | cmp .eq a _ | ite _ a _ => a.sort = .bool
    | _ => false

end Term

namespace Skeleton

open Term

/-- Terms that stand for one atom have one value. -/
theorem holds_of_atomOf {P : Var → Prop} (hP : Legible P) {t u : Term} (ht : Names P t)
    (hu : Names P u) (h : atomOf t = atomOf u) (ρ : Env) : t.Holds ρ ↔ u.Holds ρ := by
  have label {v : Var} (h : Names P (.var v)) : P v := h.labels _ (self_mem_subterms _) v rfl
  have kinds (t : Term) : (∃ v, t = .var v ∧ atomOf t = .symbol v.name) ∨
      atomOf t = .constraint t.text := by
    cases t with
    | var v =>
      rw [atomOf]
      split
      · exact Or.inl ⟨v, rfl, rfl⟩
      · exact Or.inr rfl
    | _ => exact Or.inr rfl
  rcases kinds t with ⟨v, rfl, hv⟩ | hv
  · rcases kinds u with ⟨w, rfl, hw⟩ | hw
    · rw [hv, hw, SkeletonAtom.symbol.injEq] at h
      rw [hP.unique v w (label ht) (label hu) h]
    · rw [hv, hw] at h
      cases h
  · rcases kinds u with ⟨w, rfl, hw⟩ | hw
    · rw [hv, hw] at h
      cases h
    · rw [hv, hw, SkeletonAtom.constraint.injEq] at h
      rw [Holds, Holds, ← eval_canonical ht.flowFree, ← eval_canonical hu.flowFree,
        canonical_of_text hP ht hu h]

open scoped Classical in
noncomputable def truths (P : Var → Prop) (ρ : Env) (a : SkeletonAtom) : Bool :=
  decide (∃ t, Names P t ∧ atomOf t = a ∧ t.Holds ρ)

theorem truths_atomOf {P : Var → Prop} (hP : Legible P) {t : Term} (ht : Names P t) (ρ : Env) :
    truths P ρ (atomOf t) = true ↔ t.Holds ρ := by
  simp only [truths, decide_eq_true_eq]
  constructor
  · rintro ⟨u, hu, hatom, holds⟩
    exact (holds_of_atomOf hP hu ht hatom ρ).1 holds
  · exact fun holds => ⟨t, ht, rfl, holds⟩

/-- The environment in which Boolean variables have the truth values of their atoms. -/
noncomputable def environment (v : SkeletonAtom → Bool) : Env where
  now w := if w.sort = .bool then .truth (v (atomOf (.var w)) = true) else Env.blank.now w
  next := Env.blank.next

theorem environment_sorted (v : SkeletonAtom → Bool) : (environment v).Sorted := by
  refine ⟨fun w => ?_, Env.blank_sorted.2⟩
  dsimp only [environment]
  split
  · next h =>
    rw [h]
    exact ⟨_, rfl⟩
  · exact Env.blank_sorted.1 w

theorem atomOf_environment {t : Term} (h : t.isPropositional = true) (v : SkeletonAtom → Bool) :
    ∀ n ∈ t.subterms, connects n = false → n.Constraint noFlow →
      (v (atomOf n) = true ↔ n.Holds (environment v)) := by
  intro n hn hc hbool
  have hn := List.all_eq_true.1 h n hn
  cases n with
  | var w =>
    have hs : w.sort = .bool := by simpa using hn
    simp [Holds, Term.eval, environment, hs]
  | cmp r a b =>
    cases r with
    | eq =>
      simp only [connects, decide_eq_false_iff_not] at hc
      exact absurd (by simpa using hn) hc
    | _ => cases hn
  | ite c a b =>
    simp only [connects, decide_eq_false_iff_not] at hc
    exact absurd (by simpa using hn) hc
  | bool | not | and | or | implies => cases hc
  | _ => cases hn

end Skeleton

open Skeleton in
theorem refutes_iff (terms : List Term) :
    refutes terms = true ↔ ∀ v, ∃ t ∈ terms, (ofTerm t).eval v = false := by
  have folded : ∀ p ∈ terms.map ofTerm, p.Folded := by
    simpa using fun t _ => folded_ofTerm t
  rw [refutes, refuted_iff folded]
  simp

open Term Skeleton in
/-- What a solver must get right: if its `answer` is whether the skeletons of the constraints have
no model, then refuted constraints do not hold together, and of constraints built by Boolean
operators from Boolean variables exactly those are refuted. -/
theorem exact_of_decides {terms : List Term} {answer : Bool}
    (decides : answer = true ↔ ∀ v, ∃ t ∈ terms, (ofTerm t).eval v = false)
    (constraints : ∀ t ∈ terms, t.Constraint noFlow)
    (named : ∀ t ∈ terms, ∀ v ∈ t.labels, IsSymbolName v.name)
    (unique : ∀ t ∈ terms, ∀ u ∈ terms, ∀ v ∈ t.labels, ∀ w ∈ u.labels,
      v.name = w.name → v = w) :
    (answer = true → ∀ ρ : Env, ρ.Sorted → ¬∀ t ∈ terms, t.Holds ρ) ∧
    ((∀ t ∈ terms, t.isPropositional = true) →
      (answer = true ↔ ∀ ρ : Env, ρ.Sorted → ¬∀ t ∈ terms, t.Holds ρ)) := by
  have sound (h : answer = true) (ρ : Env) (hρ : ρ.Sorted) : ¬∀ t ∈ terms, t.Holds ρ := by
    intro holds
    let P : Var → Prop := fun v => ∃ t ∈ terms, v ∈ t.labels
    have hP : Legible P := legible_labels named unique
    obtain ⟨t, ht, hfalse⟩ := decides.1 h (truths P ρ)
    have names : Names P t := names_labels ht (flowFree_of_plain (constraints t ht).sorted)
    have htrue : (ofTerm t).eval (truths P ρ) = true ↔ t.Holds ρ :=
      eval_ofTerm hρ.typed (constraints t ht) fun n hn _ _ => truths_atomOf hP (names.subterm hn) ρ
    rw [htrue.2 (holds t ht)] at hfalse
    cases hfalse
  refine ⟨sound, fun propositional => ⟨sound, fun none => decides.2 fun v => ?_⟩⟩
  have := none (environment v) (environment_sorted v)
  push Not at this
  obtain ⟨t, ht, hnot⟩ := this
  refine ⟨t, ht, ?_⟩
  rw [← Bool.not_eq_true, eval_ofTerm (environment_sorted v).typed (constraints t ht)
    (atomOf_environment (propositional t ht) v)]
  exact hnot

open Term Skeleton in
/-- Refuted constraints do not hold together in any environment, and of constraints that are built
by Boolean operators from Boolean variables exactly those are refuted that do not hold together in
any environment. -/
theorem refutes_exact {terms : List Term} (constraints : ∀ t ∈ terms, t.Constraint noFlow)
    (named : ∀ t ∈ terms, ∀ v ∈ t.labels, IsSymbolName v.name)
    (unique : ∀ t ∈ terms, ∀ u ∈ terms, ∀ v ∈ t.labels, ∀ w ∈ u.labels,
      v.name = w.name → v = w) :
    (refutes terms = true → ∀ ρ : Env, ρ.Sorted → ¬∀ t ∈ terms, t.Holds ρ) ∧
    ((∀ t ∈ terms, t.isPropositional = true) →
      (refutes terms = true ↔ ∀ ρ : Env, ρ.Sorted → ¬∀ t ∈ terms, t.Holds ρ)) :=
  exact_of_decides (refutes_iff terms) constraints named unique

/-- A mode, a bound that holds in the mode, and the opposite of the bound. -/
def guarded : List Term :=
  let on := Term.var (Symbol.discrete "on" .bool 0)
  let x := Term.var (Symbol.state "x" .real 0 .entry)
  [on, .implies on (.cmp .lt x (.num .int 1)), .not (.cmp .lt x (.num .real 1))]

open Term Skeleton in
/-- Comparisons of one text are one atom, though one constant is an integer and one is real. -/
theorem refutes_guarded : refutes guarded = true ∧
    ∀ ρ : Env, ρ.Sorted → ¬∀ t ∈ guarded, t.Holds ρ := by
  have refuted : refutes guarded = true := by
    refine (refutes_iff _).2 fun v => ?_
    simp only [guarded, List.mem_cons, List.not_mem_nil, or_false, exists_eq_or_imp,
      exists_eq_left, ofTerm, eval_mkOr, eval_mkNot, text_cmp, text_num]
    have each : ∀ p q : Bool, p = false ∨ (!p || q) = false ∨ (!q) = false := by decide
    exact each _ _
  have names : ∀ t ∈ guarded, ∀ v ∈ t.labels, v = Symbol.discrete "on" .bool 0 ∨
      v = Symbol.state "x" .real 0 .entry := by decide
  refine ⟨refuted, (refutes_exact ?_ ?_ ?_).1 refuted⟩
  · intro t ht
    simp only [guarded, List.mem_cons, List.not_mem_nil, or_false] at ht
    rcases ht with rfl | rfl | rfl <;> exact ⟨by decide, rfl⟩
  · intro t ht v hv
    rcases names t ht v hv with rfl | rfl
    · exact Or.inr (.discrete .bool 0 rfl)
    · exact Or.inr (.state .real 0 .entry rfl)
  · intro t ht u hu v hv w hw hname
    rcases names t ht v hv with rfl | rfl <;> rcases names u hu w hw with rfl | rfl <;>
      first | rfl | (revert hname; decide)

end HybridCheck
