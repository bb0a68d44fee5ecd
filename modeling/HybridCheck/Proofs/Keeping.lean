import HybridCheck.Proofs.Lookup
import HybridCheck.Proofs.Subterm

/-!
# What folding and replacement keep

Whatever a folding operation makes of its operands has every hereditary property that the operands
have, well-sorted or not, as long as there is an answer at all. So a replacement that turns the
leaves of a term into terms of one kind turns the whole term into such a term: what a term consists
of is told by its variables, its references after a jump and its flow primitives, wherever they
stand in it. Less is needed if only the result matters: a property that passes from operands to what
is built of them is kept at every node that has it already or is built anew.
-/

namespace HybridCheck

def Operator.arithmetic : Operator → Bool
  | num .. | add _ | sub | mul _ | div | neg => true
  | bool _ | not | and | or | implies | ite | cmp _ => false

def Operator.connective : Operator → Bool
  | bool _ | not | and | or | implies => true
  | num .. | add _ | sub | mul _ | div | neg | ite | cmp _ => false

namespace Term

variable {H : Term → Prop}

/-- A property that the operators among those named have exactly when all their operands do. -/
def Inherited (among : Operator → Prop) (H : Term → Prop) : Prop :=
  ∀ t o, t.operator? = some o → among o → (H t ↔ ∀ a ∈ t.operands, H a)

theorem Inherited.mono {among among' : Operator → Prop} (hH : Inherited among H)
    (fewer : ∀ o, among' o → among o) : Inherited among' H :=
  fun t o ho h => hH t o ho (fewer o h)

/-- Connectives are no arithmetic. -/
theorem Inherited.connectives (hH : Inherited (·.arithmetic = false) H) :
    Inherited (·.connective = true) H :=
  hH.mono fun o ho => by cases o <;> first | rfl | cases ho

/-! ## Folding -/

theorem Inherited.num (hH : Inherited (·.arithmetic = true) H) (s : NumSort) (q : Rat) :
    H (num s q) :=
  (hH _ (.num s q) rfl rfl).2 (by simp [operands])

theorem Inherited.bool (hH : Inherited (·.connective = true) H) (b : Bool) : H (bool b) :=
  (hH _ (.bool b) rfl rfl).2 (by simp [operands])

/-- The first of several operands is a number or not. -/
theorem splitNumbers_cons {a : Term} {as rest : List Term} {qs : List Rat}
    (h : splitNumbers (a :: as) = .ok (qs, rest)) :
    ∃ qs' rest', splitNumbers as = .ok (qs', rest') ∧
      ((∃ s q, a = .num s q ∧ qs = q :: qs' ∧ rest = rest') ∨ (qs = qs' ∧ rest = a :: rest')) := by
  cases a with
  | bool => cases h
  | num s q =>
    obtain ⟨⟨qs', rest'⟩, hs, h⟩ := Attempt.bind_eq_ok.1 h
    cases h
    exact ⟨_, _, hs, Or.inl ⟨s, q, rfl, rfl, rfl⟩⟩
  | _ =>
    obtain ⟨⟨qs', rest'⟩, hs, h⟩ := Attempt.bind_eq_ok.1 h
    cases h
    exact ⟨_, _, hs, Or.inr ⟨rfl, rfl⟩⟩

theorem mem_of_splitNumbers {as rest : List Term} {qs : List Rat}
    (h : splitNumbers as = .ok (qs, rest)) : ∀ a ∈ rest, a ∈ as := by
  induction as generalizing qs rest with
  | nil =>
    cases h
    simp
  | cons a as ih =>
    obtain ⟨qs', rest', hs, ⟨s, q, rfl, rfl, rfl⟩ | ⟨rfl, rfl⟩⟩ := splitNumbers_cons h
    · exact fun b hb => List.mem_cons_of_mem _ (ih hs b hb)
    · exact List.cons_subset_cons a (ih hs)

theorem Inherited.mkAdd (hH : Inherited (·.arithmetic = true) H) {as : List Term} {u : Term}
    (h : ∀ a ∈ as, H a) (hu : mkAdd as = .ok u) : H u := by
  obtain ⟨⟨qs, rest⟩, hs, hu⟩ := Attempt.bind_eq_ok.1 hu
  have kept : ∀ a ∈ (if qs.foldr (· + ·) 0 ≠ 0 ∨ rest.isEmpty then
      rest ++ [Term.num (arithSort as) (qs.foldr (· + ·) 0)] else rest), H a := by
    intro a ha
    split at ha
    · rcases List.mem_append.1 ha with ha | ha
      · exact h a (mem_of_splitNumbers hs a ha)
      · obtain rfl := List.mem_singleton.1 ha
        exact hH.num _ _
    · exact h a (mem_of_splitNumbers hs a ha)
  dsimp only at hu
  split at hu
  · next heq =>
    cases hu
    exact kept u (by rw [heq]; simp)
  · cases hu
    exact (hH _ (.add _) rfl rfl).2 kept

theorem Inherited.mkMul (hH : Inherited (·.arithmetic = true) H) {as : List Term} {u : Term}
    (h : ∀ a ∈ as, H a) (hu : mkMul as = .ok u) : H u := by
  obtain ⟨⟨qs, rest⟩, hs, hu⟩ := Attempt.bind_eq_ok.1 hu
  have kept : ∀ a ∈ (if qs.foldr (· * ·) 1 ≠ 1 ∨ rest.isEmpty then
      Term.num (arithSort as) (qs.foldr (· * ·) 1) :: rest else rest), H a := by
    intro a ha
    split at ha
    · rcases List.mem_cons.1 ha with rfl | ha
      · exact hH.num _ _
      · exact h a (mem_of_splitNumbers hs a ha)
    · exact h a (mem_of_splitNumbers hs a ha)
  dsimp only at hu
  split at hu
  · cases hu
    exact hH.num _ _
  · split at hu
    · next heq =>
      cases hu
      exact kept u (by rw [heq]; simp)
    · cases hu
      exact (hH _ (.mul _) rfl rfl).2 kept

variable {a b u : Term}

theorem Inherited.mkSub (hH : Inherited (·.arithmetic = true) H) (ha : H a) (hb : H b)
    (hu : mkSub a b = .ok u) : H u := by
  have plain : H (sub a b) := (hH _ .sub rfl rfl).2 (by simpa [operands] using ⟨ha, hb⟩)
  unfold Term.mkSub at hu
  split at hu
  · cases hu
  · split at hu
    · cases hu
      exact ha
    · split at hu
      · cases hu
      · cases hu
        exact hH.num _ _
      · cases hu
        exact plain
  · cases hu
    exact plain

theorem Inherited.mkDiv (hH : Inherited (·.arithmetic = true) H) (ha : H a) (hb : H b)
    (hu : mkDiv a b = .ok u) : H u := by
  have plain : H (div a b) := (hH _ .div rfl rfl).2 (by simpa [operands] using ⟨ha, hb⟩)
  unfold Term.mkDiv at hu
  split at hu
  · cases hu
  · split at hu
    · cases hu
      exact plain
    · split at hu
      · cases hu
      · cases hu
        exact hH.num _ _
      · split at hu
        · cases hu
          exact ha
        · cases hu
          exact plain
  · cases hu
    exact plain

theorem Inherited.mkNeg (hH : Inherited (·.arithmetic = true) H) (ha : H a)
    (hu : mkNeg a = .ok u) : H u := by
  unfold Term.mkNeg at hu
  split at hu
  · cases hu
  · cases hu
    exact hH.num _ _
  · cases hu
    exact (hH _ .neg rfl rfl).1 ha _ (by simp [operands])
  · cases hu
    exact (hH _ .neg rfl rfl).2 (by simpa [operands] using ha)

theorem Inherited.mkNot (hH : Inherited (·.connective = true) H) (ha : H a) : H a.mkNot := by
  unfold Term.mkNot
  split
  · exact hH.bool _
  · exact hH.bool _
  · exact (hH _ .not rfl rfl).1 ha _ (by simp [operands])
  · exact (hH _ .not rfl rfl).2 (by simpa [operands] using ha)

/-- The collected operands of a conjunction or disjunction have what the operands of a nested one
get from it and what an operand that is kept has. -/
theorem forall_of_collect {P : Term → Prop} {absorbing : Bool}
    {spread : Term → Option (List Term)} {as rest : List Term}
    (nested : ∀ a inner, spread a = some inner → P a → ∀ b ∈ inner, H b)
    (own : ∀ a, a.truth? = none → spread a = none → P a → H a)
    (h : ∀ a ∈ as, P a) (hr : collect absorbing spread as = some rest) : ∀ b ∈ rest, H b := by
  induction as generalizing rest with
  | nil =>
    cases hr
    simp
  | cons a as ih =>
    have later : ∀ b ∈ as, P b := fun b hb => h b (by simp [hb])
    rw [collect] at hr
    split at hr
    · split at hr
      · cases hr
      · exact ih later hr
    · next constant =>
      split at hr
      · cases hr
      · next collected hc =>
        have kept := ih later hc
        split at hr
        · next inner hi =>
          cases hr
          exact List.forall_mem_append.2 ⟨nested a inner hi (h a (by simp)), kept⟩
        · next hi =>
          cases hr
          exact List.forall_mem_cons.2 ⟨own a constant hi (h a (by simp)), kept⟩

theorem Inherited.mkAnd (hH : Inherited (·.connective = true) H) {as : List Term}
    (h : ∀ a ∈ as, H a) : H (mkAnd as) := by
  have kept {rest : List Term} (hr : collect false conjuncts? as = some rest) : ∀ a ∈ rest, H a :=
    forall_of_collect (fun a inner hi ha => by
      cases a <;> cases hi
      exact (hH _ .and rfl rfl).1 ha) (fun _ _ _ ha => ha) h hr
  unfold Term.mkAnd
  split
  · exact hH.bool _
  · exact hH.bool _
  · next hr => exact kept hr _ (by simp)
  · next hr => exact (hH _ .and rfl rfl).2 (kept hr)

theorem Inherited.mkOr (hH : Inherited (·.connective = true) H) {as : List Term}
    (h : ∀ a ∈ as, H a) : H (mkOr as) := by
  have kept {rest : List Term} (hr : collect true disjuncts? as = some rest) : ∀ a ∈ rest, H a :=
    forall_of_collect (fun a inner hi ha => by
      cases a <;> cases hi
      exact (hH _ .or rfl rfl).1 ha) (fun _ _ _ ha => ha) h hr
  unfold Term.mkOr
  split
  · exact hH.bool _
  · exact hH.bool _
  · next hr => exact kept hr _ (by simp)
  · next hr => exact (hH _ .or rfl rfl).2 (kept hr)

theorem Inherited.mkImplies (hH : Inherited (·.connective = true) H) (ha : H a) (hb : H b) :
    H (mkImplies a b) := by
  unfold Term.mkImplies
  split
  · exact hb
  · exact hH.bool _
  · split
    · exact hH.bool _
    · exact hH.mkNot ha
    · exact (hH _ .implies rfl rfl).2 (by simpa [operands] using ⟨ha, hb⟩)

theorem Inherited.mkIte (hH : Inherited (·.arithmetic = false) H) {c : Term} (hc : H c) (ha : H a)
    (hb : H b) : H (mkIte c a b) := by
  unfold Term.mkIte
  split
  · exact ha
  · exact hb
  · exact (hH _ .ite rfl rfl).2 (by simpa [operands] using ⟨hc, ha, hb⟩)

theorem Inherited.mkCmp (hH : Inherited (·.arithmetic = false) H) (r : Relation) (ha : H a)
    (hb : H b) : H (mkCmp r a b) := by
  unfold Term.mkCmp
  split
  · exact hH.connectives.bool _
  · split
    · exact hH.connectives.bool _
    · exact (hH _ (.cmp r) rfl rfl).2 (by simpa [operands] using ⟨ha, hb⟩)

/-- Whatever an operator builds has what its operands have. -/
theorem Inherited.build {o : Operator} (hH : Inherited (·.arithmetic = o.arithmetic) H)
    {as : List Term} (h : ∀ a ∈ as, H a) (hu : o.build as = .ok u) : H u := by
  cases o with
  | bool b =>
    cases hu
    exact hH.connectives.bool b
  | num s q =>
    cases hu
    exact hH.num s q
  | and =>
    cases hu
    exact hH.connectives.mkAnd h
  | or =>
    cases hu
    exact hH.connectives.mkOr h
  | add => exact hH.mkAdd h hu
  | mul => exact hH.mkMul h hu
  | not =>
    rcases as with _ | ⟨a, _ | ⟨b, as⟩⟩ <;> cases hu
    exact hH.connectives.mkNot (h a (by simp))
  | neg =>
    rcases as with _ | ⟨a, _ | ⟨b, as⟩⟩
    case cons.nil => exact hH.mkNeg (h a (by simp)) hu
    all_goals cases hu
  | implies =>
    rcases as with _ | ⟨a, _ | ⟨b, _ | ⟨c, as⟩⟩⟩ <;> cases hu
    exact hH.connectives.mkImplies (h a (by simp)) (h b (by simp))
  | cmp r =>
    rcases as with _ | ⟨a, _ | ⟨b, _ | ⟨c, as⟩⟩⟩ <;> cases hu
    exact hH.mkCmp r (h a (by simp)) (h b (by simp))
  | sub =>
    rcases as with _ | ⟨a, _ | ⟨b, _ | ⟨c, as⟩⟩⟩
    case cons.cons.nil => exact hH.mkSub (h a (by simp)) (h b (by simp)) hu
    all_goals cases hu
  | div =>
    rcases as with _ | ⟨a, _ | ⟨b, _ | ⟨c, as⟩⟩⟩
    case cons.cons.nil => exact hH.mkDiv (h a (by simp)) (h b (by simp)) hu
    all_goals cases hu
  | ite =>
    rcases as with _ | ⟨c, _ | ⟨a, _ | ⟨b, _ | ⟨d, as⟩⟩⟩⟩ <;> cases hu
    exact hH.mkIte (h c (by simp)) (h a (by simp)) (h b (by simp))

/-! A hereditary property is one that arithmetic and all other operators inherit. -/

section Hereditary

variable (hH : Hereditary H)
include hH

theorem Hereditary.inherited (among : Operator → Prop) : Inherited among H :=
  fun t o ho _ => hH t o ho

theorem Hereditary.build {o : Operator} {as : List Term} (h : ∀ a ∈ as, H a)
    (hu : o.build as = .ok u) : H u :=
  (hH.inherited _).build h hu

theorem Hereditary.num (s : NumSort) (q : Rat) : H (num s q) := (hH.inherited _).num s q

theorem Hereditary.bool (b : Bool) : H (bool b) := (hH.inherited _).bool b

theorem Hereditary.mkAdd {as : List Term} (h : ∀ a ∈ as, H a) (hu : mkAdd as = .ok u) : H u :=
  (hH.inherited _).mkAdd h hu

theorem Hereditary.mkMul {as : List Term} (h : ∀ a ∈ as, H a) (hu : mkMul as = .ok u) : H u :=
  (hH.inherited _).mkMul h hu

theorem Hereditary.mkSub (ha : H a) (hb : H b) (hu : mkSub a b = .ok u) : H u :=
  (hH.inherited _).mkSub ha hb hu

theorem Hereditary.mkDiv (ha : H a) (hb : H b) (hu : mkDiv a b = .ok u) : H u :=
  (hH.inherited _).mkDiv ha hb hu

theorem Hereditary.mkNeg (ha : H a) (hu : mkNeg a = .ok u) : H u :=
  (hH.inherited _).mkNeg ha hu

theorem Hereditary.mkNot (ha : H a) : H a.mkNot := (hH.inherited _).mkNot ha

theorem Hereditary.mkAnd {as : List Term} (h : ∀ a ∈ as, H a) : H (mkAnd as) :=
  (hH.inherited _).mkAnd h

theorem Hereditary.mkOr {as : List Term} (h : ∀ a ∈ as, H a) : H (mkOr as) :=
  (hH.inherited _).mkOr h

theorem Hereditary.mkImplies (ha : H a) (hb : H b) : H (mkImplies a b) :=
  (hH.inherited _).mkImplies ha hb

theorem Hereditary.mkCmp (r : Relation) (ha : H a) (hb : H b) : H (mkCmp r a b) :=
  (hH.inherited _).mkCmp r ha hb

end Hereditary

/-! Less is asked of a property that is only to be found again in what is built. -/

/-- A property that whatever an operator builds has if all its operands do. -/
def Kept (H : Term → Prop) : Prop :=
  ∀ (o : Operator) (as : List Term) (u : Term), (∀ a ∈ as, H a) → o.build as = .ok u → H u

theorem Hereditary.kept (hH : Hereditary H) : Kept H := fun _ _ _ h hu => hH.build h hu

section Kept

variable (hH : Kept H)
include hH

theorem Kept.num (s : NumSort) (q : Rat) : H (num s q) := hH (.num s q) [] _ (by simp) rfl

theorem Kept.mkAdd {as : List Term} (h : ∀ a ∈ as, H a) (hu : mkAdd as = .ok u) : H u :=
  hH (.add .real) as u h hu

theorem Kept.mkMul {as : List Term} (h : ∀ a ∈ as, H a) (hu : mkMul as = .ok u) : H u :=
  hH (.mul .real) as u h hu

theorem Kept.mkAnd {as : List Term} (h : ∀ a ∈ as, H a) : H (mkAnd as) := hH .and as _ h rfl

theorem Kept.mkOr {as : List Term} (h : ∀ a ∈ as, H a) : H (mkOr as) := hH .or as _ h rfl

theorem Kept.mkImplies (ha : H a) (hb : H b) : H (mkImplies a b) :=
  hH .implies [a, b] _ (by simpa using ⟨ha, hb⟩) rfl

theorem Kept.mkCmp (r : Relation) (ha : H a) (hb : H b) : H (mkCmp r a b) :=
  hH (.cmp r) [a, b] _ (by simpa using ⟨ha, hb⟩) rfl

end Kept

/-! ## What a term consists of -/

def Binds (t : Term) (v : Var) : Prop := ∃ q body, quant q v body ∈ t.subterms

/-- A node is a variable with `P`, a reference after a jump with `Q`, a quantifier over a variable
with `B`, a flow primitive with `F`, or an operator. -/
def Consists (P Q B : Var → Prop) (F : Term → Prop) : Term → Prop
  | var v => P v
  | next v => Q v
  | quant _ v _ => B v
  | t@(integral _) | t@(throughout ..) => F t
  | _ => True

/-- Every node of a term is an operator, or one of the variables, references, quantifiers and flow
primitives named. -/
def Uses (P Q B : Var → Prop) (F : Term → Prop) (t : Term) : Prop :=
  ∀ n ∈ t.subterms, n.Consists P Q B F

abbrev noReference : Var → Prop := fun _ => False

abbrev anyBinder : Var → Prop := fun _ => True

abbrev noPrimitive : Term → Prop := fun _ => False

section Uses

variable {P P' Q Q' B B' : Var → Prop} {F F' : Term → Prop} {t : Term} {v : Var}

theorem hereditary_uses : Hereditary (Uses P Q B F) :=
  hereditary_subterms fun t o ho => by cases t <;> cases ho <;> trivial

@[simp] theorem uses_var : (var v).Uses P Q B F ↔ P v := by simp [Uses, Consists]

@[simp] theorem uses_next : (next v).Uses P Q B F ↔ Q v := by simp [Uses, Consists]

@[simp] theorem uses_quant {q : Quantifier} {body : Term} :
    (quant q v body).Uses P Q B F ↔ B v ∧ body.Uses P Q B F := by
  simp [Uses, Consists]

/-- A description of the nodes may be exchanged if the other one follows for what occurs in the
term. -/
theorem Uses.weaken (h : t.Uses P Q B F) (hP : ∀ v, var v ∈ t.subterms → P v → P' v)
    (hQ : ∀ v, next v ∈ t.subterms → Q v → Q' v) (hB : ∀ v, t.Binds v → B v → B' v)
    (hF : ∀ a, F a → F' a) : t.Uses P' Q' B' F' := by
  intro n hn
  have := h n hn
  cases n with
  | var v => exact hP v hn this
  | next v => exact hQ v hn this
  | quant q v body => exact hB v ⟨q, body, hn⟩ this
  | integral seg => exact hF _ this
  | throughout seg body => exact hF _ this
  | _ => trivial

theorem Uses.mono (h : t.Uses P Q B F) (hP : ∀ v, P v → P' v) (hQ : ∀ v, Q v → Q' v)
    (hF : ∀ a, F a → F' a) : t.Uses P' Q' B F' :=
  h.weaken (fun v _ => hP v) (fun v _ => hQ v) (fun _ _ h => h) hF

/-- The references after a jump are among the nodes. -/
theorem Uses.of_next (h : t.Uses P Q B F) : t.Uses P (fun v => Q v ∧ next v ∈ t.subterms) B F :=
  h.weaken (fun _ _ h => h) (fun _ hv h => ⟨h, hv⟩) (fun _ _ h => h) fun _ h => h

theorem Uses.flowFree (h : t.Uses P Q B noPrimitive) : t.flowFree = true := by
  refine List.all_eq_true.2 fun n hn => ?_
  have := h n hn
  cases n with
  | integral | throughout => exact this.elim
  | _ => rfl

theorem Uses.mkQuant (h : t.Uses P Q B F) (q : Quantifier) (hv : B v) :
    (mkQuant q v t).Uses P Q B F := by
  unfold Term.mkQuant
  split
  · exact h
  · exact uses_quant.2 ⟨hv, h⟩

end Uses

/-! ## Replacement -/

section Replacement

variable {r : Replacement} {P P' Q Q' B : Var → Prop} {F F' : Term → Prop} {t u : Term}

theorem transform_eq_ok :
    t.transform r = .ok u ↔ ∃ t', t.transform? r = .ok t' ∧ t'.getD t = u := by
  rw [transform]
  cases t.transform? r with
  | error e => simp [bind, Except.bind]
  | ok t' => simp [bind, Except.bind, pure, Except.pure]

theorem getD_changedVar (v : Var) (u : Option Term) :
    (changedVar v u).getD (var v) = u.getD (var v) := by
  unfold changedVar
  split
  · next w =>
    split
    · next h => rw [h]; rfl
    · rfl
  · rfl

theorem getD_changedNext (v : Var) (u : Option Term) :
    (changedNext v u).getD (next v) = u.getD (next v) := by
  unfold changedNext
  split
  · next w =>
    split
    · next h => rw [h]; rfl
    · rfl
  · rfl

theorem forall_transformAll? {as : List Term} {us : Option (List Term)}
    (h : ∀ a ∈ as, ∀ u, a.transform r = .ok u → H u) (hu : transformAll? r as = .ok us) :
    ∀ u ∈ us.getD as, H u := by
  induction as generalizing us with
  | nil =>
    cases hu
    simp
  | cons a as ih =>
    rw [transformAll?] at hu
    obtain ⟨a', ha', hu⟩ := Attempt.bind_eq_ok.1 hu
    obtain ⟨as', has', hu⟩ := Attempt.bind_eq_ok.1 hu
    have first := h a (by simp) _ (transform_eq_ok.2 ⟨a', ha', rfl⟩)
    have later := ih (fun b hb => h b (by simp [hb])) has'
    have both : ∀ u ∈ a'.getD a :: as'.getD as, H u := List.forall_mem_cons.2 ⟨first, later⟩
    cases a' <;> cases as' <;> cases hu <;> exact both

/-- A node whose operands are transformed to terms with a property that is kept has it itself, if
that is so of the node as it was. -/
theorem Kept.transform (hH : Kept H) {o : Operator} (ho : t.operator? = some o)
    (unchanged : (∀ a ∈ t.operands, H a) → H t)
    (h : ∀ a ∈ t.operands, ∀ u, a.transform r = .ok u → H u) (hu : t.transform r = .ok u) :
    H u := by
  obtain ⟨t', ht', rfl⟩ := transform_eq_ok.1 hu
  rw [transform?_operator r ho] at ht'
  obtain ⟨us, hus, ht'⟩ := Attempt.bind_eq_ok.1 ht'
  have kept := forall_transformAll? h hus
  cases us with
  | none =>
    cases ht'
    exact unchanged kept
  | some us =>
    obtain ⟨u, built, rfl⟩ := Attempt.map_eq_ok.1 ht'
    exact hH o us u kept built

/-- A node has every hereditary property that all its transformed operands have. -/
theorem Hereditary.transform (hH : Hereditary H) {o : Operator} (ho : t.operator? = some o)
    (h : ∀ a ∈ t.operands, ∀ u, a.transform r = .ok u → H u) (hu : t.transform r = .ok u) :
    H u :=
  hH.kept.transform ho (hH t o ho).2 h hu

/-- What operators and quantifiers inherit, a replacement makes of a term if it makes it of the
variables, references and flow primitives. -/
theorem Uses.transform_keeps (hH : Hereditary H)
    (quant : ∀ q v body, B v → H body → H (quant q v body))
    (now : ∀ v, P v → H ((r.onVar v).getD (var v)))
    (next : ∀ v, Q v → H ((r.onNext v).getD (next v)))
    (flow : ∀ a, F a → ∀ u, a.transform r = .ok u → H u)
    (stops : ∀ q v body, r.stopsAt v = true → (Term.quant q v body).Uses P Q B F →
      H (.quant q v body))
    (h : t.Uses P Q B F) (hu : t.transform r = .ok u) : H u := by
  induction t using induct generalizing u with
  | operator t o ho ih =>
    exact hH.transform ho (fun a ha _ hu => ih a ha ((hereditary_uses t o ho).1 h a ha) hu) hu
  | var v =>
    obtain ⟨t', ht', rfl⟩ := transform_eq_ok.1 hu
    rw [transform?] at ht'
    cases ht'
    rw [getD_changedVar]
    exact now v (uses_var.1 h)
  | next v =>
    obtain ⟨t', ht', rfl⟩ := transform_eq_ok.1 hu
    rw [transform?] at ht'
    cases ht'
    rw [getD_changedNext]
    exact next v (uses_next.1 h)
  | quant q v body ih =>
    obtain ⟨t', ht', rfl⟩ := transform_eq_ok.1 hu
    rw [transform?] at ht'
    split at ht'
    · next hv =>
      cases ht'
      exact stops q v body hv h
    · obtain ⟨body', hbody, ht'⟩ := Attempt.bind_eq_ok.1 ht'
      obtain ⟨hv, h⟩ := uses_quant.1 h
      have kept := ih h (transform_eq_ok.2 ⟨body', hbody, rfl⟩)
      cases body' with
      | none =>
        cases ht'
        exact quant q v _ hv kept
      | some body' =>
        cases ht'
        rw [Option.getD_some, Term.mkQuant]
        split
        · exact kept
        · exact quant q v _ hv kept
  | integral seg => exact flow _ (h _ (self_mem_subterms _)) u hu
  | throughout seg body => exact flow _ (h _ (self_mem_subterms _)) u hu

/-- A replacement makes of a term what it makes of its variables, references and flow primitives. -/
theorem Uses.transform
    (now : ∀ v, P v → ((r.onVar v).getD (var v)).Uses P' Q' B F')
    (next : ∀ v, Q v → ((r.onNext v).getD (next v)).Uses P' Q' B F')
    (flow : ∀ a, F a → ∀ u, a.transform r = .ok u → u.Uses P' Q' B F')
    (stops : ∀ v, r.stopsAt v = true → ∀ a : Term, a.Uses P Q B F → a.Uses P' Q' B F')
    (h : t.Uses P Q B F) (hu : t.transform r = .ok u) : u.Uses P' Q' B F' :=
  Uses.transform_keeps hereditary_uses (fun _ _ _ hv h => uses_quant.2 ⟨hv, h⟩) now next flow
    (fun _ v _ hv => stops v hv _) h hu

theorem Uses.substitute {s : Subst} (h : t.Uses P Q B noPrimitive)
    (now : ∀ v, P v →
      ((if v.role = .logical then s.get? v.name else none).getD (var v)).Uses P' Q' B noPrimitive)
    (next : ∀ v, Q v → Q' v) (hu : t.substitute s = .ok u) : u.Uses P' Q' B noPrimitive := by
  rw [Term.substitute] at hu
  split at hu
  · next hs =>
    obtain rfl : s = [] := by simpa using hs
    cases hu
    exact h.mono (fun v hv => by simpa using now v hv) next fun _ hf => hf.elim
  · refine Uses.transform now (fun v hv => ?_) (fun _ hf => hf.elim) (fun v hv => ?_) h hu
    · exact uses_next.2 (next v hv)
    · cases hv

theorem Uses.substituteNext {s : Subst} (h : t.Uses P Q B noPrimitive)
    (next : ∀ v, Q v → ((s.get? v.name).getD (next v)).Uses P Q' B noPrimitive)
    (hu : t.substituteNext s = .ok u) : u.Uses P Q' B noPrimitive := by
  rw [Term.substituteNext] at hu
  split at hu
  · next hs =>
    obtain rfl : s = [] := by simpa using hs
    cases hu
    exact h.mono (fun _ hv => hv) (fun v hv => uses_next.1 (next v hv)) fun _ hf => hf
  · refine Uses.transform (fun v hv => ?_) next (fun _ hf => hf.elim) (fun v hv => ?_) h hu
    · exact uses_var.2 hv
    · cases hv

theorem Uses.replace {c : Var} {d : Term} (h : t.Uses P Q B noPrimitive)
    (hd : d.Uses P Q B noPrimitive) (hu : t.replace c d = .ok u) : u.Uses P Q B noPrimitive := by
  refine Uses.transform (fun v hv => ?_) (fun v hv => ?_) (fun _ hf => hf.elim)
    (fun _ _ _ h => h) h hu
  · by_cases hvc : v = c
    · simpa [hvc] using hd
    · simpa [hvc] using hv
  · exact uses_next.2 hv

end Replacement

end Term

end HybridCheck
