import HybridCheck.Proofs.Dependence
import HybridCheck.Proofs.Resolution
import HybridCheck.Proofs.Support

/-!
# The folded form of terms

The folding operations look at the root of their operands only, and a replacement keeps a node as it
is when nothing below it changed. Still no operand is left that an operation would have folded: a
nested conjunction that is flattened brings in operands that are themselves no constants and no
conjunctions, a negation that cancels uncovers a term that is no negation, and an operand that is
left alone was folded before. So a term that is obtained with the operations, whatever is put into
it and however its flow primitives are expanded, is folded at each of its nodes. There is nothing
more to say about such terms: every folded term can be obtained.
-/

namespace HybridCheck

namespace Term

variable {t u a b : Term} {as rest : List Term}

def isLiteral (t : Term) : Bool := t.truth?.isSome

/-- A node is one that the folding operations leave: none of its operands should have been folded
into it. -/
def Settled : Term → Prop
  | not a => a.isLiteral = false ∧ ∀ b, a ≠ not b
  | neg a => a.isLiteral = false ∧ ∀ b, a ≠ neg b
  | and as => 2 ≤ as.length ∧ ∀ a ∈ as, a.isLiteral = false ∧ ∀ bs, a ≠ and bs
  | or as => 2 ≤ as.length ∧ ∀ a ∈ as, a.isLiteral = false ∧ ∀ bs, a ≠ or bs
  | implies a b => a.isLiteral = false ∧ b.isLiteral = false
  | ite c _ _ => c.isLiteral = false
  | cmp _ a b => ¬(a.isLiteral = true ∧ b.isLiteral = true)
  | add s as => 2 ≤ as.length ∧ (s = .int → ∀ a ∈ as, a.sort ≠ .real) ∧
      ∃ rest : List Term, (∀ a ∈ rest, a.isLiteral = false) ∧
        (as = rest ∨ ∃ q : Rat, q ≠ 0 ∧ as = rest ++ [num s q])
  | mul s as => 2 ≤ as.length ∧ (s = .int → ∀ a ∈ as, a.sort ≠ .real) ∧
      ∃ rest : List Term, (∀ a ∈ rest, a.isLiteral = false) ∧
        (as = rest ∨ ∃ q : Rat, q ≠ 0 ∧ q ≠ 1 ∧ as = num s q :: rest)
  | sub a b => (∀ c, b ≠ bool c) ∧ (∀ s, b ≠ num s 0) ∧
      ¬(a.isLiteral = true ∧ b.isLiteral = true)
  | div a b => (∀ c, b ≠ bool c) ∧
      ∀ s q, b = num s q → q ≠ 0 → a.isLiteral = false ∧ (q = 1 → a.sort ≠ .real)
  | quant _ _ body => body.isLiteral = false
  | var _ | bool _ | num .. | next _ | integral _ | throughout .. => True

/-- The terms that a term is made of. Of a flow primitive the rates and solutions of its flow and
its body are among them. -/
def components : Term → List Term
  | quant _ _ body => [body]
  | integral seg => seg.parts ++ seg.flow.terms
  | throughout seg body => body :: (seg.parts ++ seg.flow.terms)
  | t => t.operands

theorem components_operator {o : Operator} (ho : t.operator? = some o) :
    t.components = t.operands := by
  cases t <;> cases ho <;> rfl

inductive Folded : Term → Prop where
  | node {t : Term} : t.Settled → (∀ a ∈ t.components, Folded a) → Folded t

/-- A term is obtained from variables and references after a jump by the folding operations, by flow
primitives over terms that are obtained so, by putting such terms into one another, and by expanding
flow primitives. Constants are operations without operands. -/
inductive Obtainable : Term → Prop where
  | var (v : Var) : Obtainable (var v)
  | next (v : Var) : Obtainable (next v)
  | operator {o : Operator} {as : List Term} {u : Term} :
      (∀ a ∈ as, Obtainable a) → o.build as = .ok u → Obtainable u
  | quant (q : Quantifier) (v : Var) {body : Term} : Obtainable body → Obtainable (mkQuant q v body)
  | flow {t : Term} : t.isFlow = true → (∀ a ∈ t.components, Obtainable a) → Obtainable t
  | substitute {t u : Term} {s : Subst} :
      Obtainable t → (∀ e ∈ s, Obtainable e.2) → t.substitute s = .ok u → Obtainable u
  | substituteNext {t u : Term} {s : Subst} :
      Obtainable t → (∀ e ∈ s, Obtainable e.2) → t.substituteNext s = .ok u → Obtainable u
  | replace {t u d : Term} {v : Var} :
      Obtainable t → Obtainable d → t.replace v d = .ok u → Obtainable u
  | expand {t u : Term} : Obtainable t → t.expand = .ok u → Obtainable u

/-! ## Folded terms -/

theorem Folded.settled (h : t.Folded) : t.Settled := by
  cases h with
  | node settled _ => exact settled

theorem Folded.component (h : t.Folded) (ha : a ∈ t.components) : a.Folded := by
  cases h with
  | node _ components => exact components a ha

theorem Folded.operand (h : t.Folded) {o : Operator} (ho : t.operator? = some o)
    (ha : a ∈ t.operands) : a.Folded :=
  h.component (components_operator ho ▸ ha)

/-- An operator over folded operands is folded if it is settled. -/
theorem Folded.of_operator {o : Operator} (ho : t.operator? = some o) (settled : t.Settled)
    (h : ∀ a ∈ t.operands, a.Folded) : t.Folded :=
  .node settled (components_operator ho ▸ h)

theorem folded_var (v : Var) : (var v).Folded := .node trivial (by simp [components, operands])

theorem folded_next (v : Var) : (next v).Folded := .node trivial (by simp [components, operands])

theorem folded_bool (b : Bool) : (bool b).Folded := .node trivial (by simp [components, operands])

theorem folded_num (s : NumSort) (q : Rat) : (num s q).Folded :=
  .node trivial (by simp [components, operands])

theorem Folded.of_isLiteral (h : t.isLiteral = true) : t.Folded := by
  cases t with
  | bool b => exact folded_bool b
  | num s q => exact folded_num s q
  | _ => cases h

/-! ## Folding -/

theorem not_isLiteral : a.isLiteral = false ↔ a.truth? = none := by
  rw [isLiteral, Option.isSome_eq_false_iff, Option.isNone_iff_eq_none]

/-- The numbers are split off, and so no constant is left. -/
theorem not_isLiteral_of_splitNumbers {qs : List Rat} (h : splitNumbers as = .ok (qs, rest)) :
    ∀ a ∈ rest, a.isLiteral = false := by
  induction as generalizing qs rest with
  | nil =>
    cases h
    simp
  | cons a as ih =>
    cases a with
    | bool => cases h
    | num s q =>
      obtain ⟨⟨qs', rest'⟩, hs, h⟩ := Attempt.bind_eq_ok.1 h
      cases h
      exact ih hs
    | _ =>
      obtain ⟨⟨qs', rest'⟩, hs, h⟩ := Attempt.bind_eq_ok.1 h
      cases h
      exact List.forall_mem_cons.2 ⟨rfl, ih hs⟩

/-- A single operand is the result, and several operands are put under a node. -/
theorem eq_of_gather {node : List Term → Term} {us : List Term}
    (h : (match us with | [a] => return a | us => return node us : Attempt Term) = .ok u)
    (nonempty : us ≠ []) : us = [u] ∨ 2 ≤ us.length ∧ u = node us := by
  match us with
  | [] => exact absurd rfl nonempty
  | [a] =>
    cases h
    exact Or.inl rfl
  | a :: b :: us =>
    cases h
    exact Or.inr ⟨by simp, rfl⟩

/-- A sum is a constant, an operand that is none, or several operands that are none with at most one
constant behind them, which is not zero. -/
theorem exists_of_mkAdd (hu : mkAdd as = .ok u) : ∃ qs rest, splitNumbers as = .ok (qs, rest) ∧
    (u.isLiteral = true ∨ u ∈ rest ∨ ∃ us, u = add (arithSort as) us ∧ 2 ≤ us.length ∧
      (us = rest ∨ ∃ q : Rat, q ≠ 0 ∧ us = rest ++ [num (arithSort as) q])) := by
  obtain ⟨⟨qs, rest⟩, hs, hu⟩ := Attempt.bind_eq_ok.1 hu
  refine ⟨qs, rest, hs, ?_⟩
  dsimp only at hu
  generalize arithSort as = s, qs.foldr (· + ·) 0 = sum at hu
  by_cases constant : sum ≠ 0 ∨ rest.isEmpty
  · rw [if_pos constant] at hu
    rcases eq_of_gather hu (by simp) with single | ⟨several, rfl⟩
    · obtain ⟨-, rfl⟩ : rest = [] ∧ num s sum = u := by
        simpa [List.append_eq_singleton_iff] using single
      exact Or.inl rfl
    · have nonzero : sum ≠ 0 := constant.resolve_right fun empty => by
        simp [List.isEmpty_iff.1 empty] at several
      exact Or.inr (Or.inr ⟨_, rfl, several, Or.inr ⟨sum, nonzero, rfl⟩⟩)
  · rw [if_neg constant] at hu
    have nonempty : rest ≠ [] := fun empty => constant (Or.inr (List.isEmpty_iff.2 empty))
    rcases eq_of_gather hu nonempty with rfl | ⟨several, rfl⟩
    · exact Or.inr (Or.inl (by simp))
    · exact Or.inr (Or.inr ⟨_, rfl, several, Or.inl rfl⟩)

/-- A product is a constant, an operand that is none, or several operands that are none with at most
one constant before them, which is neither zero nor one. -/
theorem exists_of_mkMul (hu : mkMul as = .ok u) : ∃ qs rest, splitNumbers as = .ok (qs, rest) ∧
    (u.isLiteral = true ∨ u ∈ rest ∨ ∃ us, u = mul (arithSort as) us ∧ 2 ≤ us.length ∧
      (us = rest ∨ ∃ q : Rat, q ≠ 0 ∧ q ≠ 1 ∧ us = num (arithSort as) q :: rest)) := by
  obtain ⟨⟨qs, rest⟩, hs, hu⟩ := Attempt.bind_eq_ok.1 hu
  refine ⟨qs, rest, hs, ?_⟩
  dsimp only at hu
  generalize arithSort as = s, qs.foldr (· * ·) 1 = product at hu
  split at hu
  · cases hu
    exact Or.inl rfl
  · next nonzero =>
    by_cases constant : product ≠ 1 ∨ rest.isEmpty
    · rw [if_pos constant] at hu
      rcases eq_of_gather hu (by simp) with single | ⟨several, rfl⟩
      · obtain ⟨rfl, -⟩ : num s product = u ∧ rest = [] := by simpa using single
        exact Or.inl rfl
      · have proper : product ≠ 1 := constant.resolve_right fun empty => by
          simp [List.isEmpty_iff.1 empty] at several
        exact Or.inr (Or.inr ⟨_, rfl, several, Or.inr ⟨product, nonzero, proper, rfl⟩⟩)
    · rw [if_neg constant] at hu
      have nonempty : rest ≠ [] := fun empty => constant (Or.inr (List.isEmpty_iff.2 empty))
      rcases eq_of_gather hu nonempty with rfl | ⟨several, rfl⟩
      · exact Or.inr (Or.inl (by simp))
      · exact Or.inr (Or.inr ⟨_, rfl, several, Or.inl rfl⟩)

/-- The operands that are left of a sum or a product, and a constant of its sort, are folded, and
none of them is real if it is not. -/
theorem folded_gathered (h : ∀ a ∈ as, a.Folded) (us : List Term)
    (given : ∀ a ∈ us, a ∈ as ∨ ∃ q, a = num (arithSort as) q) :
    (∀ a ∈ us, a.Folded) ∧ (arithSort as = .int → ∀ a ∈ us, a.sort ≠ .real) := by
  constructor
  · intro a ha
    obtain ha | ⟨q, rfl⟩ := given a ha
    · exact h a ha
    · exact folded_num _ q
  · intro int a ha real
    obtain ha | ⟨q, rfl⟩ := given a ha
    · cases int.symm.trans (arithSort_eq_real.2 ⟨a, ha, real⟩)
    · rw [int] at real
      cases real

theorem Folded.mkAdd (h : ∀ a ∈ as, a.Folded) (hu : mkAdd as = .ok u) : u.Folded := by
  obtain ⟨qs, rest, hs, constant | old | ⟨us, rfl, several, shape⟩⟩ := exists_of_mkAdd hu
  · exact .of_isLiteral constant
  · exact h u (mem_of_splitNumbers hs u old)
  · obtain ⟨folded, integers⟩ := folded_gathered h us fun a ha => by
      rcases shape with rfl | ⟨q, -, rfl⟩
      · exact Or.inl (mem_of_splitNumbers hs a ha)
      · obtain ha | ha := List.mem_append.1 ha
        · exact Or.inl (mem_of_splitNumbers hs a ha)
        · exact Or.inr ⟨q, List.mem_singleton.1 ha⟩
    exact .node ⟨several, integers, rest, not_isLiteral_of_splitNumbers hs, shape⟩ folded

theorem Folded.mkMul (h : ∀ a ∈ as, a.Folded) (hu : mkMul as = .ok u) : u.Folded := by
  obtain ⟨qs, rest, hs, constant | old | ⟨us, rfl, several, shape⟩⟩ := exists_of_mkMul hu
  · exact .of_isLiteral constant
  · exact h u (mem_of_splitNumbers hs u old)
  · obtain ⟨folded, integers⟩ := folded_gathered h us fun a ha => by
      rcases shape with rfl | ⟨q, -, -, rfl⟩
      · exact Or.inl (mem_of_splitNumbers hs a ha)
      · obtain rfl | ha := List.mem_cons.1 ha
        · exact Or.inr ⟨q, rfl⟩
        · exact Or.inl (mem_of_splitNumbers hs a ha)
    exact .node ⟨several, integers, rest, not_isLiteral_of_splitNumbers hs, shape⟩ folded

theorem not_isLiteral_of_ne (hb : ∀ b, a ≠ .bool b) (hn : ∀ s q, a ≠ num s q) :
    a.isLiteral = false := by
  cases a with
  | bool b => exact absurd rfl (hb b)
  | num s q => exact absurd rfl (hn s q)
  | _ => rfl

theorem Folded.mkSub (ha : a.Folded) (hb : b.Folded) (hu : mkSub a b = .ok u) : u.Folded := by
  have plain (h : (sub a b).Settled) : (sub a b).Folded :=
    .of_operator (o := .sub) rfl h (by simpa [operands] using ⟨ha, hb⟩)
  unfold Term.mkSub at hu
  split at hu
  · cases hu
  · next s y =>
    split at hu
    · cases hu
      exact ha
    · next nonzero =>
      split at hu
      · cases hu
      · cases hu
        exact folded_num _ _
      · next notBool notNum =>
        cases hu
        refine plain ⟨by simp, fun s' zero => nonzero ?_, fun both => ?_⟩
        · cases zero
          rfl
        · simp [not_isLiteral_of_ne notBool notNum] at both
  · next notBool notNum =>
    cases hu
    refine plain ⟨notBool, fun s => notNum s 0, fun both => ?_⟩
    simp [not_isLiteral_of_ne notBool notNum] at both

theorem Folded.mkDiv (ha : a.Folded) (hb : b.Folded) (hu : mkDiv a b = .ok u) : u.Folded := by
  have plain (h : (div a b).Settled) : (div a b).Folded :=
    .of_operator (o := .div) rfl h (by simpa [operands] using ⟨ha, hb⟩)
  unfold Term.mkDiv at hu
  split at hu
  · cases hu
  · next s y =>
    split at hu
    · next zero =>
      cases hu
      refine plain ⟨by simp, fun s' q same nonzero => absurd ?_ nonzero⟩
      cases same
      exact zero
    · split at hu
      · cases hu
      · cases hu
        exact folded_num _ _
      · next notBool notNum =>
        split at hu
        · cases hu
          exact ha
        · next proper =>
          cases hu
          refine plain ⟨by simp, fun s' q same _ => ⟨not_isLiteral_of_ne notBool notNum, ?_⟩⟩
          cases same
          exact not_and.1 proper
  · next notBool notNum =>
    cases hu
    exact plain ⟨notBool, fun s q same => absurd same (notNum s q)⟩

theorem Folded.mkNeg (ha : a.Folded) (hu : mkNeg a = .ok u) : u.Folded := by
  unfold Term.mkNeg at hu
  split at hu
  · cases hu
  · cases hu
    exact folded_num _ _
  · cases hu
    exact ha.operand (o := .neg) rfl (by simp [operands])
  · next notBool notNum notNeg =>
    cases hu
    exact .of_operator (o := .neg) rfl ⟨not_isLiteral_of_ne notBool notNum, notNeg⟩
      (by simpa [operands] using ha)

theorem Folded.mkNot (ha : a.Folded) : a.mkNot.Folded := by
  unfold Term.mkNot
  split
  · exact folded_bool _
  · exact folded_bool _
  · exact ha.operand (o := .not) rfl (by simp [operands])
  · next notBool notNum notNot =>
    exact .of_operator (o := .not) rfl ⟨not_isLiteral_of_ne notBool notNum, notNot⟩
      (by simpa [operands] using ha)

theorem conjuncts?_eq_some : conjuncts? a = some as ↔ a = and as := by
  cases a <;> simp [conjuncts?]

theorem disjuncts?_eq_some : disjuncts? a = some as ↔ a = or as := by
  cases a <;> simp [disjuncts?]

/-- Collected operands are folded, and they are neither constants nor nested nodes. Those of a
nested node are not because it is settled. -/
theorem folded_of_collect (node : List Term → Term) {absorbing : Bool}
    {spread : Term → Option (List Term)}
    (nested : ∀ a inner, spread a = some inner ↔ a = node inner)
    (components : ∀ us, (node us).components = us)
    (settled : ∀ us, (node us).Settled ↔
      2 ≤ us.length ∧ ∀ a ∈ us, a.isLiteral = false ∧ ∀ bs, a ≠ node bs)
    (h : ∀ a ∈ as, a.Folded) (hr : collect absorbing spread as = some rest) :
    ∀ a ∈ rest, a.Folded ∧ a.isLiteral = false ∧ ∀ bs, a ≠ node bs := by
  refine forall_of_collect (fun a inner hi ha b hb => ?_) (fun a constant hi ha => ?_) h hr
  · obtain rfl := (nested a inner).1 hi
    exact ⟨ha.component (by rwa [components]), ((settled inner).1 ha.settled).2 b hb⟩
  · refine ⟨ha, not_isLiteral.2 constant, fun bs hbs => ?_⟩
    rw [(nested a bs).2 hbs] at hi
    cases hi

theorem two_le_length (nonempty : as ≠ []) (several : ∀ a, as ≠ [a]) : 2 ≤ as.length := by
  match as with
  | [] => exact absurd rfl nonempty
  | [a] => exact absurd rfl (several a)
  | _ :: _ :: _ => simp

theorem Folded.mkAnd (h : ∀ a ∈ as, a.Folded) : (mkAnd as).Folded := by
  have kept {rest : List Term} (hr : collect false conjuncts? as = some rest) :=
    folded_of_collect and (fun _ _ => conjuncts?_eq_some) (fun _ => rfl) (fun _ => Iff.rfl) h hr
  unfold Term.mkAnd
  split
  · exact folded_bool _
  · exact folded_bool _
  · next a hr => exact (kept hr a (by simp)).1
  · next us empty single hr =>
    exact .node ⟨two_le_length empty single, fun a ha => (kept hr a ha).2⟩
      fun a ha => (kept hr a ha).1

theorem Folded.mkOr (h : ∀ a ∈ as, a.Folded) : (mkOr as).Folded := by
  have kept {rest : List Term} (hr : collect true disjuncts? as = some rest) :=
    folded_of_collect or (fun _ _ => disjuncts?_eq_some) (fun _ => rfl) (fun _ => Iff.rfl) h hr
  unfold Term.mkOr
  split
  · exact folded_bool _
  · exact folded_bool _
  · next a hr => exact (kept hr a (by simp)).1
  · next us empty single hr =>
    exact .node ⟨two_le_length empty single, fun a ha => (kept hr a ha).2⟩
      fun a ha => (kept hr a ha).1

theorem Folded.mkImplies (ha : a.Folded) (hb : b.Folded) : (mkImplies a b).Folded := by
  unfold Term.mkImplies
  split
  · exact hb
  · exact folded_bool _
  · next left =>
    split
    · exact folded_bool _
    · exact ha.mkNot
    · next right =>
      exact .of_operator (o := .implies) rfl ⟨not_isLiteral.2 left, not_isLiteral.2 right⟩
        (by simpa [operands] using ⟨ha, hb⟩)

theorem Folded.mkIte {c : Term} (hc : c.Folded) (ha : a.Folded) (hb : b.Folded) :
    (mkIte c a b).Folded := by
  unfold Term.mkIte
  split
  · exact ha
  · exact hb
  · next condition =>
    exact .of_operator (o := .ite) rfl (not_isLiteral.2 condition)
      (by simpa [operands] using ⟨hc, ha, hb⟩)

theorem Folded.mkCmp (r : Relation) (ha : a.Folded) (hb : b.Folded) : (mkCmp r a b).Folded := by
  unfold Term.mkCmp
  split
  · exact folded_bool _
  · split
    · exact folded_bool _
    · next apart =>
      refine .of_operator (o := .cmp r) rfl (fun both => ?_) (by simpa [operands] using ⟨ha, hb⟩)
      obtain ⟨⟨x, hx⟩, y, hy⟩ := both.imp Option.isSome_iff_exists.1 Option.isSome_iff_exists.1
      exact apart x y hx hy

theorem Folded.mkQuant (q : Quantifier) (v : Var) (h : t.Folded) : (mkQuant q v t).Folded := by
  unfold Term.mkQuant
  split
  · exact h
  · next body => exact .node (not_isLiteral.2 body) (by simpa [components] using h)

/-- Every folding operation makes a folded term of folded operands. -/
theorem kept_folded : Kept Folded := by
  intro o as u h hu
  cases o with
  | bool b =>
    cases hu
    exact folded_bool b
  | num s q =>
    cases hu
    exact folded_num s q
  | and =>
    cases hu
    exact .mkAnd h
  | or =>
    cases hu
    exact .mkOr h
  | add => exact .mkAdd h hu
  | mul => exact .mkMul h hu
  | not =>
    rcases as with _ | ⟨a, _ | ⟨b, as⟩⟩ <;> cases hu
    exact (h a (by simp)).mkNot
  | neg =>
    rcases as with _ | ⟨a, _ | ⟨b, as⟩⟩
    case cons.nil => exact (h a (by simp)).mkNeg hu
    all_goals cases hu
  | implies =>
    rcases as with _ | ⟨a, _ | ⟨b, _ | ⟨c, as⟩⟩⟩ <;> cases hu
    exact (h a (by simp)).mkImplies (h b (by simp))
  | cmp r =>
    rcases as with _ | ⟨a, _ | ⟨b, _ | ⟨c, as⟩⟩⟩ <;> cases hu
    exact (h a (by simp)).mkCmp r (h b (by simp))
  | sub =>
    rcases as with _ | ⟨a, _ | ⟨b, _ | ⟨c, as⟩⟩⟩
    case cons.cons.nil => exact (h a (by simp)).mkSub (h b (by simp)) hu
    all_goals cases hu
  | div =>
    rcases as with _ | ⟨a, _ | ⟨b, _ | ⟨c, as⟩⟩⟩
    case cons.cons.nil => exact (h a (by simp)).mkDiv (h b (by simp)) hu
    all_goals cases hu
  | ite =>
    rcases as with _ | ⟨c, _ | ⟨a, _ | ⟨b, _ | ⟨d, as⟩⟩⟩⟩ <;> cases hu
    exact (h c (by simp)).mkIte (h a (by simp)) (h b (by simp))

/-! ## Replacement -/

section Replacement

variable {r : Replacement} {H : Term → Prop}

theorem forall_transformTable {es es' : List (String × Term)}
    (h : ∀ e ∈ es, ∀ u, e.2.transform r = .ok u → H u) (hu : transformTable r es = .ok es') :
    ∀ e ∈ es', H e.2 := by
  induction es generalizing es' with
  | nil =>
    cases hu
    simp
  | cons e es ih =>
    obtain ⟨k, a⟩ := e
    rw [transformTable] at hu
    obtain ⟨a', ha', hu⟩ := Attempt.bind_eq_ok.1 hu
    obtain ⟨rest, hrest, hu⟩ := Attempt.bind_eq_ok.1 hu
    cases hu
    have first := h (k, a) (by simp) _ (transform_eq_ok.2 ⟨a', ha', rfl⟩)
    exact List.forall_mem_cons.2 ⟨first, ih (fun e he => h e (by simp [he])) hrest⟩

/-- A flow primitive that is not replaced keeps its flow and its body. -/
theorem exists_of_transform_flow (hr : r.onSegment = none) {seg : Segment}
    (h : ∀ a ∈ seg.parts, ∀ u, a.transform r = .ok u → H u) :
    (∀ u, (integral seg).transform r = .ok u → ∃ seg' : Segment,
      u = integral seg' ∧ seg'.flow = seg.flow ∧ ∀ a ∈ seg'.parts, H a) ∧
    ∀ body u, (throughout seg body).transform r = .ok u → ∃ seg' : Segment,
      u = throughout seg' body ∧ seg'.flow = seg.flow ∧ ∀ a ∈ seg'.parts, H a := by
  obtain ⟨⟨clock, rates, solution⟩, time, entry, exit, mode, ends⟩ := seg
  have values {es es' : List (String × Term)} (hes : ∀ e ∈ es, e ∈ entry ∨ e ∈ exit ∨ e ∈ mode)
      (hu : transformTable r es = .ok es') : ∀ e ∈ es', H e.2 :=
    forall_transformTable (fun e he => h e.2 (SegmentOf.mem_parts (hes e he))) hu
  refine ⟨fun u hu => ?_, fun body u hu => ?_⟩ <;>
  · obtain ⟨t', ht', rfl⟩ := transform_eq_ok.1 hu
    rw [transform?, hr] at ht'
    obtain ⟨time', htime, ht'⟩ := Attempt.bind_eq_ok.1 ht'
    obtain ⟨entry', hentry, ht'⟩ := Attempt.bind_eq_ok.1 ht'
    obtain ⟨exit', hexit, ht'⟩ := Attempt.bind_eq_ok.1 ht'
    obtain ⟨mode', hmode, ht'⟩ := Attempt.bind_eq_ok.1 ht'
    cases ht'
    refine ⟨_, rfl, rfl, ?_⟩
    have duration := h time (List.mem_cons_self ..) _ (transform_eq_ok.2 ⟨time', htime, rfl⟩)
    have entries := values (fun e he => Or.inl he) hentry
    have exits := values (fun e he => Or.inr (Or.inl he)) hexit
    have modes := values (fun e he => Or.inr (Or.inr he)) hmode
    simp only [SegmentOf.parts, List.map_append, List.forall_mem_cons, List.forall_mem_append,
      List.forall_mem_map]
    exact ⟨duration, ⟨entries, exits⟩, modes⟩

/-- A replacement makes a folded term of a folded term if what it puts in is folded. -/
theorem Folded.transform (now : ∀ v, ((r.onVar v).getD (var v)).Folded)
    (next : ∀ v, ((r.onNext v).getD (Term.next v)).Folded)
    (flow : r.onSegment ≠ none → ∀ t u : Term, t.isFlow = true → t.Folded →
      t.transform r = .ok u → u.Folded)
    (h : t.Folded) (hu : t.transform r = .ok u) : u.Folded := by
  -- a node is rebuilt or kept as it is, so it is settled because of its operands or because it was
  induction h generalizing u with
  | @node t settled below ih =>
    have old : t.Folded := .node settled below
    cases ho : t.operator? with
    | some o =>
      rw [components_operator ho] at ih
      exact kept_folded.transform ho (fun _ => old) (fun a ha u hu => ih a ha hu) hu
    | none =>
      cases t with
      | var v =>
        obtain rfl := Except.ok.inj ((transform_var v).symm.trans hu)
        exact now v
      | next v =>
        obtain rfl := Except.ok.inj ((transform_next v).symm.trans hu)
        exact next v
      | quant q v body =>
        cases hv : r.stopsAt v with
        | true =>
          obtain rfl := Except.ok.inj ((transform_quant_of_stops hv).symm.trans hu)
          exact old
        | false =>
          obtain ⟨body', hbody, ⟨-, rfl⟩ | rfl⟩ := exists_of_transform_quant hv hu
          · exact old
          · exact (ih body (by simp [components]) hbody).mkQuant q v
      | integral seg =>
        by_cases hr : r.onSegment = none
        · have parts a (ha : a ∈ seg.parts) (u) (hu : a.transform r = .ok u) : u.Folded :=
            ih a (by simp [components, ha]) hu
          obtain ⟨seg', rfl, same, parts⟩ := (exists_of_transform_flow hr parts).1 u hu
          refine .node trivial (List.forall_mem_append.2 ⟨parts, fun a ha => ?_⟩)
          exact below a (List.mem_append_right _ (same ▸ ha))
        · exact flow hr _ u rfl old hu
      | throughout seg body =>
        by_cases hr : r.onSegment = none
        · have parts a (ha : a ∈ seg.parts) (u) (hu : a.transform r = .ok u) : u.Folded :=
            ih a (by simp [components, ha]) hu
          obtain ⟨seg', rfl, same, parts⟩ := (exists_of_transform_flow hr parts).2 body u hu
          refine .node trivial (List.forall_mem_cons.2 ⟨below body (List.mem_cons_self ..),
            List.forall_mem_append.2 ⟨parts, fun a ha => ?_⟩⟩)
          exact below a (List.mem_cons_of_mem _ (List.mem_append_right _ (same ▸ ha)))
        · exact flow hr _ u rfl old hu
      | _ => cases ho

end Replacement

theorem Folded.substitute {s : Subst} (h : t.Folded) (hs : ∀ e ∈ s, e.2.Folded)
    (hu : t.substitute s = .ok u) : u.Folded := by
  rw [Term.substitute] at hu
  split at hu
  · cases hu
    exact h
  · refine h.transform (fun v => ?_) (fun v => ?_) (fun hr => absurd rfl hr) hu
    · exact getD_ofSubst (fun _ => folded_var v) fun _ a ha => hs _ (Table.mem_of_get? ha)
    · exact folded_next v

theorem Folded.substituteNext {s : Subst} (h : t.Folded) (hs : ∀ e ∈ s, e.2.Folded)
    (hu : t.substituteNext s = .ok u) : u.Folded := by
  rw [Term.substituteNext] at hu
  split at hu
  · cases hu
    exact h
  · refine h.transform (fun v => ?_) (fun v => ?_) (fun hr => absurd rfl hr) hu
    · exact folded_var v
    · cases ha : s.get? v.name with
      | none => simpa [ha] using folded_next v
      | some a => simpa [ha] using hs _ (Table.mem_of_get? ha)

theorem Folded.replace {d : Term} {v : Var} (h : t.Folded) (hd : d.Folded)
    (hu : t.replace v d = .ok u) : u.Folded := by
  refine h.transform (fun w => ?_) (fun w => ?_) (fun hr => absurd rfl hr) hu
  · by_cases hw : w = v
    · simpa [hw] using hd
    · simpa [hw] using folded_var w
  · exact folded_next w

/-! ## Expansion -/

section Expansion

variable {seg : Segment} (h : ∀ a ∈ seg.parts ++ seg.flow.terms, a.Folded)
include h

theorem folded_parts : ∀ a ∈ seg.parts, a.Folded :=
  fun a ha => h a (List.mem_append_left _ ha)

theorem folded_flow {e : String × Term} (he : e ∈ seg.flow.rates ∨ e ∈ seg.flow.solution) :
    e.2.Folded :=
  h e.2 (List.mem_append_right _ (SegmentOf.mem_terms he))

/-- Flowing for a duration turns the values of a segment into folded terms. -/
theorem advances_folded {d : Term} (hd : d.Folded) : SegmentOf.Advances Folded seg d := by
  have parts := folded_parts h
  have context : ∀ e ∈ seg.context, e.2.Folded := by
    intro e he
    rcases Table.mem_of_mem_putAll he with he | he
    · exact parts _ (SegmentOf.mem_parts (Or.inl he))
    · exact parts _ (SegmentOf.mem_parts (Or.inr (Or.inr he)))
  constructor
  · exact hd
  · exact fun e he => parts _ (SegmentOf.mem_parts (Or.inl he))
  · intro id sol a u hsol ha hu
    exact ((folded_flow h (Or.inr (Table.mem_of_get? hsol))).substitute context ha).replace hd hu
  · intro id rate a hrate ha
    exact (folded_flow h (Or.inl (Table.mem_of_get? hrate))).substitute context ha

theorem folded_expandIntegral (hu : expandIntegral seg = .ok u) : u.Folded := by
  have parts := folded_parts h
  apply (advances_folded h (parts _ (List.mem_cons_self ..))).expandIntegral kept_folded _ hu
  exact fun e he => parts _ (SegmentOf.mem_parts (Or.inr (Or.inl he)))

theorem folded_expandThroughout {body : Term} (hbody : body.Folded)
    (hu : expandThroughout seg body = .ok u) : u.Folded := by
  have parts := folded_parts h
  have time : seg.time.Folded := parts _ (List.mem_cons_self ..)
  have clock : (var seg.flow.clock).Folded := folded_var _
  have zero : Term.zero.Folded := folded_num _ _
  apply SegmentOf.forall_expandThroughout kept_folded time _ hu
  intro state now b hstate hnow hb
  have now : now.Folded := by
    apply hbody.substitute _ hnow
    intro e he
    rcases Table.mem_of_mem_putAll he with he | he
    · exact ((advances_folded h clock).after kept_folded hstate).2 e he
    · exact parts _ (SegmentOf.mem_parts (Or.inr (Or.inr he)))
  have instant : b.Folded :=
    now.substituteNext (fun e he => parts _ (SegmentOf.mem_parts (Or.inr (Or.inl he)))) hb
  refine ⟨fun _ => instant, fun d hd v hv => instant.replace hd hv, ?_⟩
  have within : (mkAnd [mkGe (var seg.flow.clock) Term.zero,
      mkLe (var seg.flow.clock) seg.time]).Folded :=
    .mkAnd (by simpa using ⟨clock.mkCmp .ge zero, clock.mkCmp .le time⟩)
  exact (within.mkImplies instant).mkQuant .all _

end Expansion

theorem Folded.expand (h : t.Folded) (hu : t.expand = .ok u) : u.Folded := by
  refine h.transform (fun v => ?_) (fun v => ?_) (fun _ t u ht h hu => ?_) (expand_eq_ok.1 hu)
  · exact folded_var v
  · exact folded_next v
  · cases t with
    | integral seg =>
      exact folded_expandIntegral (fun a ha => h.component ha) (transform_integral.1 hu)
    | throughout seg body =>
      exact folded_expandThroughout (fun a ha => h.component (List.mem_cons_of_mem _ ha))
        (h.component (List.mem_cons_self ..)) (transform_throughout.1 hu)
    | _ => cases ht

/-- Whatever is obtained stays folded. -/
theorem Obtainable.folded (h : t.Obtainable) : t.Folded := by
  induction h with
  | var v => exact folded_var v
  | next v => exact folded_next v
  | operator _ built ih => exact kept_folded _ _ _ ih built
  | quant q v _ ih => exact ih.mkQuant q v
  | @flow t ht _ ih =>
    refine .node ?_ ih
    cases t <;> cases ht <;> trivial
  | substitute _ _ hu ih values => exact ih.substitute values hu
  | substituteNext _ _ hu ih values => exact ih.substituteNext values hu
  | replace _ _ hu ih value => exact ih.replace value hu
  | expand _ hu ih => exact ih.expand hu

/-! ## Building folded terms -/

theorem splitNumbers_append (plain : ∀ a ∈ rest, a.isLiteral = false) {us others : List Term}
    {qs : List Rat} (hs : splitNumbers us = .ok (qs, others)) :
    splitNumbers (rest ++ us) = .ok (qs, rest ++ others) := by
  induction rest with
  | nil => exact hs
  | cons a rest ih =>
    obtain ⟨ha, later⟩ := List.forall_mem_cons.1 plain
    cases a with
    | bool | num => cases ha
    | _ => exact Attempt.bind_eq_ok.2 ⟨_, ih later, rfl⟩

theorem exists_cons_cons (several : 2 ≤ as.length) : ∃ a b rest, as = a :: b :: rest := by
  rcases as with _ | ⟨a, _ | ⟨b, rest⟩⟩
  · simp at several
  · simp at several
  · exact ⟨a, b, rest, rfl⟩

theorem gather_of_several {node : List Term → Term} {us : List Term} : 2 ≤ us.length →
    (match us with | [a] => return a | us => return node us : Attempt Term) = .ok (node us) := by
  intro several
  obtain ⟨a, b, rest, rfl⟩ := exists_cons_cons several
  rfl

/-- The sort of operands among which there is a number. -/
theorem arithSort_of_num {s : NumSort} {q : Rat} (among : num s q ∈ as)
    (integers : s = .int → ∀ a ∈ as, a.sort ≠ .real) : arithSort as = s := by
  cases s with
  | real => exact arithSort_eq_real.2 ⟨_, among, rfl⟩
  | int =>
    cases h : arithSort as with
    | int => rfl
    | real =>
      obtain ⟨a, ha, real⟩ := arithSort_eq_real.1 h
      exact absurd real (integers rfl a ha)

/-- A settled sum is made of its operands and a constant, which is zero if it does not show. -/
theorem exists_mkAdd_eq {s : NumSort} (h : (add s as).Settled) :
    ∃ us, (∀ a ∈ us, a ∈ as ∨ a.isLiteral = true) ∧ mkAdd us = .ok (add s as) := by
  obtain ⟨several, integers, rest, plain, shape⟩ := h
  obtain ⟨q, hq⟩ : ∃ q : Rat, (if q ≠ 0 ∨ rest.isEmpty then rest ++ [num s q] else rest) = as := by
    rcases shape with rfl | ⟨q, nonzero, rfl⟩
    · have nonempty : as.isEmpty = false := by cases as <;> simp at several ⊢
      exact ⟨0, by simp [nonempty]⟩
    · exact ⟨q, if_pos (Or.inl nonzero)⟩
  have given a (ha : a ∈ rest) : a ∈ as := by
    rcases shape with rfl | ⟨q, -, rfl⟩
    · exact ha
    · exact List.mem_append_left _ ha
  have sort : arithSort (rest ++ [num s q]) = s := by
    refine arithSort_of_num (q := q) (by simp) fun int a ha => ?_
    rcases List.mem_append.1 ha with ha | ha
    · exact integers int a (given a ha)
    · rw [List.mem_singleton.1 ha, int]
      nofun
  refine ⟨rest ++ [num s q], fun a ha => ?_, ?_⟩
  · rcases List.mem_append.1 ha with ha | ha
    · exact Or.inl (given a ha)
    · exact Or.inr (by rw [List.mem_singleton.1 ha]; rfl)
  · have split : splitNumbers (rest ++ [num s q]) = .ok ([q], rest ++ []) :=
      splitNumbers_append plain rfl
    simp only [mkAdd, sort, split, Attempt.bind_ok, List.append_nil, List.foldr_cons,
      List.foldr_nil, add_zero, hq]
    exact gather_of_several several

/-- A settled product is made of its operands and a constant, which is one if it does not show. -/
theorem exists_mkMul_eq {s : NumSort} (h : (mul s as).Settled) :
    ∃ us, (∀ a ∈ us, a ∈ as ∨ a.isLiteral = true) ∧ mkMul us = .ok (mul s as) := by
  obtain ⟨several, integers, rest, plain, shape⟩ := h
  obtain ⟨q, nonzero, hq⟩ : ∃ q : Rat, q ≠ 0 ∧
      (if q ≠ 1 ∨ rest.isEmpty then num s q :: rest else rest) = as := by
    rcases shape with rfl | ⟨q, nonzero, proper, rfl⟩
    · have nonempty : as.isEmpty = false := by cases as <;> simp at several ⊢
      exact ⟨1, one_ne_zero, by simp [nonempty]⟩
    · exact ⟨q, nonzero, if_pos (Or.inl proper)⟩
  have given a (ha : a ∈ rest) : a ∈ as := by
    rcases shape with rfl | ⟨q, -, -, rfl⟩
    · exact ha
    · exact List.mem_cons_of_mem _ ha
  have sort : arithSort (num s q :: rest) = s := by
    refine arithSort_of_num (q := q) (by simp) fun int a ha => ?_
    rcases List.mem_cons.1 ha with rfl | ha
    · rw [int]
      nofun
    · exact integers int a (given a ha)
  refine ⟨num s q :: rest, fun a ha => ?_, ?_⟩
  · rcases List.mem_cons.1 ha with rfl | ha
    · exact Or.inr rfl
    · exact Or.inl (given a ha)
  · have split : splitNumbers (num s q :: rest) = .ok ([q], rest) := by
      have others : splitNumbers (rest ++ []) = .ok ([], rest ++ []) :=
        splitNumbers_append plain rfl
      rw [List.append_nil] at others
      exact Attempt.bind_eq_ok.2 ⟨_, others, rfl⟩
    simp only [mkMul, sort, split, Attempt.bind_ok, List.foldr_cons, List.foldr_nil, mul_one, hq,
      if_neg nonzero]
    exact gather_of_several several

/-- Operands among which there is nothing to fold are collected as they are. -/
theorem collect_of_plain (node : List Term → Term) {absorbing : Bool}
    {spread : Term → Option (List Term)}
    (nested : ∀ a inner, spread a = some inner ↔ a = node inner)
    (h : ∀ a ∈ as, a.isLiteral = false ∧ ∀ bs, a ≠ node bs) :
    collect absorbing spread as = some as := by
  induction as with
  | nil => rfl
  | cons a as ih =>
    obtain ⟨⟨plain, single⟩, later⟩ := List.forall_mem_cons.1 h
    have own : spread a = none :=
      Option.eq_none_iff_forall_ne_some.2 fun bs hbs => single bs ((nested a bs).1 hbs)
    simp only [collect, not_isLiteral.1 plain, ih later, own]

theorem mkAnd_eq (h : (and as).Settled) : mkAnd as = and as := by
  obtain ⟨several, plain⟩ := h
  rw [mkAnd, collect_of_plain and (fun _ _ => conjuncts?_eq_some) plain]
  obtain ⟨a, b, rest, rfl⟩ := exists_cons_cons several
  rfl

theorem mkOr_eq (h : (or as).Settled) : mkOr as = or as := by
  obtain ⟨several, plain⟩ := h
  rw [mkOr, collect_of_plain or (fun _ _ => disjuncts?_eq_some) plain]
  obtain ⟨a, b, rest, rfl⟩ := exists_cons_cons several
  rfl

theorem mkNot_eq (h : (not a).Settled) : mkNot a = not a := by
  obtain ⟨plain, single⟩ := h
  cases a with
  | bool | num => cases plain
  | not b => exact absurd rfl (single b)
  | _ => rfl

theorem mkNeg_eq (h : (neg a).Settled) : mkNeg a = .ok (neg a) := by
  obtain ⟨plain, single⟩ := h
  cases a with
  | bool | num => cases plain
  | neg b => exact absurd rfl (single b)
  | _ => rfl

theorem mkSub_eq (h : (sub a b).Settled) : mkSub a b = .ok (sub a b) := by
  obtain ⟨notBool, nonzero, apart⟩ := h
  cases b with
  | bool c => exact absurd rfl (notBool c)
  | num s y =>
    have proper : y ≠ 0 := by
      rintro rfl
      exact nonzero s rfl
    cases a with
    | bool | num => exact absurd ⟨rfl, rfl⟩ apart
    | _ => exact if_neg proper
  | _ => rfl

theorem mkDiv_eq (h : (div a b).Settled) : mkDiv a b = .ok (div a b) := by
  obtain ⟨notBool, divides⟩ := h
  cases b with
  | bool c => exact absurd rfl (notBool c)
  | num s y =>
    by_cases zero : y = 0
    · exact if_pos zero
    · obtain ⟨plain, proper⟩ := divides s y rfl zero
      have kept : ¬(y = 1 ∧ a.sort = .real) := fun ⟨one, real⟩ => proper one real
      cases a with
      | bool | num => cases plain
      | _ => exact (if_neg zero).trans (if_neg kept)
  | _ => rfl

theorem mkCmp_eq {r : Relation} (h : (cmp r a b).Settled) : mkCmp r a b = cmp r a b := by
  unfold mkCmp
  split
  · exact absurd ⟨rfl, rfl⟩ h
  · split
    · next hx hy => exact absurd ⟨by rw [isLiteral, hx]; rfl, by rw [isLiteral, hy]; rfl⟩ h
    · rfl

/-- A settled operator is built of its operands, or of these and a constant. -/
theorem Settled.exists_build (h : t.Settled) {o : Operator} (ho : t.operator? = some o) :
    ∃ as, (∀ a ∈ as, a ∈ t.operands ∨ a.isLiteral = true) ∧ o.build as = .ok t := by
  have own (built : o.build t.operands = .ok t) :
      ∃ as, (∀ a ∈ as, a ∈ t.operands ∨ a.isLiteral = true) ∧ o.build as = .ok t :=
    ⟨_, fun _ => Or.inl, built⟩
  cases t <;> cases ho
  case bool | num => exact own rfl
  case not => exact own (congrArg _ (mkNot_eq h))
  case and => exact own (congrArg _ (mkAnd_eq h))
  case or => exact own (congrArg _ (mkOr_eq h))
  case implies =>
    exact own (by simp [Operator.build, operands, mkImplies, not_isLiteral.1 h.1,
      not_isLiteral.1 h.2])
  case ite => exact own (by simp [Operator.build, operands, mkIte, not_isLiteral.1 h])
  case cmp => exact own (congrArg _ (mkCmp_eq h))
  case add => exact exists_mkAdd_eq h
  case sub => exact own (mkSub_eq h)
  case mul => exact exists_mkMul_eq h
  case div => exact own (mkDiv_eq h)
  case neg => exact own (mkNeg_eq h)

theorem Obtainable.of_isLiteral (h : t.isLiteral = true) : t.Obtainable := by
  cases t with
  | bool b => exact .operator (by simp) (rfl : (Operator.bool b).build [] = .ok (bool b))
  | num s q => exact .operator (by simp) (rfl : (Operator.num s q).build [] = .ok (num s q))
  | _ => cases h

/-- Every folded term can be obtained. -/
theorem Folded.obtainable (h : t.Folded) : t.Obtainable := by
  induction h with
  | @node t settled _ ih =>
    cases ho : t.operator? with
    | some o =>
      rw [components_operator ho] at ih
      obtain ⟨as, given, built⟩ := settled.exists_build ho
      exact .operator (fun a ha => (given a ha).elim (ih a) .of_isLiteral) built
    | none =>
      cases t with
      | var v => exact .var v
      | next v => exact .next v
      | quant q v body =>
        have built := Obtainable.quant q v (ih body (by simp [components]))
        rwa [Term.mkQuant, not_isLiteral.1 settled] at built
      | integral | throughout => exact .flow rfl ih
      | _ => cases ho

/-- The terms that are obtained from leaves with the folding operations, with substitutions and
replacements by terms that are obtained so, and by expanding flow primitives, are exactly the folded
ones: each of their nodes is settled, those in the flows and bodies of flow primitives included. -/
theorem obtainable_iff_folded (t : Term) : t.Obtainable ↔ t.Folded :=
  ⟨Obtainable.folded, Folded.obtainable⟩

end Term

end HybridCheck
