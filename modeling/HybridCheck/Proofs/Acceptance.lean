import HybridCheck.Proofs.Folding
import HybridCheck.Proofs.Reading

/-!
# The sorts of what is read

The reader looks at sorts when it compares: it refuses truth values as sides of an order. So the
atoms of the formulas that it accepts, and the constraints, are Boolean, their connectives apply to
what is Boolean and their orders to numbers. But the operands of arithmetic are not looked at, and
neither are the two sides of an equation. At such a node the sorts may not fit together, and at no
other, since every name stands for a truth value or a number and everything else is looked at.
-/

namespace HybridCheck

abbrev TermSort.Ordinary (s : TermSort) : Prop := s = .bool ∨ s.numeric = true

/-- Such sorts are alike if both are Boolean or neither is. -/
theorem TermSort.Ordinary.alike_iff {s t : TermSort} (hs : s.Ordinary) (ht : t.Ordinary) :
    s.alike t = true ↔ (s = .bool ↔ t = .bool) := by
  cases s <;> cases t <;> simp [TermSort.Ordinary, TermSort.alike, TermSort.numeric] at hs ht ⊢

namespace Term

/-- A node lapses if it equates a truth value and a number, or calculates with a truth value. -/
def Lapse : Term → Prop
  | cmp .eq a b => ¬(a.sort = .bool ↔ b.sort = .bool)
  | t => t.operator?.any Operator.arithmetic = true ∧ ∃ a ∈ t.operands, a.sort = .bool

/-- A node is a truth value or a number, and its sorts fit together exactly if it does not lapse. -/
structure Judged (n : Term) : Prop where
  ordinary : n.sort.Ordinary
  fits : n.sortedNode noFlow = true ↔ ¬n.Lapse

def Passes (t : Term) : Prop := ∀ n ∈ t.subterms, n.Judged

/-- A term is Boolean, and its sorts fit together but for its lapses. -/
structure Accepted (c : Term) : Prop where
  sort : c.sort = .bool
  passes : c.Passes

section

variable {t a b c u : Term} {o : Operator} {v : Var}

theorem Passes.ordinary (h : t.Passes) : t.sort.Ordinary := (h t (self_mem_subterms t)).ordinary

theorem Passes.numeric (h : t.Passes) (other : t.sort ≠ .bool) : t.sort.numeric = true :=
  h.ordinary.resolve_left other

/-- What is accepted is well-sorted exactly if it has no lapse. -/
theorem Passes.plain_iff (h : t.Passes) : t.plain = true ↔ ∀ n ∈ t.subterms, ¬n.Lapse := by
  simp only [plain, sorted, List.all_eq_true]
  exact forall₂_congr fun n hn => (h n hn).fits

theorem passes_operator (ho : t.operator? = some o) :
    t.Passes ↔ t.Judged ∧ ∀ a ∈ t.operands, a.Passes :=
  forall_subterms_operator ho

theorem passes_var (h : v.sort.Ordinary) : (var v).Passes := by
  intro n hn
  obtain rfl := List.mem_singleton.1 hn
  exact ⟨h, by simp [sortedNode, Lapse, operator?]⟩

theorem passes_next (h : v.sort.Ordinary) : (next v).Passes := by
  intro n hn
  obtain rfl := List.mem_singleton.1 hn
  exact ⟨h, by simp [sortedNode, Lapse, operator?]⟩

/-! ## Arithmetic -/

/-- Arithmetic takes numbers. -/
theorem accepts_arithmetic (ho : t.operator? = some o) (harith : o.arithmetic = true) :
    o.accepts (t.operands.map sort) = true ↔ ∀ a ∈ t.operands, a.sort.numeric = true := by
  cases t <;> cases ho <;> cases harith <;> simp [Operator.accepts, operands]

theorem lapse_arithmetic (ho : t.operator? = some o) (harith : o.arithmetic = true) :
    t.Lapse ↔ ∃ a ∈ t.operands, a.sort = .bool := by
  cases t <;> cases ho <;> cases harith <;> simp [Lapse, operator?, Operator.arithmetic]

/-- The result of arithmetic is a number, unless it is a negated truth value. -/
theorem ordinary_arithmetic (ho : t.operator? = some o) (harith : o.arithmetic = true)
    (operands : ∀ a ∈ t.operands, a.sort.Ordinary) : t.sort.Ordinary := by
  cases t <;> cases ho <;> cases harith
  case neg a => exact operands a (by simp [Term.operands])
  case sub a b =>
    rw [sort]
    split
    · exact Or.inr rfl
    · exact Or.inr rfl
  case div => exact Or.inr rfl
  all_goals exact Or.inr (NumSort.numeric_toSort _)

/-- Calculating passes with whatever operands pass, truth values included. -/
theorem inherited_passes : Inherited (·.arithmetic = true) Passes := by
  intro t o ho harith
  rw [passes_operator ho]
  refine ⟨And.right, fun operands => ⟨⟨?_, ?_⟩, operands⟩⟩
  · exact ordinary_arithmetic ho harith fun a ha => (operands a ha).ordinary
  · rw [sortedNode_operator ho, accepts_arithmetic ho harith, lapse_arithmetic ho harith]
    refine ⟨?_, fun h a ha => (operands a ha).numeric fun bool => h ⟨a, ha, bool⟩⟩
    rintro numeric ⟨a, ha, bool⟩
    simpa [bool] using numeric a ha

/-! ## Connectives and comparisons -/

/-- Connectives take what is Boolean. -/
theorem accepts_connective (ho : t.operator? = some o) (hlogical : o.connective = true) :
    o.accepts (t.operands.map sort) = true ↔ ∀ a ∈ t.operands, a.sort = .bool := by
  cases t <;> cases ho <;> cases hlogical <;> simp [Operator.accepts, operands]

theorem not_lapse_connective (ho : t.operator? = some o) (hlogical : o.connective = true) :
    ¬t.Lapse := by
  cases t <;> cases ho <;> cases hlogical <;> simp [Lapse, operator?, Operator.arithmetic]

/-- A connective is accepted of constraints that are accepted. -/
theorem inherited_accepted : Inherited (·.connective = true) Accepted := by
  intro t o ho hlogical
  have fits : t.sortedNode noFlow = true ↔ ∀ a ∈ t.operands, a.sort = .bool := by
    rw [sortedNode_operator ho, accepts_connective ho hlogical]
  constructor
  · rintro ⟨-, passes⟩ a ha
    obtain ⟨own, operands⟩ := (passes_operator ho).1 passes
    exact ⟨fits.1 (own.fits.2 (not_lapse_connective ho hlogical)) a ha, operands a ha⟩
  · intro operands
    have sort : t.sort = .bool := by
      cases t <;> cases ho <;> first | rfl | cases hlogical
    refine ⟨sort, (passes_operator ho).2 ⟨⟨Or.inl sort, ?_⟩, fun a ha => (operands a ha).passes⟩⟩
    exact iff_of_true (fits.2 fun a ha => (operands a ha).sort) (not_lapse_connective ho hlogical)

theorem accepted_mkCmp {r : Relation} (ha : a.Passes) (hb : b.Passes)
    (order : r ≠ .eq → a.sort ≠ .bool ∧ b.sort ≠ .bool) : (mkCmp r a b).Accepted := by
  have judged : (cmp r a b).Judged := by
    refine ⟨Or.inl rfl, ?_⟩
    by_cases hr : r = .eq
    · subst hr
      simpa [sortedNode, operator?, operands, Operator.accepts, Lapse] using
        ha.ordinary.alike_iff hb.ordinary
    · have sides : a.sort.numeric = true ∧ b.sort.numeric = true :=
        ⟨ha.numeric (order hr).1, hb.numeric (order hr).2⟩
      cases r <;> first | exact absurd rfl hr | simp [sortedNode, operator?, operands,
        Operator.accepts, Lapse, Operator.arithmetic, sides]
  have passes : (cmp r a b).Passes :=
    (passes_operator (o := .cmp r) rfl).2 ⟨judged, by simpa [operands] using ⟨ha, hb⟩⟩
  unfold mkCmp
  split
  · exact inherited_accepted.bool _
  · split
    · exact inherited_accepted.bool _
    · exact ⟨rfl, passes⟩

end

end Term

open Term

/-- What connectives keep holds of a constraint that a formula is made into. -/
theorem Formula.Formed.toConstraint {A : Term → Prop} {R : String → Prop}
    (hA : Inherited (·.connective = true) A) {f : Formula} (h : f.Formed A R) {c : Term}
    (hc : f.toConstraint = .ok c) : A c := by
  have list {fs : List Formula}
      (each : ∀ f ∈ fs, ∀ c, f.toConstraint = .ok c → A c) {cs : List Term}
      (hcs : toConstraints fs = .ok cs) : ∀ c ∈ cs, A c := by
    induction fs generalizing cs with
    | nil =>
      cases hcs
      simp
    | cons f fs ih =>
      obtain ⟨c, hf, hcs⟩ := Attempt.bind_eq_ok.1 hcs
      obtain ⟨cs', hfs, hcs⟩ := Attempt.bind_eq_ok.1 hcs
      cases hcs
      exact List.forall_mem_cons.2
        ⟨each f (by simp) c hf, ih (fun g hg => each g (by simp [hg])) hfs⟩
  induction f using Formula.induct generalizing c with
  | bool b =>
    cases hc
    exact hA.bool b
  | atom =>
    cases hc
    exact h
  | not f ih =>
    obtain ⟨a, ha, hc⟩ := Attempt.bind_eq_ok.1 hc
    cases hc
    exact hA.mkNot (ih h ha)
  | and fs ih =>
    obtain ⟨as, has, hc⟩ := Attempt.bind_eq_ok.1 hc
    cases hc
    exact hA.mkAnd (list (fun f hf c hc => ih f hf (formedAll_iff.1 h.2 f hf) hc) has)
  | or fs ih =>
    obtain ⟨as, has, hc⟩ := Attempt.bind_eq_ok.1 hc
    cases hc
    exact hA.mkOr (list (fun f hf c hc => ih f hf (formedAll_iff.1 h.2 f hf) hc) has)
  | implies l r ihl ihr =>
    obtain ⟨a, ha, hc⟩ := Attempt.bind_eq_ok.1 hc
    obtain ⟨b, hb, hc⟩ := Attempt.bind_eq_ok.1 hc
    cases hc
    exact hA.mkImplies (ihl h.1 ha) (ihr h.2 hb)
  | _ => cases hc

def Scope.Ordinary (scope : Scope) : Prop :=
  ∀ name d, scope.get? name = some d → d.isProp = false → d.sort.Ordinary

theorem Scope.Ordinary.sort {scope : Scope} (h : scope.Ordinary) {v : Var}
    (hv : scope.Declares v) : v.sort.Ordinary := by
  obtain ⟨d, hd, hprop, same, -⟩ := hv.declared
  exact same ▸ h _ d hd hprop

namespace Parser

theorem accepted_comparisonOf {a b c : Term} {op : String} (ha : a.Passes) (hb : b.Passes)
    (sides : a.sort = .bool ∨ b.sort = .bool → op = "=" ∨ op = "==" ∨ op = "!=")
    (h : comparisonOf? op a b = some c) : c.Accepted := by
  have equal : (mkEq a b).Accepted := accepted_mkCmp ha hb fun h => absurd rfl h
  have ordered {op' : String} (hop : op = op') (no : ¬(op' = "=" ∨ op' = "==" ∨ op' = "!="))
      (r : Relation) : (mkCmp r a b).Accepted :=
    accepted_mkCmp ha hb fun _ => not_or.1 fun h => no (hop ▸ sides h)
  unfold comparisonOf? at h
  repeat' split at h
  all_goals cases h
  all_goals first
    | exact ordered ‹op = _› (by decide) _
    | exact equal
    | exact inherited_accepted.mkNot equal

/-- Expressions pass, and atoms are accepted. -/
theorem accepted_grammar {cx : Context} (ordinary : cx.scope.Ordinary) :
    Grammar cx Passes Accepted where
  real q := inherited_passes.num _ q
  bool b := (inherited_accepted.bool b).passes
  var hv := passes_var (ordinary.sort hv)
  next hv _ := passes_next (ordinary.sort hv)
  mkAdd ha hb hu := inherited_passes.mkAdd (by simpa using ⟨ha, hb⟩) hu
  mkMul ha hb hu := inherited_passes.mkMul (by simpa using ⟨ha, hb⟩) hu
  mkSub := inherited_passes.mkSub
  mkDiv := inherited_passes.mkDiv
  mkNeg := inherited_passes.mkNeg
  signal hv _ bool := ⟨bool, passes_var (ordinary.sort hv)⟩
  signalNext hv bool _ := ⟨bool, passes_next (ordinary.sort hv)⟩
  comparison := accepted_comparisonOf

end Parser

/-- The atoms of a formula that was read, and a constraint that was read, are Boolean, and the sorts
at each of their nodes fit together exactly if it does not calculate with a truth value or equate a
truth value and a number. -/
theorem reading_sorts {scope : Scope} (ordinary : scope.Ordinary) (cs : List Char) :
    (∀ f, Formula.ofChars scope cs = .ok f → f.Formed Accepted scope.Proposes) ∧
      ∀ c, Term.constraintOfChars scope cs = .ok c → c.Accepted := by
  refine ⟨fun f h => ?_, fun c h => ?_⟩
  · obtain ⟨ts, hts, h⟩ := Attempt.bind_eq_ok.1 h
    obtain ⟨p, hp, h⟩ := Attempt.bind_eq_ok.1 h
    exact Parser.formed_of_finished (Parser.accepted_grammar ordinary) hts hp h
  · obtain ⟨ts, hts, h⟩ := Attempt.bind_eq_ok.1 h
    obtain ⟨p, hp, h⟩ := Attempt.bind_eq_ok.1 h
    obtain ⟨f, hf, h⟩ := Attempt.bind_eq_ok.1 h
    have formed := Parser.formed_of_finished (Parser.accepted_grammar ordinary) hts hp hf
    exact formed.toConstraint inherited_accepted h

/-! ## A truth value and a number in scope -/

def mixedScope : Scope := [("b", { sort := .bool }), ("x", { sort := .real })]

theorem ordinary_mixedScope : mixedScope.Ordinary := by
  intro name d hd _
  have := Table.mem_of_get? hd
  simp only [mixedScope, List.mem_cons, Prod.mk.injEq, List.not_mem_nil, or_false] at this
  rcases this with ⟨-, rfl⟩ | ⟨-, rfl⟩
  · exact Or.inl rfl
  · exact Or.inr rfl

theorem constraint_jump : Term.constraintOfChars mixedScope "b' -> x' >= x + 1".toList =
    .ok (.implies (.next ⟨"b", .bool, .logical⟩) (.cmp .ge (.next ⟨"x", .real, .logical⟩)
      (.add .real [.var ⟨"x", .real, .logical⟩, .num .real 1]))) := by cbv

/-- A constraint on a jump has the sorts that its text promises. -/
theorem reading_sorts_jump : ∃ c,
    Term.constraintOfChars mixedScope "b' -> x' >= x + 1".toList = .ok c ∧ c.Accepted ∧
      c.plain = true :=
  ⟨_, constraint_jump, (reading_sorts ordinary_mixedScope _).2 _ constraint_jump, by decide⟩

theorem formula_sum : Formula.ofChars mixedScope "b + x > 0".toList = .ok (.atom (.cmp .gt
    (.add .real [.var ⟨"b", .bool, .logical⟩, .var ⟨"x", .real, .logical⟩]) zero)) := by cbv

theorem constraint_equation : Term.constraintOfChars mixedScope "b = x".toList =
    .ok (.cmp .eq (.var ⟨"b", .bool, .logical⟩) (.var ⟨"x", .real, .logical⟩)) := by cbv

/-- A sum with a truth value is read in a formula, and the equation of a truth value and a number as
a constraint. -/
theorem reading_unsorted :
    ¬ (∀ scope : Scope, scope.Ordinary → ∀ cs f, Formula.ofChars scope cs = .ok f →
        f.Formed (fun c => c.sort = .bool ∧ c.plain = true) scope.Proposes) ∧
      ¬ ∀ scope : Scope, scope.Ordinary → ∀ cs c, Term.constraintOfChars scope cs = .ok c →
        c.sort = .bool ∧ c.plain = true := by
  refine ⟨fun h => ?_, fun h => ?_⟩
  · have plain := (h _ ordinary_mixedScope _ _ formula_sum).2
    revert plain
    decide
  · have plain := (h _ ordinary_mixedScope _ _ constraint_equation).2
    revert plain
    decide

end HybridCheck
