import HybridCheck.Proofs.Negation
import HybridCheck.Proofs.Temporal

/-!
# How reading fails

A text that cannot be read is met by an objection, whatever its characters and whatever the scope.
There is one gap. The reader refuses truth values as operands of an order, but not as operands of
`+`, `-`, `*` and `/`, and arithmetic is folded while it is read. So a Boolean constant beside an
arithmetic operator, parentheses aside, can be a fault, and nothing else can.

Boolean variables never are one: they are no constants to calculate with. What the argument carries
along a text is that a term that was read may be calculated with, or else no operator follows it.
-/

namespace HybridCheck

/-! ## Boolean constants beside operators -/

namespace Token

def isConstant (t : Token) : Bool := t.kind = .ident && (t.text = "true" || t.text = "false")

def isOperator (t : Token) : Bool := ["+", "-", "*", "/"].contains t.text

/-- Whether a Boolean constant comes next, behind opening parentheses. -/
def beginsConstant (ts : List Token) : Bool :=
  (ts.dropWhile fun t => t.text = "(").head?.any isConstant

def operates (ts : List Token) : Bool :=
  (ts.dropWhile fun t => t.text = ")").head?.any isOperator

/-- Whether no Boolean constant stands beside an arithmetic operator, parentheses aside. -/
def constantsApart : List Token → Bool
  | [] => true
  | t :: ts =>
    !(t.isConstant && operates ts) && !(t.isOperator && beginsConstant ts) && constantsApart ts

section

variable {t : Token} {ts : List Token}

theorem constantsApart_cons : constantsApart (t :: ts) = true ↔
    (t.isConstant = true → operates ts = false) ∧
      (t.isOperator = true → beginsConstant ts = false) ∧ constantsApart ts = true := by
  rw [constantsApart]
  cases t.isConstant <;> cases t.isOperator <;> simp [and_assoc]

theorem apart_tail (h : constantsApart (t :: ts) = true) : constantsApart ts = true :=
  (constantsApart_cons.1 h).2.2

theorem operates_of_apart (h : constantsApart (t :: ts) = true) (ht : t.isConstant = true) :
    operates ts = false := (constantsApart_cons.1 h).1 ht

theorem beginsConstant_of_apart (h : constantsApart (t :: ts) = true) (ht : t.isOperator = true) :
    beginsConstant ts = false := (constantsApart_cons.1 h).2.1 ht

theorem beginsConstant_open (h : t.text = "(") : beginsConstant (t :: ts) = beginsConstant ts := by
  simp [beginsConstant, h]

theorem beginsConstant_of_isConstant (h : t.isConstant = true) :
    beginsConstant (t :: ts) = true := by
  have shut : t.text ≠ "(" := by
    intro ht
    simp [isConstant, ht] at h
  simp [beginsConstant, shut, h]

theorem operates_close (h : t.text = ")") : operates (t :: ts) = operates ts := by
  simp [operates, h]

theorem operates_of_isOperator (h : t.isOperator = true) : operates (t :: ts) = true := by
  have opens : t.text ≠ ")" := by
    intro ht
    simp [isOperator, ht] at h
  simp [operates, opens, h]

end

end Token

/-! ## Objecting -/

/-- An attempt objects to the text or has a value, of which `P` holds if `C` does. Unless `C` holds
there may be no answer, because of a Boolean constant. -/
inductive Attempt.Answers {α : Type} (C : Prop) (P : α → Prop) : Attempt α → Prop
  | value {a : α} (h : C → P a) : Answers C P (.ok a)
  | objection {e : Failure} (h : e.isA .unreadable = true) : Answers C P (.error e)
  | fault (h : ¬C) : Answers C P (.error (.fault .booleanOperand))

namespace Attempt.Answers

variable {α β : Type} {C : Prop} {P : α → Prop} {Q : β → Prop} {x : Attempt α}

theorem bind {f : α → Attempt β} (hx : Answers C P x) (hf : ∀ a, (C → P a) → Answers C Q (f a)) :
    Answers C Q (x >>= f) := by
  cases hx with
  | value h => exact hf _ h
  | objection h => exact .objection h
  | fault h => exact .fault h

theorem imp {P' : α → Prop} (hx : Answers C P x) (h : C → ∀ a, P a → P' a) : Answers C P' x := by
  cases hx with
  | value hP => exact .value fun hC => h hC _ (hP hC)
  | objection h => exact .objection h
  | fault h => exact .fault h

theorem map {f : α → β} (hx : Answers C P x) (hf : ∀ a, P a → Q (f a)) :
    Answers C Q (x.map f) := by
  cases hx with
  | value h => exact .value fun hC => hf _ (h hC)
  | objection h => exact .objection h
  | fault h => exact .fault h

/-- What has no answer only on Boolean constants, and has one if `C` holds. -/
theorem of_faults (faults : ∀ e, x = .error e → e = .fault .booleanOperand)
    (h : C → ∃ a, x = .ok a ∧ P a) : Answers C P x := by
  cases x with
  | ok a =>
    refine .value fun hC => ?_
    obtain ⟨_, ha, hP⟩ := h hC
    cases ha
    exact hP
  | error e =>
    obtain rfl := faults e rfl
    refine .fault fun hC => ?_
    obtain ⟨_, ha, -⟩ := h hC
    cases ha

end Attempt.Answers

/-- What is left behind a token is less than there was with it. -/
theorem Parsed.behind {α : Type} {t : Token} {ts : List Token} (p : Parsed α ts.length) :
    p.rest.length < (t :: ts).length := Nat.lt_succ_of_lt p.fewer

namespace Parser

open Token Term
open Attempt (Answers)

variable {C : Prop} {cx : Context} {ts : List Token}

/-! ## Arithmetic -/

/-- Arithmetic may be done on a term, or no operator follows. -/
def Settled (a : Term) (ts : List Token) : Prop :=
  a.Quantity noPrimitive ∨ operates ts = false

/-- An operand that was read is settled, and arithmetic may be done on it if `q` holds. -/
structure Operand (q : Prop) {n : Nat} (p : Parsed Term n) : Prop where
  apart : constantsApart p.rest = true
  settled : Settled p.value p.rest
  quantity : q → p.value.Quantity noPrimitive

/-- How reading arithmetic from some tokens answers. -/
structure AnswersArithmetic (C : Prop) (cx : Context) (ts : List Token) : Prop where
  factor : Answers C (Operand (beginsConstant ts = false)) (factor cx ts)
  moreFactors : ∀ acc, (C → Settled acc ts) →
    Answers C (Operand (acc.Quantity noPrimitive)) (moreFactors cx acc ts)
  product : Answers C (Operand (beginsConstant ts = false)) (product cx ts)
  moreSummands : ∀ acc, (C → Settled acc ts) →
    Answers C (Operand (acc.Quantity noPrimitive)) (moreSummands cx acc ts)
  sum : Answers C (Operand (beginsConstant ts = false)) (sum cx ts)

theorem Settled.quantity {a : Term} {t : Token} (h : Settled a (t :: ts))
    (ht : t.isOperator = true) : a.Quantity noPrimitive := by
  refine h.resolve_right fun hstop => ?_
  rw [operates_of_isOperator ht] at hstop
  cases hstop

theorem answers_expect {wanted : String} :
    Answers C (fun p => ∃ t, ts = t :: p.rest ∧ t.text = wanted) (expect cx wanted ts) := by
  rcases ts with _ | ⟨t, rest⟩ <;> rw [expect]
  · exact .objection rfl
  split
  · next ht => exact .value fun _ => ⟨t, rfl, ht⟩
  · exact .objection rfl

theorem answers_numeral {t : Token} : Answers C (fun _ => True) (numeral t) := by
  unfold numeral
  split
  · exact .value fun _ => trivial
  · exact .objection rfl

theorem answers_reference {t : Token} {rest : List Token} (h : C → constantsApart rest = true) :
    Answers C (fun p => constantsApart p.rest = true ∧ p.value.Quantity noPrimitive)
      (reference cx t rest) := by
  unfold reference
  split
  · exact .objection rfl
  split
  · exact .objection rfl
  dsimp only
  split
  · exact .value fun _ => ⟨rfl, quantity_var⟩
  split
  · split
    · exact .value fun hC => ⟨apart_tail (h hC), quantity_next⟩
    · exact .objection rfl
  · exact .value fun hC => ⟨h hC, quantity_var⟩

/-- Something is said of all shorter rows of tokens that leave the constants apart if `C` holds. -/
abbrev Shorter (C : Prop) (P : List Token → Prop) (ts : List Token) : Prop :=
  ∀ rest : List Token, rest.length < ts.length → (C → constantsApart rest = true) → P rest

theorem answers_factor (h : C → constantsApart ts = true)
    (below : Shorter C (AnswersArithmetic C cx) ts) :
    Answers C (Operand (beginsConstant ts = false)) (factor cx ts) := by
  rcases ts with _ | ⟨t, rest⟩ <;> rw [factor]
  · exact .objection rfl
  have later (hC : C) := apart_tail (h hC)
  split
  · next hminus =>
    have ht : t.isOperator = true := by simp [isOperator, hminus]
    refine (below rest (by simp) later).factor.bind fun p hp => ?_
    have numeric (hC : C) := (hp hC).quantity (beginsConstant_of_apart (h hC) ht)
    refine Answers.bind (P := Quantity noPrimitive)
      (.of_faults (fun _ => mkNeg_error) fun hC => (numeric hC).mkNeg) fun u hu => ?_
    exact .value fun hC => ⟨(hp hC).apart, Or.inl (hu hC), fun _ => hu hC⟩
  split
  · next hopen =>
    refine (below rest (by simp) later).sum.bind fun p hp => ?_
    refine answers_expect.bind fun q hclose => ?_
    refine .value fun hC => ?_
    obtain ⟨t', hrest, ht'⟩ := hclose hC
    obtain ⟨apart, settled, quantity⟩ := hp hC
    rw [hrest] at apart settled
    -- a constant in parentheses is still beside what follows them
    refine ⟨apart_tail apart, settled.imp_right fun hstop => ?_, ?_⟩
    · rwa [← operates_close ht']
    · rwa [beginsConstant_open hopen]
  split
  · refine answers_numeral.bind fun q _ => ?_
    exact .value fun hC => ⟨later hC, Or.inl (inherited_quantity.num _ _),
      fun _ => inherited_quantity.num _ _⟩
  split
  · next hk =>
    split
    · next hc =>
      have ht : t.isConstant = true := by simpa [isConstant, hk] using hc
      refine .value fun hC => ⟨later hC, Or.inr (operates_of_apart (h hC) ht), ?_⟩
      intro hno
      rw [beginsConstant_of_isConstant ht] at hno
      cases hno
    · refine (answers_reference later).imp fun _ p hp => ?_
      exact ⟨hp.1, Or.inl hp.2, fun _ => hp.2⟩
  · exact .objection rfl

/-- An operand is worked in before reading on. -/
theorem answers_operation {k k' : Nat} {q : Prop} {z : Attempt Term}
    {read : Term → Attempt (Parsed Term k)} {finish : Parsed Term k → Attempt (Parsed Term k')}
    (finished : ∀ p, ∃ h, finish p = .ok ⟨p.value, p.rest, h⟩)
    (faults : ∀ e, z = .error e → e = .fault .booleanOperand)
    (worked : C → ∃ a, z = .ok a ∧ a.Quantity noPrimitive)
    (more : ∀ a, (C → Settled a ts) → Answers C (Operand (a.Quantity noPrimitive)) (read a)) :
    Answers C (Operand q) (z >>= fun a => read a >>= finish) := by
  refine (Answers.of_faults faults worked).bind fun a ha => ?_
  refine (more a fun hC => Or.inl (ha hC)).bind fun p hp => ?_
  obtain ⟨h, hp'⟩ := finished p
  rw [hp']
  refine .value fun hC => ?_
  obtain ⟨apart, settled, quantity⟩ := hp hC
  exact ⟨apart, settled, fun _ => quantity (ha hC)⟩

section Arithmetic

variable (h : C → constantsApart ts = true) (below : Shorter C (AnswersArithmetic C cx) ts)
include h below

theorem answers_moreFactors (acc : Term) (hacc : C → Settled acc ts) :
    Answers C (Operand (acc.Quantity noPrimitive)) (moreFactors cx acc ts) := by
  rcases ts with _ | ⟨t, rest⟩ <;> rw [moreFactors]
  · exact .value fun hC => ⟨rfl, hacc hC, id⟩
  split
  · next hop =>
    have ht : t.isOperator = true := by rcases hop with h | h <;> simp [isOperator, h]
    have later (hC : C) := apart_tail (h hC)
    refine (below rest (by simp) later).factor.bind fun p hp => ?_
    have more := (below p.rest p.behind fun hC => (hp hC).apart).moreFactors
    have left (hC : C) := (hacc hC).quantity ht
    have right (hC : C) := (hp hC).quantity (beginsConstant_of_apart (h hC) ht)
    dsimp only
    split
    · refine answers_operation (fun _ => ⟨_, rfl⟩) (fun _ => mkMul_error) (fun hC => ?_) more
      exact Quantity.mkMul (by simpa using ⟨left hC, right hC⟩)
    · refine answers_operation (fun _ => ⟨_, rfl⟩) (fun _ => mkDiv_error) (fun hC => ?_) more
      exact (left hC).mkDiv (right hC)
  · exact .value fun hC => ⟨h hC, hacc hC, id⟩

theorem answers_product : Answers C (Operand (beginsConstant ts = false)) (product cx ts) := by
  rw [product]
  refine (answers_factor h below).bind fun p hp => ?_
  have more := (below p.rest p.fewer fun hC => (hp hC).apart).moreFactors
  refine (more p.value fun hC => (hp hC).settled).bind fun q hq => ?_
  exact .value fun hC => ⟨(hq hC).apart, (hq hC).settled,
    fun hb => (hq hC).quantity ((hp hC).quantity hb)⟩

theorem answers_moreSummands (acc : Term) (hacc : C → Settled acc ts) :
    Answers C (Operand (acc.Quantity noPrimitive)) (moreSummands cx acc ts) := by
  rcases ts with _ | ⟨t, rest⟩ <;> rw [moreSummands]
  · exact .value fun hC => ⟨rfl, hacc hC, id⟩
  split
  · next hop =>
    have ht : t.isOperator = true := by rcases hop with h | h <;> simp [isOperator, h]
    have later (hC : C) := apart_tail (h hC)
    refine (below rest (by simp) later).product.bind fun p hp => ?_
    have more := (below p.rest p.behind fun hC => (hp hC).apart).moreSummands
    have left (hC : C) := (hacc hC).quantity ht
    have right (hC : C) := (hp hC).quantity (beginsConstant_of_apart (h hC) ht)
    dsimp only
    split
    · refine answers_operation (fun _ => ⟨_, rfl⟩) (fun _ => mkAdd_error) (fun hC => ?_) more
      exact Quantity.mkAdd (by simpa using ⟨left hC, right hC⟩)
    · refine answers_operation (fun _ => ⟨_, rfl⟩) (fun _ => mkSub_error) (fun hC => ?_) more
      exact (left hC).mkSub (right hC)
  · exact .value fun hC => ⟨h hC, hacc hC, id⟩

theorem answers_summands : Answers C (Operand (beginsConstant ts = false)) (sum cx ts) := by
  rw [sum]
  refine (answers_product h below).bind fun p hp => ?_
  have more := (below p.rest p.fewer fun hC => (hp hC).apart).moreSummands
  refine (more p.value fun hC => (hp hC).settled).bind fun q hq => ?_
  exact .value fun hC => ⟨(hq hC).apart, (hq hC).settled,
    fun hb => (hq hC).quantity ((hp hC).quantity hb)⟩

end Arithmetic

/-- By the number of tokens, at every level at once: before an operator a term is settled because it
may be calculated with, and behind one because no constant begins there. -/
theorem answers_arithmetic (n : Nat) :
    ∀ ts : List Token, ts.length = n → (C → constantsApart ts = true) →
      AnswersArithmetic C cx ts := by
  induction n using Nat.strongRecOn with
  | ind n ih =>
    intro ts hn h
    subst hn
    have below : Shorter C (AnswersArithmetic C cx) ts :=
      fun rest hlt hr => ih rest.length hlt rest rfl hr
    exact {
      factor := answers_factor h below
      moreFactors := answers_moreFactors h below
      product := answers_product h below
      moreSummands := answers_moreSummands h below
      sum := answers_summands h below }

/-! ## Comparisons and windows -/

/-- The tokens that remain leave the constants apart. -/
abbrev LeavesApart {α : Type} {n : Nat} (p : Parsed α n) : Prop := constantsApart p.rest = true

theorem answers_sum (h : C → constantsApart ts = true) :
    Answers C LeavesApart (sum cx ts) :=
  (answers_arithmetic _ ts rfl h).sum.imp fun _ _ hp => hp.apart

theorem answers_comparison (h : C → constantsApart ts = true) :
    Answers C LeavesApart (comparison cx ts) := by
  rw [comparison]
  refine (answers_sum h).bind fun p hp => ?_
  obtain ⟨a, r, hlt⟩ := p
  dsimp only
  split
  · exact .objection rfl
  · next op rest _ =>
    split
    · exact .objection rfl
    · refine (answers_sum fun hC => apart_tail (hp hC)).bind fun q hq => ?_
      split
      · exact .objection rfl
      · split
        · exact .value hq
        · exact .objection rfl

section

variable (h : C → constantsApart ts = true)
include h

theorem answers_symbol {wanted : String} : Answers C LeavesApart (expect cx wanted ts) := by
  refine answers_expect.imp fun hC p hp => ?_
  obtain ⟨t, ht, -⟩ := hp
  exact apart_tail (ht ▸ h hC)

theorem answers_lowerBound : Answers C LeavesApart (lowerBound cx ts) := by
  rcases ts with _ | ⟨t, rest⟩ <;> rw [lowerBound]
  · exact .objection rfl
  have later (hC : C) := apart_tail (h hC)
  split
  · exact answers_numeral.bind fun q _ => .value later
  · exact .objection rfl

theorem answers_upperBound : Answers C LeavesApart (upperBound cx ts) := by
  rcases ts with _ | ⟨t, rest⟩ <;> rw [upperBound]
  · exact .objection rfl
  have later (hC : C) := apart_tail (h hC)
  split
  · exact .value later
  split
  · exact answers_numeral.bind fun q _ => .value later
  · exact .objection rfl

theorem answers_opening : Answers C LeavesApart (opening cx ts) := by
  rcases ts with _ | ⟨t, rest⟩ <;> rw [opening]
  · exact .objection rfl
  have later (hC : C) := apart_tail (h hC)
  split
  · exact .value later
  split
  · exact .value later
  · exact .objection rfl

theorem answers_closing : Answers C LeavesApart (closing cx ts) := by
  rcases ts with _ | ⟨t, rest⟩ <;> rw [closing]
  · exact .objection rfl
  have later (hC : C) := apart_tail (h hC)
  split
  · exact .value later
  split
  · exact .value later
  · exact .objection rfl

theorem answers_window : Answers C LeavesApart (window cx ts) := by
  rcases ts with _ | ⟨t, rest⟩ <;> rw [window]
  · exact .value fun _ => rfl
  have later (hC : C) := apart_tail (h hC)
  split
  · refine (answers_opening later).bind fun leftOpen h1 => ?_
    refine (answers_lowerBound h1).bind fun lo h2 => ?_
    refine (answers_symbol h2).bind fun _ h3 => ?_
    refine (answers_upperBound h3).bind fun hi h4 => ?_
    refine (answers_closing h4).bind fun rightOpen h5 => ?_
    dsimp only
    split
    · exact .value h5
    · split
      · exact .objection rfl
      · exact .value h5
  · exact .value h

end

/-! ## Formulas -/

/-- How reading formulas from some tokens answers. -/
structure AnswersFormula (C : Prop) (cx : Context) (ts : List Token) : Prop where
  primary : Answers C LeavesApart (primary cx ts)
  unary : Answers C LeavesApart (unary cx ts)
  moreTemporal : ∀ acc, Answers C LeavesApart (moreTemporal cx acc ts)
  temporal : Answers C LeavesApart (temporal cx ts)
  moreConjuncts : Answers C LeavesApart (moreConjuncts cx ts)
  conjunction : Answers C LeavesApart (conjunction cx ts)
  moreDisjuncts : Answers C LeavesApart (moreDisjuncts cx ts)
  disjunction : Answers C LeavesApart (disjunction cx ts)
  implication : Answers C LeavesApart (implication cx ts)

theorem answers_primary (h : C → constantsApart ts = true)
    (below : Shorter C (fun rest => Answers C LeavesApart (implication cx rest)) ts) :
    Answers C LeavesApart (primary cx ts) := by
  rcases ts with _ | ⟨t, rest⟩ <;> rw [primary]
  · exact (answers_comparison h).map fun _ hp => hp
  have later (hC : C) := apart_tail (h hC)
  dsimp only
  generalize (if t.kind = .ident then cx.scope.get? t.text else none) = decl
  split
  · exact .value later
  split
  · split
    · exact .objection rfl
    · exact .value later
  split
  · exact (answers_reference later).map fun _ hp => hp.1
  have attempted : Answers C LeavesApart (comparison cx (t :: rest)) := answers_comparison h
  split
  · next p hp =>
    rw [hp] at attempted
    cases attempted with
    | value hp => exact .value hp
  · next e he =>
    rw [he] at attempted
    split
    · cases attempted with
      | objection h => exact .objection h
      | fault h => exact .fault h
    · refine (below rest (by simp) later).bind fun f hf => ?_
      exact (answers_symbol hf).bind fun _ hr => .value hr

section Levels

variable (h : C → constantsApart ts = true) (below : Shorter C (AnswersFormula C cx) ts)
include h below

theorem answers_unary : Answers C LeavesApart (unary cx ts) := by
  have primary : Answers C LeavesApart (primary cx ts) :=
    answers_primary h fun rest hlt hr => (below rest hlt hr).implication
  rcases ts with _ | ⟨t, rest⟩ <;> rw [unary]
  · exact primary
  have later (hC : C) := apart_tail (h hC)
  split
  · exact (below rest (by simp) later).unary.bind fun f hf => .value hf
  split
  · split
    · exact .objection rfl
    · refine (answers_window later).bind fun w hw => ?_
      exact (below w.rest w.fewer hw).unary.bind fun f hf => .value hf
  · exact primary

theorem answers_moreTemporal (acc : Formula) : Answers C LeavesApart (moreTemporal cx acc ts) := by
  rcases ts with _ | ⟨t, rest⟩ <;> rw [moreTemporal]
  · exact .value fun _ => rfl
  have later (hC : C) := apart_tail (h hC)
  split
  · split
    · exact .objection rfl
    · refine (answers_window later).bind fun w hw => ?_
      refine (below w.rest w.fewer hw).unary.bind fun f hf => ?_
      have further := (below f.rest (f.fewer.trans w.fewer) hf).moreTemporal
      exact (further _).bind fun g hg => .value hg
  · exact .value h

theorem answers_temporal : Answers C LeavesApart (temporal cx ts) := by
  rw [temporal]
  refine (answers_unary h below).bind fun l hl => ?_
  exact ((below l.rest l.fewer hl).moreTemporal l.value).bind fun f hf => .value hf

theorem answers_moreConjuncts : Answers C LeavesApart (moreConjuncts cx ts) := by
  rcases ts with _ | ⟨t, rest⟩ <;> rw [moreConjuncts]
  · exact .value fun _ => rfl
  have later (hC : C) := apart_tail (h hC)
  split
  · refine (below rest (by simp) later).temporal.bind fun f hf => ?_
    exact (below f.rest f.behind hf).moreConjuncts.bind fun fs hfs => .value hfs
  · exact .value h

theorem answers_conjunction : Answers C LeavesApart (conjunction cx ts) := by
  rw [conjunction]
  refine (answers_temporal h below).bind fun f hf => ?_
  exact (below f.rest f.fewer hf).moreConjuncts.bind fun fs hfs => .value hfs

theorem answers_moreDisjuncts : Answers C LeavesApart (moreDisjuncts cx ts) := by
  rcases ts with _ | ⟨t, rest⟩ <;> rw [moreDisjuncts]
  · exact .value fun _ => rfl
  have later (hC : C) := apart_tail (h hC)
  split
  · refine (below rest (by simp) later).conjunction.bind fun f hf => ?_
    exact (below f.rest f.behind hf).moreDisjuncts.bind fun fs hfs => .value hfs
  · exact .value h

theorem answers_disjunction : Answers C LeavesApart (disjunction cx ts) := by
  rw [disjunction]
  refine (answers_conjunction h below).bind fun f hf => ?_
  exact (below f.rest f.fewer hf).moreDisjuncts.bind fun fs hfs => .value hfs

theorem answers_implication : Answers C LeavesApart (implication cx ts) := by
  rw [implication]
  refine (answers_disjunction h below).bind fun l hl => ?_
  obtain ⟨l, r, hlt⟩ := l
  dsimp only
  split
  · exact .value hl
  · next t rest hlt =>
    have later (hC : C) := apart_tail (hl hC)
    split
    · have less : rest.length < ts.length := Nat.lt_of_succ_lt hlt
      exact (below rest less later).implication.bind fun g hg => .value hg
    · exact .value hl

end Levels

theorem answers_formula (n : Nat) :
    ∀ ts : List Token, ts.length = n → (C → constantsApart ts = true) →
      AnswersFormula C cx ts := by
  induction n using Nat.strongRecOn with
  | ind n ih =>
    intro ts hn h
    subst hn
    have below : Shorter C (AnswersFormula C cx) ts :=
      fun rest hlt hr => ih rest.length hlt rest rfl hr
    exact {
      primary := answers_primary h fun rest hlt hr => (below rest hlt hr).implication
      unary := answers_unary h below
      moreTemporal := answers_moreTemporal h below
      temporal := answers_temporal h below
      moreConjuncts := answers_moreConjuncts h below
      conjunction := answers_conjunction h below
      moreDisjuncts := answers_moreDisjuncts h below
      disjunction := answers_disjunction h below
      implication := answers_implication h below }

theorem answers_finished {α : Type} {n : Nat} {p : Parsed α n} :
    Answers C (fun _ => True) (finished cx p) := by
  unfold finished
  split
  · exact .value fun _ => trivial
  · exact .objection rfl

theorem answers_toConstraint (f : Formula) :
    Answers C (fun _ => True) f.toConstraint := by
  have list {fs : List Formula} (h : ∀ f ∈ fs, Answers C (fun _ => True) f.toConstraint) :
      Answers C (fun _ => True) (Formula.toConstraints fs) := by
    induction fs with
    | nil => exact .value fun _ => trivial
    | cons f fs ih =>
      obtain ⟨hf, hfs⟩ := List.forall_mem_cons.1 h
      rw [Formula.toConstraints]
      exact hf.bind fun _ _ => (ih hfs).bind fun _ _ => .value fun _ => trivial
  induction f using Formula.induct with
  | bool | atom => exact .value fun _ => trivial
  | not f ih => exact ih.bind fun _ _ => .value fun _ => trivial
  | and fs ih => exact (list ih).bind fun _ _ => .value fun _ => trivial
  | or fs ih => exact (list ih).bind fun _ _ => .value fun _ => trivial
  | implies l r ihl ihr =>
    exact ihl.bind fun _ _ => ihr.bind fun _ _ => .value fun _ => trivial
  | _ => exact .objection rfl

end Parser

/-! ## Whole texts -/

theorem Token.scanFrom_error {cs : List Char} {offset : Nat} {e : Failure}
    (h : scanFrom offset cs = .error e) : e.isA .unreadable = true := by
  induction hn : cs.length using Nat.strongRecOn generalizing cs offset with
  | ind n ih =>
    subst hn
    cases cs with
    | nil =>
      rw [scanFrom] at h
      cases h
    | cons c cs =>
      rw [scanFrom] at h
      split at h
      · exact ih _ (by simp) h rfl
      split at h
      · cases h
        rfl
      · obtain h | ⟨_, -, h⟩ := Attempt.bind_eq_error.1 h
        · exact ih _ (by simp only [List.length_cons, List.length_drop]; omega) h rfl
        · cases h

namespace Attempt

variable {α : Type}

def Responds (x : Attempt α) : Prop :=
  (∃ a, x = .ok a) ∨ ∃ e, x = .error e ∧ e.isA .unreadable = true

/-- Reading a text responds, or else there is no answer because a Boolean constant stands beside an
arithmetic operator. -/
def Concludes (cs : List Char) (x : Attempt α) : Prop :=
  x.Responds ∨ x = .error (.fault .booleanOperand) ∧
    ∃ ts, Token.scan cs = .ok ts ∧ Token.constantsApart ts = false

/-- Reading concludes if what is made of the tokens answers for sure where the constants are
apart. -/
theorem concludes_of_scan {cs : List Char} {read : List Token → Attempt α}
    (h : ∀ ts, Answers (Token.constantsApart ts = true) (fun _ => True) (read ts)) :
    Concludes cs (Token.scan cs >>= read) := by
  cases hs : Token.scan cs with
  | error e => exact Or.inl (Or.inr ⟨e, rfl, Token.scanFrom_error hs⟩)
  | ok ts =>
    rw [bind_ok]
    generalize hx : read ts = x
    cases hx ▸ h ts with
    | value => exact Or.inl (Or.inl ⟨_, rfl⟩)
    | objection he => exact Or.inl (Or.inr ⟨_, rfl, he⟩)
    | fault hn => exact Or.inr ⟨rfl, ts, hs, Bool.eq_false_iff.2 hn⟩

theorem not_responds_fault {f : Fault} : ¬ Responds (.error (.fault f) : Attempt α) := by
  rintro (⟨_, h⟩ | ⟨_, h, he⟩)
  · cases h
  · cases h
    cases he

end Attempt

/-- Whatever the characters and whatever the scope, reading a formula, a constraint or a term gives
a value or an objection. The one exception is arithmetic on Boolean constants. -/
theorem reading_concludes (scope : Scope) (cs : List Char) :
    (Formula.ofChars scope cs).Concludes cs ∧ (Term.constraintOfChars scope cs).Concludes cs ∧
      (Term.ofChars scope cs).Concludes cs := by
  refine ⟨Attempt.concludes_of_scan fun ts => ?_, Attempt.concludes_of_scan fun ts => ?_,
    Attempt.concludes_of_scan fun ts => ?_⟩
  · exact (Parser.answers_formula _ ts rfl id).implication.bind fun p _ => Parser.answers_finished
  · refine (Parser.answers_formula _ ts rfl id).implication.bind fun p _ => ?_
    exact Parser.answers_finished.bind fun f _ => Parser.answers_toConstraint f
  · exact (Parser.answers_sum id).bind fun p _ => Parser.answers_finished

/-! ## A text without an answer -/

def realScope : Scope := [("x", { sort := .real })]

theorem formula_difference :
    Formula.ofChars realScope "x - true > 0".toList = .error (.fault .booleanOperand) := by cbv

theorem constraint_difference :
    Term.constraintOfChars realScope "x - true > 0".toList = .error (.fault .booleanOperand) := by
  cbv

theorem term_difference :
    Term.ofChars realScope "x - true".toList = .error (.fault .booleanOperand) := by cbv

/-- No reader responds to the difference of a variable and a truth value. -/
theorem difference_unanswered :
    ¬ (∀ scope cs, (Formula.ofChars scope cs).Responds) ∧
      ¬ (∀ scope cs, (Term.constraintOfChars scope cs).Responds) ∧
      ¬ ∀ scope cs, (Term.ofChars scope cs).Responds := by
  refine ⟨fun h => ?_, fun h => ?_, fun h => ?_⟩
  · exact Attempt.not_responds_fault (formula_difference ▸ h _ _)
  · exact Attempt.not_responds_fault (constraint_difference ▸ h _ _)
  · exact Attempt.not_responds_fault (term_difference ▸ h _ _)

end HybridCheck
