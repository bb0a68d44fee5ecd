import HybridCheck.Formula.Basic
import HybridCheck.Proofs.Names
import HybridCheck.Proofs.Substitution

/-!
# Texts can be told apart

Atoms, guessed subformulas and constraints are keyed by their texts. The text of a term tells where
it ends, and the term itself up to what is not written in it: whether a constant or a sum counts as
an integer or as a real. Numbers, names and operator symbols are words, which end where a blank or a
parenthesis stands, and everything else is in parentheses. So two terms of one text have one value.
-/

namespace HybridCheck

namespace Rational

theorem mem_text {q : Rat} {c : Char} (h : c ∈ (text q).toList) :
    c.isDigit = true ∨ c = '-' ∨ c = '/' := by
  unfold text at h
  split at h
  · rcases mem_toList_int h with h | h
    · exact Or.inl h
    · exact Or.inr (Or.inl h)
  · simp only [String.toList_append, List.mem_append] at h
    rcases h with (h | h) | h
    · rcases mem_toList_int h with h | h
      · exact Or.inl h
      · exact Or.inr (Or.inl h)
    · exact Or.inr (Or.inr (by simpa using h))
    · exact Or.inl (isDigit_of_mem_repr h)

theorem toString_int_ne_nil (n : Int) : (toString n).toList ≠ [] := by
  cases n with
  | ofNat n =>
    have : (toString (Int.ofNat n)).toList = n.repr.toList := rfl
    rw [this, Nat.toList_repr]
    exact Nat.toDigits_ne_nil
  | negSucc n =>
    have : toString (Int.negSucc n) = "-" ++ (n + 1).repr := rfl
    rw [this, String.toList_append]
    simp

theorem text_ne_nil (q : Rat) : (text q).toList ≠ [] := by
  unfold text
  split
  · exact toString_int_ne_nil _
  · simp

theorem text_inj {q r : Rat} (h : text q = text r) : q = r := by
  have number {n : Int} : ∀ c ∈ (toString n).toList, (c != '/') = true := by
    intro c hc
    rcases mem_toList_int hc with h | rfl
    · refine bne_iff_ne.2 ?_
      rintro rfl
      cases h
    · rfl
  have cut (q : Rat) : ∃ rest, (text q).toList = (toString q.num).toList ++ rest ∧
      (∀ c ∈ rest.head?, (c != '/') = false) ∧
      ((q.den = 1 ∧ rest = []) ∨ rest = '/' :: (toString q.den).toList) := by
    unfold text
    split
    · next h => exact ⟨[], by simp, by simp, Or.inl ⟨h, rfl⟩⟩
    · exact ⟨'/' :: (toString q.den).toList, by simp, by simp, Or.inr rfl⟩
  obtain ⟨s, hs, hs', hden⟩ := cut q
  obtain ⟨s', ht, ht', hden'⟩ := cut r
  rw [h] at hs
  obtain ⟨hnum, rfl⟩ := cut_unique number number hs' ht' (hs.symm.trans ht)
  have hnum : q.num = r.num := Int.repr_inj.1 (String.toList_inj.1 hnum)
  have hden : q.den = r.den := by
    rcases hden with ⟨h1, rfl⟩ | rfl
    · rcases hden' with ⟨h2, -⟩ | h2
      · rw [h1, h2]
      · cases h2
    · rcases hden' with ⟨-, h2⟩ | h2
      · cases h2
      · injection h2 with _ h2
        exact (Nat.repr_inj.1 (String.toList_inj.1 h2))
  exact Rat.ext hnum hden

end Rational

/-- How a text may go on after a word. -/
def Ended (r : List Char) : Prop := ∀ c ∈ r.head?, c = ' ' ∨ c = ')'

def isWordChar (c : Char) : Bool := c != ' ' && c != '(' && c != ')'

/-- A text without blanks and parentheses. -/
def IsWord (s : List Char) : Prop := s ≠ [] ∧ ∀ c ∈ s, isWordChar c = true

theorem Ended.not_wordChar {r : List Char} (h : Ended r) : ∀ c ∈ r.head?, isWordChar c = false := by
  intro c hc
  rcases h c hc with rfl | rfl <;> rfl

theorem IsWord.unique {s s' r r' : List Char} (hs : IsWord s) (hs' : IsWord s') (hr : Ended r)
    (hr' : Ended r') (h : s ++ r = s' ++ r') : s = s' ∧ r = r' :=
  cut_unique hs.2 hs'.2 hr.not_wordChar hr'.not_wordChar h

theorem IsWord.ne_paren {s r r' : List Char} (hs : IsWord s) : s ++ r ≠ '(' :: r' := by
  obtain ⟨hne, hall⟩ := hs
  cases s with
  | nil => exact absurd rfl hne
  | cons c s =>
    intro h
    injection h with h
    have := hall c (by simp)
    rw [h] at this
    cases this

theorem isWordChar_of_isDigit {c : Char} (h : c.isDigit = true) : isWordChar c = true := by
  unfold isWordChar
  simp only [Bool.and_eq_true, bne_iff_ne]
  refine ⟨⟨?_, ?_⟩, ?_⟩ <;> (rintro rfl; cases h)

theorem isWord_of_digits {s : List Char} (hne : s ≠ [])
    (h : ∀ c ∈ s, c.isDigit = true ∨ c = '-' ∨ c = '/') : IsWord s := by
  refine ⟨hne, fun c hc => ?_⟩
  rcases h c hc with hd | rfl | rfl
  · exact isWordChar_of_isDigit hd
  · rfl
  · rfl

theorem isWord_of_identifier {name : String} (h : isIdentifier name = true) :
    IsWord name.toList ∧ ∃ c s, name.toList = c :: s ∧ isIdentStart c = true := by
  unfold isIdentifier at h
  split at h
  · cases h
  · next c s hs =>
    rw [Bool.and_eq_true, List.all_eq_true] at h
    have start {c : Char} (h : isIdentStart c = true) : isWordChar c = true := by
      unfold isWordChar
      simp only [Bool.and_eq_true, bne_iff_ne]
      refine ⟨⟨?_, ?_⟩, ?_⟩ <;> (rintro rfl; revert h; decide)
    have later {c : Char} (h : isIdentChar c = true) : isWordChar c = true := by
      unfold isWordChar
      simp only [Bool.and_eq_true, bne_iff_ne]
      refine ⟨⟨?_, ?_⟩, ?_⟩ <;> (rintro rfl; revert h; decide)
    refine ⟨⟨by rw [hs]; simp, fun d hd => ?_⟩, c, s, hs, h.1⟩
    rw [hs] at hd
    rcases List.mem_cons.1 hd with rfl | hd
    · exact start h.1
    · exact later (h.2 d hd)

def jumpMark : Char := Char.ofNat 39

/-- A word that a term may name a variable by: it begins like an identifier and has no mark of a
jump in it. -/
structure IsLabel (name : String) : Prop where
  word : IsWord name.toList
  start : ∃ c s, name.toList = c :: s ∧ isIdentStart c = true
  unmarked : ∀ c ∈ name.toList, c ≠ jumpMark

theorem isLabel_of_identifier {name : String} (h : isIdentifier name = true) : IsLabel name := by
  obtain ⟨word, start⟩ := isWord_of_identifier h
  refine ⟨word, start, ?_⟩
  unfold isIdentifier at h
  split at h
  · cases h
  · next c s hs =>
    rw [Bool.and_eq_true, List.all_eq_true] at h
    rw [hs]
    rintro d hd rfl
    rcases List.mem_cons.1 hd with rfl | hd
    · exact absurd h.1 (by decide)
    · exact absurd (h.2 _ hd) (by decide)

/-- Names that can be told apart from everything else in a term. -/
structure Legible (P : Var → Prop) : Prop where
  label : ∀ v, P v → IsLabel v.name
  constant : ∀ v, P v → v.name ≠ "true" ∧ v.name ≠ "false"
  unique : ∀ v w, P v → P w → v.name = w.name → v = w

def Operator.symbol? : Operator → Option String
  | .bool _ | .num .. => none
  | .not => some "not"
  | .and => some "and"
  | .or => some "or"
  | .implies => some "=>"
  | .ite => some "ite"
  | .cmp r => some r.text
  | .add _ => some "+"
  | .sub => some "-"
  | .mul _ => some "*"
  | .div => some "/"
  | .neg => some "-"

theorem Operator.mem_operators {o : Operator} {s : String} (h : o.symbol? = some s) :
    s ∈ Term.operators := by
  cases o with
  | bool | num => cases h
  | cmp r =>
    obtain rfl : r.text = s := Option.some.inj h
    cases r <;> simp [Relation.text, Term.operators]
  | _ =>
    simp only [symbol?, Option.some.injEq] at h
    simp [← h, Term.operators]

theorem Operator.isWord_symbol {o : Operator} {s : String} (h : o.symbol? = some s) :
    IsWord s.toList := by
  have word : ∀ s ∈ Term.operators, IsWord s.toList := by
    simp [IsWord, isWordChar, Term.operators]
  exact word s (mem_operators h)

namespace Term

section

variable (a b c : Term) (as : List Term)

@[simp] theorem text_var (v : Var) : (var v).text = v.name := rfl
@[simp] theorem text_bool (b : Bool) : (bool b).text = if b then "true" else "false" := rfl
@[simp] theorem text_num (s : NumSort) (q : Rat) : (num s q).text = Rational.text q := rfl
@[simp] theorem text_not : (not a).text = "(not " ++ a.text ++ ")" := rfl
@[simp] theorem text_and : (and as).text = "(and" ++ textAll as ++ ")" := rfl
@[simp] theorem text_or : (or as).text = "(or" ++ textAll as ++ ")" := rfl
@[simp] theorem text_implies : (implies a b).text = "(=> " ++ a.text ++ " " ++ b.text ++ ")" := rfl
@[simp] theorem text_ite :
    (ite c a b).text = "(ite " ++ c.text ++ " " ++ a.text ++ " " ++ b.text ++ ")" := rfl
@[simp] theorem text_cmp (r : Relation) :
    (cmp r a b).text = "(" ++ r.text ++ " " ++ a.text ++ " " ++ b.text ++ ")" := rfl
@[simp] theorem text_add (s : NumSort) : (add s as).text = "(+" ++ textAll as ++ ")" := rfl
@[simp] theorem text_sub : (sub a b).text = "(- " ++ a.text ++ " " ++ b.text ++ ")" := rfl
@[simp] theorem text_mul (s : NumSort) : (mul s as).text = "(*" ++ textAll as ++ ")" := rfl
@[simp] theorem text_div : (div a b).text = "(/ " ++ a.text ++ " " ++ b.text ++ ")" := rfl
@[simp] theorem text_neg : (neg a).text = "(- " ++ a.text ++ ")" := rfl
@[simp] theorem textAll_nil : textAll [] = "" := rfl
@[simp] theorem textAll_cons : textAll (a :: as) = " " ++ a.text ++ textAll as := rfl

end

theorem text_operator {t : Term} {o : Operator} {s : String} (ho : t.operator? = some o)
    (hs : o.symbol? = some s) :
    t.text.toList = '(' :: (s.toList ++ ((textAll t.operands).toList ++ [')'])) := by
  cases t <;> cases ho <;>
    simp only [Operator.symbol?, Option.some.injEq, reduceCtorEq] at hs <;> subst hs <;>
    simp [operands]

theorem text_quant (q : Quantifier) (v : Var) (body : Term) : (quant q v body).text.toList =
    '(' :: (q.text.toList ++ (' ' :: '(' :: '(' :: (v.name.toList ++ (' ' ::
      (v.sort.text.toList ++ (')' :: ')' :: ' ' :: (body.text.toList ++ [')']))))))) := by
  have : (quant q v body).text =
    "(" ++ q.text ++ " ((" ++ v.name ++ " " ++ v.sort.text ++ ")) " ++ body.text ++ ")" := rfl
  simp [this]

/-! ## What a text tells -/

mutual

/-- A term with everything that is not written in its text made uniform: constants are real, and
sums and products have the sort of their operands. -/
def canonical : Term → Term
  | var v => var v
  | bool b => bool b
  | num _ q => num .real q
  | next v => next v
  | not a => not (canonical a)
  | and as => and (canonicalAll as)
  | or as => or (canonicalAll as)
  | implies a b => implies (canonical a) (canonical b)
  | ite c a b => ite (canonical c) (canonical a) (canonical b)
  | cmp r a b => cmp r (canonical a) (canonical b)
  | add _ as => add (arithSort (canonicalAll as)) (canonicalAll as)
  | sub a b => sub (canonical a) (canonical b)
  | mul _ as => mul (arithSort (canonicalAll as)) (canonicalAll as)
  | div a b => div (canonical a) (canonical b)
  | neg a => neg (canonical a)
  | quant q v body => quant q v (canonical body)
  | integral seg => integral seg
  | throughout seg body => throughout seg body

def canonicalAll : List Term → List Term
  | [] => []
  | a :: as => canonical a :: canonicalAll as

end

theorem canonicalAll_eq (as : List Term) : canonicalAll as = as.map canonical := by
  induction as with
  | nil => rfl
  | cons a as ih => rw [canonicalAll, ih, List.map_cons]

/-- The canonical term with an operator symbol and given operands. -/
def compose (s : String) (as : List Term) : Term :=
  if s = "and" then and as
  else if s = "or" then or as
  else if s = "+" then add (arithSort as) as
  else if s = "*" then mul (arithSort as) as
  else
    match as with
    | [a] => if s = "not" then not a else neg a
    | [a, b] =>
      if s = "=>" then implies a b
      else if s = "-" then sub a b
      else if s = "/" then div a b
      else if s = "=" then cmp .eq a b
      else if s = "<" then cmp .lt a b
      else if s = "<=" then cmp .le a b
      else if s = ">" then cmp .gt a b
      else cmp .ge a b
    | [c, a, b] => ite c a b
    | _ => bot

theorem canonical_of_symbol {t : Term} {o : Operator} {s : String} (ho : t.operator? = some o)
    (hs : o.symbol? = some s) : t.canonical = compose s (t.operands.map canonical) := by
  cases t <;> cases ho <;>
    simp only [Operator.symbol?, Option.some.injEq, reduceCtorEq] at hs <;> subst hs
  case cmp r a b => cases r <;> simp [canonical, compose, operands, Relation.text]
  all_goals simp [canonical, canonicalAll_eq, compose, operands]

theorem eval_canonical {t : Term} (h : t.flowFree = true) (ρ : Env) :
    t.canonical.eval ρ = t.eval ρ := by
  induction t, h using flowFree_induct generalizing ρ with
  | operator t o ho _ _ ih =>
    have values : (t.operands.map canonical).map (·.eval ρ) = t.operands.map (·.eval ρ) := by
      rw [List.map_map]
      exact List.map_congr_left fun a ha => ih a ha ρ
    have same : ∃ o', t.canonical.operator? = some o' ∧
        t.canonical.operands = t.operands.map canonical ∧ ∀ xs, o'.apply xs = o.apply xs := by
      cases t <;> cases ho <;>
        refine ⟨_, rfl, by simp [canonical, canonicalAll_eq, operands], fun xs => rfl⟩
    obtain ⟨o', ho', operands, apply⟩ := same
    rw [eval_operator ho', operands, values, apply, eval_operator ho]
  | var v => rfl
  | next v => rfl
  | quant q v body _ _ ih => cases q <;> simp only [canonical, eval, ih]

abbrev BuiltOver (P : Var → Prop) : Term → Prop := Over P (fun _ => False) fun _ => False

def label? : Term → Option Var
  | var v | next v | quant _ v _ => some v
  | _ => none

/-- A term without flow primitives that names certain variables only. -/
structure Names (P : Var → Prop) (t : Term) : Prop where
  flowFree : t.flowFree = true
  labels : ∀ n ∈ t.subterms, ∀ v ∈ n.label?, P v

def IsLeaf (P : Var → Prop) (t : Term) : Prop :=
  (∃ v, P v ∧ (t = var v ∨ t = next v)) ∨ (∃ b, t = bool b) ∨ ∃ s q, t = num s q

variable {P : Var → Prop}

theorem Names.operand {t a : Term} {o : Operator} (ho : t.operator? = some o) (h : Names P t)
    (ha : a ∈ t.operands) : Names P a where
  flowFree := (hereditary_flowFree t o ho).1 h.flowFree a ha
  labels n hn := h.labels n ((mem_subterms_operator ho).2 (Or.inr ⟨a, ha, hn⟩))

theorem Names.body {q : Quantifier} {v : Var} {body : Term} (h : Names P (quant q v body)) :
    P v ∧ Names P body :=
  ⟨h.labels _ (self_mem_subterms _) v rfl, by simpa using h.flowFree,
    fun n hn => h.labels n (by simp [hn])⟩

theorem Names.subterm {t n : Term} (h : Names P t) (hn : n ∈ t.subterms) : Names P n := by
  have hflow := h.flowFree
  induction t, hflow using flowFree_induct with
  | operator t o ho _ _ ih =>
    rcases (mem_subterms_operator ho).1 hn with rfl | ⟨a, ha, hn⟩
    · exact h
    · exact ih a ha (h.operand ho ha) hn
  | var v => exact List.mem_singleton.1 hn ▸ h
  | next v => exact List.mem_singleton.1 hn ▸ h
  | quant q v body _ _ ih =>
    rw [subterms_quant] at hn
    rcases List.mem_cons.1 hn with rfl | hn
    · exact h
    · exact ih h.body.2 hn

theorem BuiltOver.names {t : Term} (h : BuiltOver P t) : Names P t := by
  refine ⟨h.flowFree fun _ h => h.elim, ?_⟩
  induction h with
  | var h => simpa [label?] using h
  | next h => exact h.elim
  | whole h => exact h.elim
  | operator ho _ ih =>
    intro n hn v hv
    rcases (mem_subterms_operator ho).1 hn with rfl | ⟨a, ha, hn⟩
    · cases n <;> first | (cases ho; done) | cases hv
    · exact ih a ha n hn v hv

/-- What is made uniform is not written in the text. -/
theorem text_canonical (t : Term) : t.canonical.text = t.text := by
  have all {as : List Term} (ih : ∀ a ∈ as, a.canonical.text = a.text) :
      textAll (canonicalAll as) = textAll as := by
    induction as with
    | nil => rfl
    | cons a as ih' =>
      rw [canonicalAll, textAll_cons, textAll_cons, ih a (by simp),
        ih' fun a ha => ih a (by simp [ha])]
  induction t using Term.induct with
  | operator t o ho ih =>
    cases t with
    | and | or | add | mul => simpa [canonical, operands] using all ih
    | bool | num => rfl
    | var | next | quant | integral | throughout => cases ho
    | _ => simp_all [canonical, operands]
  | var | next | integral | throughout => rfl
  | quant q v body ih =>
    rw [canonical, ← String.toList_inj, text_quant, text_quant, ih]

def IsSimple (P : Var → Prop) (t : Term) : Prop :=
  (∃ v, P v ∧ t = var v) ∨ (∃ b, t = bool b) ∨ ∃ s q, t = num s q

theorem IsSimple.leaf {t : Term} (h : IsSimple P t) : IsLeaf P t :=
  h.imp (fun ⟨v, hv, ht⟩ => ⟨v, hv, Or.inl ht⟩) id

/-- A term that is built by operators is simple or an operator with a symbol. -/
theorem BuiltOver.cases {t : Term} (h : BuiltOver P t) : IsSimple P t ∨
    ∃ o s, t.operator? = some o ∧ o.symbol? = some s ∧ ∀ a ∈ t.operands, BuiltOver P a := by
  induction h with
  | var h => exact Or.inl (Or.inl ⟨_, h, rfl⟩)
  | next h => exact h.elim
  | whole h => exact h.elim
  | @operator t o ho operands =>
    cases t with
    | bool b => exact Or.inl (Or.inr (Or.inl ⟨b, rfl⟩))
    | num s q => exact Or.inl (Or.inr (Or.inr ⟨s, q, rfl⟩))
    | var | next | quant | integral | throughout => cases ho
    | _ => exact Or.inr ⟨_, _, rfl, rfl, operands⟩

/-- A term is a leaf, an operator with a symbol or a quantifier. -/
theorem Names.cases {t : Term} (h : Names P t) : IsLeaf P t ∨
    (∃ o s, t.operator? = some o ∧ o.symbol? = some s) ∨ ∃ q v body, t = quant q v body := by
  have flow := List.all_eq_true.1 h.flowFree t (self_mem_subterms t)
  cases t with
  | var v => exact Or.inl (Or.inl ⟨v, h.labels _ (self_mem_subterms _) v rfl, Or.inl rfl⟩)
  | next v => exact Or.inl (Or.inl ⟨v, h.labels _ (self_mem_subterms _) v rfl, Or.inr rfl⟩)
  | bool b => exact Or.inl (Or.inr (Or.inl ⟨b, rfl⟩))
  | num s q => exact Or.inl (Or.inr (Or.inr ⟨s, q, rfl⟩))
  | quant q v body => exact Or.inr (Or.inr ⟨q, v, body, rfl⟩)
  | integral | throughout => cases flow
  | _ => exact Or.inr (Or.inl ⟨_, _, rfl, rfl⟩)

/-- A number is written with other characters than names begin with. -/
theorem text_num_ne {name : String} {c : Char} {s : List Char} (hs : name.toList = c :: s)
    (hc : isIdentStart c = true) (q : Rat) : Rational.text q ≠ name := by
  intro h
  have := Rational.mem_text (q := q) (c := c) (by rw [h, hs]; simp)
  rcases this with hd | rfl | rfl
  · simp only [Char.isDigit, isIdentStart, Bool.or_eq_true, Bool.and_eq_true, decide_eq_true_eq,
      Char.le_def, UInt32.le_iff_toNat_le, ge_iff_le] at hd hc
    rcases hc with (hc | hc) | rfl
    · have : 'A'.val.toNat = 65 := rfl
      have : '9'.val.toNat = 57 := rfl
      omega
    · have : 'a'.val.toNat = 97 := rfl
      have : '9'.val.toNat = 57 := rfl
      omega
    · revert hd
      decide
  · cases hc
  · cases hc

theorem text_next (v : Var) : (next v).text.toList = v.name.toList ++ [jumpMark] := by
  have : (next v).text = v.name ++ "'" := rfl
  rw [this, String.toList_append]
  rfl

section

variable (hP : Legible P)
include hP

theorem IsLeaf.isWord {t : Term} (h : IsLeaf P t) : IsWord t.text.toList := by
  obtain ⟨v, hv, rfl | rfl⟩ | ⟨b, rfl⟩ | ⟨s, q, rfl⟩ := h
  · exact (hP.label v hv).word
  · rw [text_next]
    refine ⟨by simp, fun c hc => ?_⟩
    rcases List.mem_append.1 hc with hc | hc
    · exact (hP.label v hv).word.2 c hc
    · obtain rfl : c = jumpMark := by simpa using hc
      rfl
  · cases b <;> simp [IsWord, isWordChar]
  · exact isWord_of_digits (Rational.text_ne_nil q) fun c => Rational.mem_text

/-- A reference after a jump is not written like anything else. -/
theorem text_next_ne {v : Var} {t : Term} (ht : IsLeaf P t) (hne : ∀ w, t ≠ next w) :
    (next v).text ≠ t.text := by
  intro h
  have marked : jumpMark ∈ t.text.toList := by
    rw [← h, text_next]
    simp
  obtain ⟨w, hw, rfl | rfl⟩ | ⟨b, rfl⟩ | ⟨s, q, rfl⟩ := ht
  · exact (hP.label w hw).unmarked _ marked rfl
  · exact hne w rfl
  · revert marked
    cases b <;> decide
  · rcases Rational.mem_text marked with h | h | h
    · exact absurd h (by decide)
    · exact absurd h (by decide)
    · exact absurd h (by decide)

/-- The text of a leaf tells the leaf. -/
theorem IsLeaf.canonical_eq {t u : Term} (ht : IsLeaf P t) (hu : IsLeaf P u)
    (h : t.text = u.text) : t.canonical = u.canonical := by
  have name (v : Var) (hv : P v) (b : Bool) : v.name ≠ (bool b).text := by
    obtain ⟨h1, h2⟩ := hP.constant v hv
    cases b
    · exact h2
    · exact h1
  have digits (v : Var) (hv : P v) (q : Rat) : Rational.text q ≠ v.name := by
    obtain ⟨c, s, hs, hc⟩ := (hP.label v hv).start
    exact text_num_ne hs hc q
  have truth (b : Bool) (q : Rat) : Rational.text q ≠ (bool b).text := by
    cases b
    · exact text_num_ne (c := 'f') rfl rfl q
    · exact text_num_ne (c := 't') rfl rfl q
  have hu' := hu
  have ht' := ht
  obtain ⟨v, hv, rfl | rfl⟩ | ⟨b, rfl⟩ | ⟨s, q, rfl⟩ := ht
  · obtain ⟨w, hw, rfl | rfl⟩ | ⟨b, rfl⟩ | ⟨s, q, rfl⟩ := hu
    · rw [hP.unique v w hv hw h]
    · exact absurd h.symm (text_next_ne hP ht' nofun)
    · exact absurd h (name v hv b)
    · exact absurd h.symm (digits v hv q)
  · obtain ⟨w, hw, rfl | rfl⟩ | ⟨b, rfl⟩ | ⟨s, q, rfl⟩ := hu
    · exact absurd h (text_next_ne hP hu' nofun)
    · have htext := congrArg String.toList h
      rw [text_next, text_next] at htext
      rw [hP.unique v w hv hw (String.toList_inj.1 (List.append_cancel_right htext))]
    · exact absurd h (text_next_ne hP hu' nofun)
    · exact absurd h (text_next_ne hP hu' nofun)
  · obtain ⟨w, hw, rfl | rfl⟩ | ⟨b', rfl⟩ | ⟨s, q, rfl⟩ := hu
    · exact absurd h.symm (name w hw b)
    · exact absurd h.symm (text_next_ne hP ht' nofun)
    · cases b <;> cases b' <;> simp at h <;> rfl
    · exact absurd h.symm (truth b q)
  · obtain ⟨w, hw, rfl | rfl⟩ | ⟨b', rfl⟩ | ⟨s', q', rfl⟩ := hu
    · exact absurd h (digits w hw q)
    · exact absurd h.symm (text_next_ne hP ht' nofun)
    · exact absurd h (truth b' q)
    · obtain rfl := Rational.text_inj h
      rfl

end

theorem ended_textAll (as : List Term) (r : List Char) :
    Ended ((textAll as).toList ++ (')' :: r)) := by
  intro c hc
  cases as with
  | nil => exact Or.inr (by simpa using hc.symm)
  | cons a as => exact Or.inl (by simpa using hc.symm)

/-- Texts of operands are told apart if the text of each operand is. -/
theorem textAll_unique {as bs : List Term} {r r' : List Char}
    (ih : ∀ a ∈ as, ∀ b ∈ bs, ∀ r r' : List Char, Ended r → Ended r' →
      a.text.toList ++ r = b.text.toList ++ r' → a.canonical = b.canonical ∧ r = r')
    (h : (textAll as).toList ++ (')' :: r) = (textAll bs).toList ++ (')' :: r')) :
    as.map canonical = bs.map canonical ∧ r = r' := by
  induction as generalizing bs with
  | nil =>
    cases bs with
    | nil => exact ⟨rfl, by simpa using h⟩
    | cons b bs => simp at h
  | cons a as ih' =>
    cases bs with
    | nil => simp at h
    | cons b bs =>
      simp only [textAll_cons, String.toList_append, List.append_assoc] at h
      have h := List.append_cancel_left h
      obtain ⟨hab, h⟩ := ih a (by simp) b (by simp) _ _ (ended_textAll as r) (ended_textAll bs r') h
      obtain ⟨hmap, h⟩ := ih' (fun a ha b hb => ih a (by simp [ha]) b (by simp [hb])) h
      exact ⟨by rw [List.map_cons, List.map_cons, hab, hmap], h⟩

/-- Everything but a leaf is in parentheses and begins with a word. -/
theorem exists_head {t : Term} (h : (∃ o s, t.operator? = some o ∧ o.symbol? = some s) ∨
    ∃ q v body, t = quant q v body) : ∃ s, t.text.toList = '(' :: s := by
  obtain ⟨o, s, ho, hs⟩ | ⟨q, v, body, rfl⟩ := h
  · exact ⟨_, text_operator ho hs⟩
  · exact ⟨_, text_quant q v body⟩

theorem IsLeaf.text_unique (hP : Legible P) {t u : Term} (ht : IsLeaf P t) (hu : Names P u)
    {r r' : List Char} (hr : Ended r) (hr' : Ended r')
    (h : t.text.toList ++ r = u.text.toList ++ r') : t.canonical = u.canonical ∧ r = r' := by
  rcases hu.cases with leaf | other
  · obtain ⟨htext, hrest⟩ := (ht.isWord hP).unique (leaf.isWord hP) hr hr' h
    exact ⟨ht.canonical_eq hP leaf (String.toList_inj.1 htext), hrest⟩
  · obtain ⟨s, hs⟩ := exists_head other
    rw [hs, List.cons_append] at h
    exact absurd h (ht.isWord hP).ne_paren

theorem isWord_quantifier (q : Quantifier) : IsWord q.text.toList := by
  cases q <;> simp [IsWord, isWordChar, Quantifier.text]

theorem symbol_ne_quantifier {o : Operator} {s : String} (hs : o.symbol? = some s)
    (q : Quantifier) : s ≠ q.text := by
  rintro rfl
  cases o with
  | cmp r => cases r <;> cases q <;> simp [Operator.symbol?, Relation.text, Quantifier.text] at hs
  | _ => cases q <;> simp [Operator.symbol?, Quantifier.text] at hs

theorem quantifier_text_inj {q q' : Quantifier} (h : q.text = q'.text) : q = q' := by
  cases q <;> cases q' <;> simp [Quantifier.text] at h ⊢

theorem ended_blank (r : List Char) : Ended (' ' :: r) := by simp [Ended]

theorem ended_paren (r : List Char) : Ended (')' :: r) := by simp [Ended]

/-- The text of a term tells where it ends and, up to what is not written, which term it is. -/
theorem text_unique (hP : Legible P) {t u : Term} (ht : Names P t) (hu : Names P u)
    {r r' : List Char} (hr : Ended r) (hr' : Ended r')
    (h : t.text.toList ++ r = u.text.toList ++ r') : t.canonical = u.canonical ∧ r = r' := by
  have hflow := ht.flowFree
  induction t, hflow using flowFree_induct generalizing u r r' with
  | var v =>
    exact IsLeaf.text_unique hP (Or.inl ⟨v, ht.labels _ (self_mem_subterms _) v rfl, Or.inl rfl⟩)
      hu hr hr' h
  | next v =>
    exact IsLeaf.text_unique hP (Or.inl ⟨v, ht.labels _ (self_mem_subterms _) v rfl, Or.inr rfl⟩)
      hu hr hr' h
  | operator t o ho _ _ ih =>
    rcases ht.cases with leaf | ⟨o, s, ho, hs⟩ | ⟨q, v, body, rfl⟩
    · exact leaf.text_unique hP hu hr hr' h
    · rcases hu.cases with leaf' | ⟨o', s', ho', hs'⟩ | ⟨q, v, body, rfl⟩
      · obtain ⟨hcanonical, hrest⟩ := leaf'.text_unique hP ht hr' hr h.symm
        exact ⟨hcanonical.symm, hrest.symm⟩
      · rw [text_operator ho hs, text_operator ho' hs'] at h
        simp only [List.cons_append, List.append_assoc, List.nil_append, List.cons.injEq,
          true_and] at h
        obtain ⟨hsymbol, hargs⟩ := (Operator.isWord_symbol hs).unique (Operator.isWord_symbol hs')
          (ended_textAll _ r) (ended_textAll _ r') h
        obtain ⟨hargs, hrest⟩ := textAll_unique (fun a ha b hb _ _ hr hr' h =>
          ih a ha (ht.operand ho ha) (hu.operand ho' hb) hr hr' h) hargs
        rw [String.toList_inj.1 hsymbol] at hs
        exact ⟨by rw [canonical_of_symbol ho hs, canonical_of_symbol ho' hs', hargs], hrest⟩
      · rw [text_operator ho hs, text_quant] at h
        simp only [List.cons_append, List.append_assoc, List.nil_append, List.cons.injEq,
          true_and] at h
        obtain ⟨hsymbol, -⟩ := (Operator.isWord_symbol hs).unique (isWord_quantifier q)
          (ended_textAll _ r) (ended_blank _) h
        exact absurd (String.toList_inj.1 hsymbol) (symbol_ne_quantifier hs q)
    · cases ho
  | quant q v body _ _ ih =>
    rcases hu.cases with leaf | ⟨o, s, ho, hs⟩ | ⟨q', v', body', rfl⟩
    · obtain ⟨hcanonical, hrest⟩ := leaf.text_unique hP ht hr' hr h.symm
      exact ⟨hcanonical.symm, hrest.symm⟩
    · rw [text_operator ho hs, text_quant] at h
      simp only [List.cons_append, List.append_assoc, List.nil_append, List.cons.injEq,
        true_and] at h
      obtain ⟨hsymbol, -⟩ := (isWord_quantifier q).unique (Operator.isWord_symbol hs)
        (ended_blank _) (ended_textAll _ r') h
      exact absurd (String.toList_inj.1 hsymbol).symm (symbol_ne_quantifier hs q)
    · rw [text_quant, text_quant] at h
      simp only [List.cons_append, List.append_assoc, List.nil_append, List.cons.injEq,
        true_and] at h
      obtain ⟨hq, hrest⟩ := (isWord_quantifier q).unique (isWord_quantifier q') (ended_blank _)
        (ended_blank _) h
      obtain rfl := quantifier_text_inj (String.toList_inj.1 hq)
      simp only [List.cons.injEq, true_and] at hrest
      obtain ⟨hv, hbody⟩ := ht.body
      obtain ⟨hv', hbody'⟩ := hu.body
      obtain ⟨hname, hrest⟩ := (hP.label v hv).word.unique (hP.label v' hv').word (ended_blank _)
        (ended_blank _) hrest
      obtain rfl := hP.unique v v' hv hv' (String.toList_inj.1 hname)
      simp only [List.cons.injEq, List.append_cancel_left_eq, true_and] at hrest
      obtain ⟨hcanonical, hrest⟩ := ih hbody hbody' (ended_paren _) (ended_paren _) hrest
      exact ⟨by rw [canonical, canonical, hcanonical], (List.cons.inj hrest).2⟩

/-- Terms of one text are one term up to what is not written. -/
theorem canonical_of_text (hP : Legible P) {t u : Term} (ht : Names P t) (hu : Names P u)
    (h : t.text = u.text) : t.canonical = u.canonical :=
  have ended : Ended [] := nofun
  (text_unique hP ht hu ended ended (by rw [h])).1

end Term

end HybridCheck
