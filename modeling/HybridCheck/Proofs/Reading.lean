import HybridCheck.Formula.Parser
import HybridCheck.Proofs.Keeping
import HybridCheck.Proofs.Regular

/-!
# What is read is regular

The formulas that the reader makes of a text are regular over the names in scope. Numbers are read
without a sign, so windows begin now or later; every name is looked up in the scope before it
becomes a variable or a proposition; and a row of formulas becomes a conjunction or disjunction only
if there are two of them. Sums and products are read two operands at a time and every constant is
real, so the sorts in a term are those that its text tells. The argument goes by the number of
tokens, at every level of the grammar at once.
-/

namespace HybridCheck

/-! ## Numbers -/

namespace Rational

theorem power_nonneg (base : Nat) (e : Int) : 0 ≤ power base e := by
  unfold power
  cases e with
  | ofNat n =>
    exact Rat.mkRat_nonneg (by exact_mod_cast Nat.zero_le _) _
  | negSucc n => exact Rat.mkRat_nonneg (by decide) _

theorem ofNumber?_nonneg {cs : List Char} {q : Rat} (hsign : (readSign cs).1 = false)
    (h : ofNumber? cs = some q) : 0 ≤ q := by
  unfold ofNumber? at h
  rcases hs : readSign cs with ⟨negative, cs'⟩
  rw [hs] at hsign
  obtain rfl : negative = false := hsign
  rw [hs] at h
  simp only [Option.bind_eq_bind, Option.bind_eq_some_iff] at h
  obtain ⟨m, -, e, -, h⟩ := h
  split at h
  · cases h
  · split at h
    · cases h
      rfl
    · split at h
      · cases h
      · cases h
        refine mul_nonneg (mul_nonneg ?_ (power_nonneg _ _)) (power_nonneg _ _)
        simp [signed]

/-- A number without a sign is not negative. -/
theorem ofText?_nonneg {s : String} {q : Rat} (hs : ∀ c ∈ s.toList, Token.isNumeric c = true)
    (h : ofText? s = some q) : 0 ≤ q := by
  unfold ofText? ofChars? at h
  have bar : '/' ∉ s.toList := fun hm => by cases hs _ hm
  rw [if_neg bar] at h
  refine ofNumber?_nonneg ?_ h
  cases hcs : s.toList with
  | nil => rfl
  | cons c cs =>
    have hc := hs c (by simp [hcs])
    unfold readSign
    split
    · next heq =>
      injection heq with h1
      subst h1
      cases hc
    · rfl
    · rfl

end Rational

/-! ## Tokens -/

namespace Token

/-- A number token has only digits and points in it. -/
def Plain (t : Token) : Prop :=
  t.kind = .number → ∀ c ∈ t.text.toList, isNumeric c = true

theorem isNumeric_take (cs : List Char) : ∀ c ∈ cs.take (numberLength cs), isNumeric c = true := by
  induction cs with
  | nil => simp
  | cons c cs ih =>
    rw [numberLength]
    split
    · next h => simpa using ⟨h, ih⟩
    · simp

theorem plain_of_extent {c : Char} {cs : List Char} {kind : TokenKind} {n offset : Nat}
    (h : extent? c cs = some (kind, n)) :
    Plain ⟨kind, String.ofList (c :: cs.take n), offset⟩ := by
  intro hk d hd
  obtain rfl : kind = .number := hk
  unfold extent? at h
  split at h
  · cases h
  · split at h
    · next hc =>
      cases h
      rw [String.toList_ofList] at hd
      rcases List.mem_cons.1 hd with rfl | hd
      · exact hc
      · exact isNumeric_take cs d hd
    · obtain ⟨s, -, h⟩ := Option.map_eq_some_iff.1 h
      cases h

/-- What holds of each token when it is cut holds of all tokens of a text. -/
theorem forall_of_scanFrom {P : Token → Prop}
    (hP : ∀ c cs kind n offset, extent? c cs = some (kind, n) →
      P ⟨kind, String.ofList (c :: cs.take n), offset⟩)
    {cs : List Char} {offset : Nat} {ts : List Token} (h : scanFrom offset cs = .ok ts) :
    ∀ t ∈ ts, P t := by
  induction hn : cs.length using Nat.strongRecOn generalizing cs offset ts with
  | ind n ih =>
    subst hn
    cases cs with
    | nil =>
      rw [scanFrom] at h
      cases h
      simp
    | cons c cs =>
      rw [scanFrom] at h
      split at h
      · exact ih _ (by simp) h rfl
      · split at h
        · cases h
        · next kind n he =>
          obtain ⟨rest, hrest, h⟩ := Attempt.bind_eq_ok.1 h
          cases h
          have later := ih _ (by simp only [List.length_cons, List.length_drop]; omega) hrest rfl
          intro t ht
          rcases List.mem_cons.1 ht with rfl | ht
          · exact hP _ _ _ _ _ he
          · exact later t ht

theorem plain_of_scanFrom {cs : List Char} {offset : Nat} {ts : List Token}
    (h : scanFrom offset cs = .ok ts) : ∀ t ∈ ts, t.Plain :=
  forall_of_scanFrom (fun _ _ _ _ _ => plain_of_extent) h

end Token

/-! ## Canonical terms -/

namespace Term

variable {H : Term → Prop} {a b u : Term}

theorem canonical_num {s : NumSort} {q : Rat} (h : (num s q).canonical = num s q) : s = .real := by
  cases h
  rfl

theorem arithSort_of_mem {q : Rat} {as : List Term} (h : Term.num .real q ∈ as) :
    arithSort as = .real := by
  have : as.any (fun a => a.sort = .real) = true := List.any_eq_true.2 ⟨_, h, rfl⟩
  rw [arithSort, if_pos this]

/-- Two operands, each a number or not. -/
theorem splitNumbers_pair {qs : List Rat} {rest : List Term}
    (h : splitNumbers [a, b] = .ok (qs, rest)) :
    (∃ s x t y, a = .num s x ∧ b = .num t y ∧ qs = [x, y] ∧ rest = []) ∨
      (∃ s x, a = .num s x ∧ qs = [x] ∧ rest = [b]) ∨
      (∃ t y, b = .num t y ∧ qs = [y] ∧ rest = [a]) ∨ (qs = [] ∧ rest = [a, b]) := by
  obtain ⟨qs', rest', hs, ha⟩ := splitNumbers_cons h
  obtain ⟨_, _, hnil, hb⟩ := splitNumbers_cons hs
  cases hnil
  rcases hb with ⟨t, y, hb, rfl, rfl⟩ | ⟨rfl, rfl⟩
  · rcases ha with ⟨s, x, ha, rfl, rfl⟩ | ⟨rfl, rfl⟩
    · exact Or.inl ⟨s, x, t, y, ha, hb, rfl, rfl⟩
    · exact Or.inr (Or.inr (Or.inl ⟨t, y, hb, rfl, rfl⟩))
  · rcases ha with ⟨s, x, ha, rfl, rfl⟩ | ⟨rfl, rfl⟩
    · exact Or.inr (Or.inl ⟨s, x, ha, rfl, rfl⟩)
    · exact Or.inr (Or.inr (Or.inr ⟨rfl, rfl⟩))

theorem canonicalAll_self {as : List Term} (h : ∀ a ∈ as, a.canonical = a) :
    canonicalAll as = as := by
  rw [canonicalAll_eq]
  exact (List.map_congr_left h).trans (List.map_id' as)

theorem canonical_add {s : NumSort} {as : List Term} (hs : arithSort as = s)
    (h : ∀ a ∈ as, a.canonical = a) : (add s as).canonical = add s as := by
  rw [canonical, canonicalAll_self h, hs]

theorem canonical_mul {s : NumSort} {as : List Term} (hs : arithSort as = s)
    (h : ∀ a ∈ as, a.canonical = a) : (mul s as).canonical = mul s as := by
  rw [canonical, canonicalAll_self h, hs]

section

variable (ha : a.canonical = a) (hb : b.canonical = b)
include ha hb

/-- The numbers of two operands are real, and what is kept of the operands has their sort unless
only one of them is left. -/
theorem canonical_pair {qs : List Rat} {rest : List Term}
    (h : splitNumbers [a, b] = .ok (qs, rest)) : (∀ c ∈ rest, c.canonical = c) ∧
      ((arithSort [a, b] = .real ∧ rest.length ≤ 1) ∨ (qs = [] ∧ rest = [a, b])) := by
  rcases splitNumbers_pair h with ⟨s, x, t, y, rfl, rfl, rfl, rfl⟩ | ⟨s, x, rfl, rfl, rfl⟩ |
    ⟨t, y, rfl, rfl, rfl⟩ | ⟨rfl, rfl⟩
  · cases canonical_num ha
    exact ⟨by simp, Or.inl ⟨arithSort_of_mem (q := x) (by simp), by simp⟩⟩
  · cases canonical_num ha
    exact ⟨by simpa using hb, Or.inl ⟨arithSort_of_mem (q := x) (by simp), by simp⟩⟩
  · cases canonical_num hb
    exact ⟨by simpa using ha, Or.inl ⟨arithSort_of_mem (q := y) (by simp), by simp⟩⟩
  · exact ⟨by simpa using ⟨ha, hb⟩, Or.inr ⟨rfl, rfl⟩⟩

theorem canonical_mkAdd (hu : mkAdd [a, b] = .ok u) : u.canonical = u := by
  obtain ⟨⟨qs, rest⟩, hs, hu⟩ := Attempt.bind_eq_ok.1 hu
  obtain ⟨hrest, ⟨hsort, hlen⟩ | ⟨rfl, rfl⟩⟩ := canonical_pair ha hb hs
  · rw [hsort] at hu
    dsimp only at hu
    by_cases kept : qs.foldr (· + ·) 0 ≠ 0 ∨ rest.isEmpty
    · rw [if_pos kept] at hu
      rcases rest with _ | ⟨c, _ | ⟨d, rest⟩⟩
      · cases hu
        rfl
      · cases hu
        refine canonical_add (arithSort_of_mem (q := qs.foldr (· + ·) 0) (by simp)) ?_
        simpa [canonical] using hrest
      · simp at hlen
    · rw [if_neg kept] at hu
      rcases rest with _ | ⟨c, _ | ⟨d, rest⟩⟩
      · simp at kept
      · cases hu
        exact hrest _ (by simp)
      · simp at hlen
  · cases hu
    exact canonical_add rfl hrest

theorem canonical_mkMul (hu : mkMul [a, b] = .ok u) : u.canonical = u := by
  obtain ⟨⟨qs, rest⟩, hs, hu⟩ := Attempt.bind_eq_ok.1 hu
  obtain ⟨hrest, ⟨hsort, hlen⟩ | ⟨rfl, rfl⟩⟩ := canonical_pair ha hb hs
  · rw [hsort] at hu
    dsimp only at hu
    split at hu
    · cases hu
      rfl
    by_cases kept : qs.foldr (· * ·) 1 ≠ 1 ∨ rest.isEmpty
    · rw [if_pos kept] at hu
      rcases rest with _ | ⟨c, _ | ⟨d, rest⟩⟩
      · cases hu
        rfl
      · cases hu
        refine canonical_mul (arithSort_of_mem (q := qs.foldr (· * ·) 1) (by simp)) ?_
        simpa [canonical] using hrest
      · simp at hlen
    · rw [if_neg kept] at hu
      rcases rest with _ | ⟨c, _ | ⟨d, rest⟩⟩
      · simp at kept
      · cases hu
        exact hrest _ (by simp)
      · simp at hlen
  · dsimp only at hu
    rw [if_neg (by simp)] at hu
    cases hu
    exact canonical_mul rfl hrest

theorem canonical_mkSub (hu : mkSub a b = .ok u) : u.canonical = u := by
  have plain : (sub a b).canonical = sub a b := by rw [canonical, ha, hb]
  unfold Term.mkSub at hu
  split at hu
  · cases hu
  · split at hu
    · cases hu
      exact ha
    · split at hu
      · cases hu
      · cases hu
        cases canonical_num ha
        rw [arithSort_of_mem List.mem_cons_self]
        rfl
      · cases hu
        exact plain
  · cases hu
    exact plain

theorem canonical_mkDiv (hu : mkDiv a b = .ok u) : u.canonical = u := by
  have plain : (div a b).canonical = div a b := by rw [canonical, ha, hb]
  unfold Term.mkDiv at hu
  split at hu
  · cases hu
  · split at hu
    · cases hu
      exact plain
    · split at hu
      · cases hu
      · cases hu
        rfl
      · split at hu
        · cases hu
          exact ha
        · cases hu
          exact plain
  · cases hu
    exact plain

end

theorem canonical_mkNeg (ha : a.canonical = a) (hu : mkNeg a = .ok u) : u.canonical = u := by
  unfold Term.mkNeg at hu
  split at hu
  · cases hu
  · cases hu
    cases canonical_num ha
    rfl
  · cases hu
    exact Term.neg.inj ha
  · cases hu
    rw [canonical, ha]

end Term

/-- A variable that formula text can refer to. -/
structure Scope.Declares (scope : Scope) (v : Var) : Prop where
  constant : v.name ≠ "true" ∧ v.name ≠ "false"
  declared : ∃ d : Decl, scope.get? v.name = some d ∧ d.isProp = false ∧ d.sort = v.sort ∧
    d.role = v.role

/-- A proposition that formula text can refer to. -/
structure Scope.Proposes (scope : Scope) (name : String) : Prop where
  reserved : name ≠ "true" ∧ name ≠ "false" ∧ name ≠ "not"
  declared : ∃ d : Decl, scope.get? name = some d ∧ d.isProp = true

/-- Identifiers in scope can be told apart in the text of formulas. -/
theorem Scope.vocabulary {scope : Scope}
    (identifier : ∀ name d, scope.get? name = some d → isIdentifier name = true) :
    Vocabulary scope.Declares scope.Proposes where
  named v hv := by
    obtain ⟨d, hd, -⟩ := hv.declared
    exact identifier _ d hd
  constant v hv := hv.constant
  unique v w hv hw hname := by
    obtain ⟨d, hd, -, hsort, hrole⟩ := hv.declared
    obtain ⟨d', hd', -, hsort', hrole'⟩ := hw.declared
    rw [hname, hd'] at hd
    cases hd
    obtain ⟨vn, vs, vr⟩ := v
    obtain ⟨wn, ws, wr⟩ := w
    simp only at hname hsort hrole hsort' hrole'
    rw [hname, ← hsort, ← hrole, hsort', hrole']
  identifier name h := by
    obtain ⟨d, hd, -⟩ := h.declared
    exact identifier _ d hd
  reserved name h := ⟨h.reserved.1, h.reserved.2.1⟩
  apart name v hn hv hname := by
    obtain ⟨d, hd, hprop⟩ := hn.declared
    obtain ⟨d', hd', hprop', -⟩ := hv.declared
    rw [hname, hd'] at hd
    cases hd
    rw [hprop] at hprop'
    cases hprop'

namespace Parser

open Term

/-- Whatever is read has a property, and the tokens that remain are plain. -/
def Yields {α : Type} {n : Nat} (P : α → Prop) (x : Attempt (Parsed α n)) : Prop :=
  ∀ p, x = .ok p → P p.value ∧ ∀ t ∈ p.rest, t.Plain

variable {cx : Context}

/-- A reference is to a variable in scope, after a jump only in a constraint. -/
theorem yields_reference {t : Token} {rest : List Token} (ht : t.text ≠ "true" ∧ t.text ≠ "false")
    (hrest : ∀ t ∈ rest, t.Plain) :
    Yields (fun c => ∃ v, cx.scope.Declares v ∧ v.name = t.text ∧
      (c = .var v ∨ cx.constraintOnly = true ∧ c = .next v)) (reference cx t rest) := by
  intro p hp
  unfold reference at hp
  split at hp
  · cases hp
  · next d hd =>
    split at hp
    · cases hp
    · next hprop =>
      have declares : cx.scope.Declares ⟨t.text, d.sort, d.role⟩ :=
        ⟨ht, d, hd, by simpa using hprop, rfl, rfl⟩
      dsimp only at hp
      split at hp
      · cases hp
        exact ⟨⟨_, declares, rfl, Or.inl rfl⟩, by simp⟩
      · split at hp
        · split at hp
          · next hcx =>
            cases hp
            exact ⟨⟨_, declares, rfl, Or.inr ⟨hcx, rfl⟩⟩, fun t ht => hrest t (by simp [ht])⟩
          · cases hp
        · cases hp
          exact ⟨⟨_, declares, rfl, Or.inl rfl⟩, hrest⟩

/-- Expressions with `E` and atoms with `A` are what the reader makes of leaves, by arithmetic and
by comparing expressions. -/
structure Grammar (cx : Context) (E A : Term → Prop) : Prop where
  real (q : Rat) : E (.real q)
  bool (b : Bool) : E (.bool b)
  var {v : Var} : cx.scope.Declares v → E (.var v)
  next {v : Var} : cx.scope.Declares v → cx.constraintOnly = true → E (.next v)
  mkAdd {a b u : Term} : E a → E b → Term.mkAdd [a, b] = .ok u → E u
  mkMul {a b u : Term} : E a → E b → Term.mkMul [a, b] = .ok u → E u
  mkSub {a b u : Term} : E a → E b → Term.mkSub a b = .ok u → E u
  mkDiv {a b u : Term} : E a → E b → Term.mkDiv a b = .ok u → E u
  mkNeg {a u : Term} : E a → Term.mkNeg a = .ok u → E u
  signal {v : Var} : cx.scope.Declares v → v.name ≠ "not" → v.sort = .bool → A (.var v)
  signalNext {v : Var} : cx.scope.Declares v → v.sort = .bool → cx.constraintOnly = true →
    A (.next v)
  comparison {a b c : Term} {op : String} : E a → E b →
    (a.sort = .bool ∨ b.sort = .bool → op = "=" ∨ op = "==" ∨ op = "!=") →
    comparisonOf? op a b = some c → A c

variable {E A : Term → Prop}

abbrev Below (P : List Token → Prop) (ts : List Token) : Prop :=
  ∀ rest : List Token, rest.length < ts.length → (∀ t ∈ rest, t.Plain) → P rest

structure ReadsArithmetic (cx : Context) (E : Term → Prop) (ts : List Token) : Prop where
  factor : Yields E (factor cx ts)
  moreFactors : ∀ acc, E acc → Yields E (moreFactors cx acc ts)
  product : Yields E (product cx ts)
  moreSummands : ∀ acc, E acc → Yields E (moreSummands cx acc ts)
  sum : Yields E (sum cx ts)

theorem yields_expect {wanted : String} {ts : List Token} (hts : ∀ t ∈ ts, t.Plain) :
    Yields (fun _ => True) (expect cx wanted ts) := by
  intro p hp
  unfold expect at hp
  split at hp
  · cases hp
  · split at hp
    · cases hp
      exact ⟨trivial, fun t ht => hts t (by simp [ht])⟩
    · cases hp

section Arithmetic

variable (grammar : Grammar cx E A) {ts : List Token} (hts : ∀ t ∈ ts, t.Plain)
  (below : Below (ReadsArithmetic cx E) ts)
include grammar hts below

theorem yields_factor : Yields E (factor cx ts) := by
  intro p hp
  rcases ts with _ | ⟨t, rest⟩ <;> rw [factor] at hp
  · cases hp
  · have hrest : ∀ t ∈ rest, t.Plain := fun t ht => hts t (by simp [ht])
    have ih' := below rest (by simp) hrest
    split at hp
    · obtain ⟨⟨a, r, hr⟩, h1, hp⟩ := Attempt.bind_eq_ok.1 hp
      obtain ⟨u, h2, hp⟩ := Attempt.bind_eq_ok.1 hp
      cases hp
      obtain ⟨ha, hr⟩ := ih'.factor _ h1
      exact ⟨grammar.mkNeg ha h2, hr⟩
    split at hp
    · obtain ⟨⟨a, r, hr⟩, h1, hp⟩ := Attempt.bind_eq_ok.1 hp
      obtain ⟨⟨_, r', hr'⟩, h2, hp⟩ := Attempt.bind_eq_ok.1 hp
      cases hp
      obtain ⟨ha, hr⟩ := ih'.sum _ h1
      exact ⟨ha, (yields_expect hr _ h2).2⟩
    split at hp
    · obtain ⟨q, -, hp⟩ := Attempt.bind_eq_ok.1 hp
      cases hp
      exact ⟨grammar.real _, hrest⟩
    split at hp
    · split at hp
      · cases hp
        exact ⟨grammar.bool _, hrest⟩
      · next hc =>
        obtain ⟨⟨v, hv, -, hc⟩, hr⟩ := yields_reference (not_or.1 hc) hrest p hp
        refine ⟨?_, hr⟩
        rcases hc with hc | ⟨hcx, hc⟩
        · exact hc ▸ grammar.var hv
        · exact hc ▸ grammar.next hv hcx
    · cases hp

theorem yields_moreFactors {acc : Term} (hacc : E acc) : Yields E (moreFactors cx acc ts) := by
  intro p hp
  rcases ts with _ | ⟨t, rest⟩ <;> rw [moreFactors] at hp
  · cases hp
    exact ⟨hacc, hts⟩
  · have hrest : ∀ t ∈ rest, t.Plain := fun t ht => hts t (by simp [ht])
    split at hp
    · obtain ⟨⟨b, r, hr⟩, h1, hp⟩ := Attempt.bind_eq_ok.1 hp
      obtain ⟨hb, hr'⟩ := (below rest (by simp) hrest).factor _ h1
      have more := (below _ (by simp; omega) hr').moreFactors
      dsimp only at hp
      split at hp
      · obtain ⟨acc', h2, hp⟩ := Attempt.bind_eq_ok.1 hp
        obtain ⟨⟨u, _, _⟩, h3, hp⟩ := Attempt.bind_eq_ok.1 hp
        cases hp
        exact more acc' (grammar.mkMul hacc hb h2) _ h3
      · obtain ⟨acc', h2, hp⟩ := Attempt.bind_eq_ok.1 hp
        obtain ⟨⟨u, _, _⟩, h3, hp⟩ := Attempt.bind_eq_ok.1 hp
        cases hp
        exact more acc' (grammar.mkDiv hacc hb h2) _ h3
    · cases hp
      exact ⟨hacc, hts⟩

theorem yields_product : Yields E (product cx ts) := by
  intro p hp
  rw [product] at hp
  obtain ⟨⟨a, r, hlt⟩, h1, hp⟩ := Attempt.bind_eq_ok.1 hp
  obtain ⟨⟨u, r', _⟩, h2, hp⟩ := Attempt.bind_eq_ok.1 hp
  cases hp
  obtain ⟨ha, hr⟩ := yields_factor grammar hts below _ h1
  exact (below _ hlt hr).moreFactors a ha _ h2

theorem yields_moreSummands {acc : Term} (hacc : E acc) : Yields E (moreSummands cx acc ts) := by
  intro p hp
  rcases ts with _ | ⟨t, rest⟩ <;> rw [moreSummands] at hp
  · cases hp
    exact ⟨hacc, hts⟩
  · have hrest : ∀ t ∈ rest, t.Plain := fun t ht => hts t (by simp [ht])
    split at hp
    · obtain ⟨⟨b, r, hr⟩, h1, hp⟩ := Attempt.bind_eq_ok.1 hp
      obtain ⟨hb, hr'⟩ := (below rest (by simp) hrest).product _ h1
      have more := (below _ (by simp; omega) hr').moreSummands
      dsimp only at hp
      split at hp
      · obtain ⟨acc', h2, hp⟩ := Attempt.bind_eq_ok.1 hp
        obtain ⟨⟨u, _, _⟩, h3, hp⟩ := Attempt.bind_eq_ok.1 hp
        cases hp
        exact more acc' (grammar.mkAdd hacc hb h2) _ h3
      · obtain ⟨acc', h2, hp⟩ := Attempt.bind_eq_ok.1 hp
        obtain ⟨⟨u, _, _⟩, h3, hp⟩ := Attempt.bind_eq_ok.1 hp
        cases hp
        exact more acc' (grammar.mkSub hacc hb h2) _ h3
    · cases hp
      exact ⟨hacc, hts⟩

theorem yields_sum : Yields E (sum cx ts) := by
  intro p hp
  rw [sum] at hp
  obtain ⟨⟨a, r, hlt⟩, h1, hp⟩ := Attempt.bind_eq_ok.1 hp
  obtain ⟨⟨u, r', _⟩, h2, hp⟩ := Attempt.bind_eq_ok.1 hp
  cases hp
  obtain ⟨ha, hr⟩ := yields_product grammar hts below _ h1
  exact (below _ hlt hr).moreSummands a ha _ h2

end Arithmetic

theorem reads_arithmetic (grammar : Grammar cx E A) (n : Nat) :
    ∀ ts : List Token, ts.length = n → (∀ t ∈ ts, t.Plain) → ReadsArithmetic cx E ts := by
  induction n using Nat.strongRecOn with
  | ind n ih =>
    intro ts hn hts
    subst hn
    have below : Below (ReadsArithmetic cx E) ts := fun rest h hr => ih rest.length h rest rfl hr
    exact {
      factor := yields_factor grammar hts below
      moreFactors := fun _ => yields_moreFactors grammar hts below
      product := yields_product grammar hts below
      moreSummands := fun _ => yields_moreSummands grammar hts below
      sum := yields_sum grammar hts below }

/-! ## Comparisons and windows -/

theorem yields_comparison (grammar : Grammar cx E A) {ts : List Token}
    (hts : ∀ t ∈ ts, t.Plain) : Yields A (comparison cx ts) := by
  intro p hp
  unfold comparison at hp
  obtain ⟨⟨a, r, hlt⟩, h1, hp⟩ := Attempt.bind_eq_ok.1 hp
  obtain ⟨ha, hr⟩ := (reads_arithmetic grammar _ ts rfl hts).sum _ h1
  dsimp only at hp
  split at hp
  · cases hp
  · next op rest _ =>
    have hrest : ∀ t ∈ rest, t.Plain := fun t ht => hr t (by simp [ht])
    split at hp
    · cases hp
    · obtain ⟨⟨b, r', _⟩, h2, hp⟩ := Attempt.bind_eq_ok.1 hp
      obtain ⟨hb, hr'⟩ := (reads_arithmetic grammar _ rest rfl hrest).sum _ h2
      dsimp only at hp
      split at hp
      · cases hp
      · next sides =>
        split at hp
        · next c hc =>
          cases hp
          exact ⟨grammar.comparison ha hb (fun h => not_not.1 fun hop => sides ⟨h, hop⟩) hc, hr'⟩
        · cases hp

theorem numeral_nonneg {t : Token} {q : Rat} (ht : t.Plain) (hk : t.kind = .number)
    (h : numeral t = .ok q) : 0 ≤ q := by
  unfold numeral at h
  split at h
  · next hq =>
    cases h
    exact Rational.ofText?_nonneg (ht hk) hq
  · cases h

theorem yields_lowerBound {ts : List Token} (hts : ∀ t ∈ ts, t.Plain) :
    Yields (fun q => 0 ≤ q) (lowerBound cx ts) := by
  intro p hp
  unfold lowerBound at hp
  split at hp
  · cases hp
  · next t rest =>
    split at hp
    · next hk =>
      obtain ⟨q, hq, hp⟩ := Attempt.bind_eq_ok.1 hp
      cases hp
      exact ⟨numeral_nonneg (hts t (by simp)) hk hq, fun t ht => hts t (by simp [ht])⟩
    · cases hp

theorem yields_upperBound {ts : List Token} (hts : ∀ t ∈ ts, t.Plain) :
    Yields (fun _ => True) (upperBound cx ts) := by
  intro p hp
  unfold upperBound at hp
  split at hp
  · cases hp
  · next t rest =>
    have hrest : ∀ t ∈ rest, t.Plain := fun t ht => hts t (by simp [ht])
    split at hp
    · cases hp
      exact ⟨trivial, hrest⟩
    · split at hp
      · obtain ⟨q, -, hp⟩ := Attempt.bind_eq_ok.1 hp
        cases hp
        exact ⟨trivial, hrest⟩
      · cases hp

theorem yields_opening {ts : List Token} (hts : ∀ t ∈ ts, t.Plain) :
    Yields (fun _ => True) (opening cx ts) := by
  intro p hp
  unfold opening at hp
  split at hp
  · cases hp
  · next t rest =>
    have hrest : ∀ t ∈ rest, t.Plain := fun t ht => hts t (by simp [ht])
    split at hp
    · cases hp
      exact ⟨trivial, hrest⟩
    · split at hp
      · cases hp
        exact ⟨trivial, hrest⟩
      · cases hp

theorem yields_closing {ts : List Token} (hts : ∀ t ∈ ts, t.Plain) :
    Yields (fun _ => True) (closing cx ts) := by
  intro p hp
  unfold closing at hp
  split at hp
  · cases hp
  · next t rest =>
    have hrest : ∀ t ∈ rest, t.Plain := fun t ht => hts t (by simp [ht])
    split at hp
    · cases hp
      exact ⟨trivial, hrest⟩
    · split at hp
      · cases hp
        exact ⟨trivial, hrest⟩
      · cases hp

/-- A window begins now or later. -/
theorem yields_window {ts : List Token} (hts : ∀ t ∈ ts, t.Plain) :
    Yields Window.Forward (window cx ts) := by
  have unbounded : Window.unbounded.Forward := ⟨le_rfl, rfl, fun _ => rfl⟩
  intro p hp
  unfold window at hp
  split at hp
  · cases hp
    exact ⟨unbounded, hts⟩
  · next t rest =>
    have hrest : ∀ t ∈ rest, t.Plain := fun t ht => hts t (by simp [ht])
    split at hp
    · obtain ⟨⟨leftOpen, r1, _⟩, h1, hp⟩ := Attempt.bind_eq_ok.1 hp
      obtain ⟨⟨lo, r2, _⟩, h2, hp⟩ := Attempt.bind_eq_ok.1 hp
      obtain ⟨⟨_, r3, _⟩, h3, hp⟩ := Attempt.bind_eq_ok.1 hp
      obtain ⟨⟨hi, r4, _⟩, h4, hp⟩ := Attempt.bind_eq_ok.1 hp
      obtain ⟨⟨rightOpen, r5, _⟩, h5, hp⟩ := Attempt.bind_eq_ok.1 hp
      have p1 := (yields_opening hrest _ h1).2
      obtain ⟨hlo, p2⟩ := yields_lowerBound p1 _ h2
      have p3 := (yields_expect p2 _ h3).2
      have p4 := (yields_upperBound p3 _ h4).2
      have p5 := (yields_closing p4 _ h5).2
      dsimp only at hp
      split at hp
      · cases hp
        exact ⟨⟨hlo, rfl, fun _ => by simp⟩, p5⟩
      · split at hp
        · cases hp
        · cases hp
          exact ⟨⟨hlo, rfl, fun h => by cases h⟩, p5⟩
    · cases hp
      exact ⟨unbounded, hts⟩

/-! ## Formulas -/

abbrev Sentence (cx : Context) (A : Term → Prop) : Formula → Prop :=
  Formula.Formed A cx.scope.Proposes

abbrev Sentences (cx : Context) (A : Term → Prop) : List Formula → Prop :=
  Formula.FormedAll A cx.scope.Proposes

structure ReadsFormula (cx : Context) (A : Term → Prop) (ts : List Token) : Prop where
  primary : headText ts ≠ "not" → Yields (Sentence cx A) (primary cx ts)
  unary : Yields (Sentence cx A) (unary cx ts)
  moreTemporal : ∀ acc, Sentence cx A acc → Yields (Sentence cx A) (moreTemporal cx acc ts)
  temporal : Yields (Sentence cx A) (temporal cx ts)
  moreConjuncts : Yields (Sentences cx A) (moreConjuncts cx ts)
  conjunction : Yields (Sentence cx A) (conjunction cx ts)
  moreDisjuncts : Yields (Sentences cx A) (moreDisjuncts cx ts)
  disjunction : Yields (Sentence cx A) (disjunction cx ts)
  implication : Yields (Sentence cx A) (implication cx ts)

theorem yields_primary (grammar : Grammar cx E A) {ts : List Token}
    (hts : ∀ t ∈ ts, t.Plain) (hnot : headText ts ≠ "not")
    (below : Below (fun rest => Yields (Sentence cx A) (implication cx rest)) ts) :
    Yields (Sentence cx A) (primary cx ts) := by
  have atom {n : Nat} {q : Parsed Term n} {p : Parsed Formula n}
      (h : A q.value ∧ ∀ t ∈ q.rest, t.Plain)
      (hp : ⟨.atom q.value, q.rest, q.fewer⟩ = p) :
      Sentence cx A p.value ∧ ∀ t ∈ p.rest, t.Plain := hp ▸ h
  intro p hp
  rcases ts with _ | ⟨t, rest⟩ <;> rw [primary] at hp
  · obtain ⟨q, hq, hp⟩ := Attempt.map_eq_ok.1 hp
    exact atom (yields_comparison grammar hts q hq) hp
  · have hrest : ∀ t ∈ rest, t.Plain := fun t ht => hts t (by simp [ht])
    have hnot : t.text ≠ "not" := hnot
    dsimp only at hp
    obtain ⟨decl, hdecl⟩ : ∃ decl, decl = if t.kind = .ident then cx.scope.get? t.text else none :=
      ⟨_, rfl⟩
    rw [← hdecl] at hp
    split at hp
    · cases hp
      exact ⟨trivial, hrest⟩
    next hconst =>
    have ident {P : Decl → Bool} (h : decl.any P = true) :
        (t.text ≠ "true" ∧ t.text ≠ "false") ∧
          ∃ d, cx.scope.get? t.text = some d ∧ P d = true := by
      rw [hdecl] at h
      split at h
      · next hk =>
        obtain ⟨d, hd, hP⟩ := (Option.any_eq_true _ _).1 h
        exact ⟨not_or.1 fun h => hconst ⟨hk, h⟩, d, hd, hP⟩
      · cases h
    split at hp
    · next hprop =>
      obtain ⟨⟨htrue, hfalse⟩, d, hd, hisProp⟩ := ident hprop
      split at hp
      · cases hp
      · cases hp
        exact ⟨⟨⟨htrue, hfalse, hnot⟩, d, hd, hisProp⟩, hrest⟩
    split at hp
    · next hbool =>
      obtain ⟨hname, d, hd, hsort⟩ := ident hbool.1
      obtain ⟨q, hq, hp⟩ := Attempt.map_eq_ok.1 hp
      obtain ⟨⟨v, hv, hvt, hqv⟩, hr⟩ := yields_reference hname hrest q hq
      obtain ⟨d', hd', -, same, -⟩ := hv.declared
      rw [hvt, hd] at hd'
      cases hd'
      have bool : v.sort = .bool := same ▸ of_decide_eq_true hsort
      refine atom ⟨?_, hr⟩ hp
      rcases hqv with hqv | ⟨hcx, hqv⟩
      · exact hqv ▸ grammar.signal hv (by rw [hvt]; exact hnot) bool
      · exact hqv ▸ grammar.signalNext hv bool hcx
    split at hp
    · next q hq =>
      injection hp with hp
      exact atom (yields_comparison grammar hts q hq) hp
    · split at hp
      · cases hp
      · obtain ⟨⟨f, r, _⟩, h1, hp⟩ := Attempt.bind_eq_ok.1 hp
        obtain ⟨⟨_, r', _⟩, h2, hp⟩ := Attempt.bind_eq_ok.1 hp
        cases hp
        obtain ⟨hf, hr⟩ := below rest (by simp) hrest _ h1
        exact ⟨hf, (yields_expect hr _ h2).2⟩

/-- A row of formulas is the one formula in it, or has at least two. -/
theorem sentence_junction {f g : Formula} {fs : List Formula} (hf : Sentence cx A f)
    (hg : 2 ≤ (f :: fs).length → Sentence cx A g) :
    Sentence cx A (if fs.isEmpty then f else g) := by
  split
  · exact hf
  · next h =>
    refine hg ?_
    cases fs with
    | nil => exact absurd rfl h
    | cons => simp

section Levels

variable (grammar : Grammar cx E A) {ts : List Token} (hts : ∀ t ∈ ts, t.Plain)
  (below : Below (ReadsFormula cx A) ts)
include grammar hts below

theorem yields_unary : Yields (Sentence cx A) (unary cx ts) := by
  have implication : Below (fun rest => Yields (Sentence cx A) (implication cx rest)) ts :=
    fun rest h hr => (below rest h hr).implication
  intro p hp
  rcases ts with _ | ⟨t, rest⟩ <;> rw [unary] at hp
  · exact yields_primary grammar hts (by decide) implication p hp
  · have hrest : ∀ t ∈ rest, t.Plain := fun t ht => hts t (by simp [ht])
    split at hp
    · obtain ⟨⟨f, r, _⟩, h1, hp⟩ := Attempt.bind_eq_ok.1 hp
      cases hp
      exact (below rest (by simp) hrest).unary _ h1
    next hneg =>
    split at hp
    · split at hp
      · cases hp
      obtain ⟨⟨w, r, _⟩, h1, hp⟩ := Attempt.bind_eq_ok.1 hp
      obtain ⟨⟨f, r', _⟩, h2, hp⟩ := Attempt.bind_eq_ok.1 hp
      cases hp
      obtain ⟨hw, hr⟩ := yields_window hrest _ h1
      obtain ⟨hf, hr'⟩ := (below _ (by simp; omega) hr).unary _ h2
      refine ⟨?_, hr'⟩
      dsimp only
      split
      · exact ⟨hw, hf⟩
      · exact ⟨hw, hf⟩
    · exact yields_primary grammar hts (fun h => hneg (Or.inr (Or.inr h))) implication p hp

omit grammar in
theorem yields_moreTemporal {acc : Formula} (hacc : Sentence cx A acc) :
    Yields (Sentence cx A) (moreTemporal cx acc ts) := by
  intro p hp
  rcases ts with _ | ⟨t, rest⟩ <;> rw [moreTemporal] at hp
  · cases hp
    exact ⟨hacc, hts⟩
  · have hrest : ∀ t ∈ rest, t.Plain := fun t ht => hts t (by simp [ht])
    split at hp
    · split at hp
      · cases hp
      obtain ⟨⟨w, r, _⟩, h1, hp⟩ := Attempt.bind_eq_ok.1 hp
      obtain ⟨⟨f, r', _⟩, h2, hp⟩ := Attempt.bind_eq_ok.1 hp
      obtain ⟨⟨g, r'', _⟩, h3, hp⟩ := Attempt.bind_eq_ok.1 hp
      cases hp
      obtain ⟨hw, hr⟩ := yields_window hrest _ h1
      obtain ⟨hf, hr'⟩ := (below _ (by simp; omega) hr).unary _ h2
      refine (below _ (by simp; omega) hr').moreTemporal _ ?_ _ h3
      split
      · exact ⟨hw, hacc, hf⟩
      · exact ⟨hw, hacc, hf⟩
    · cases hp
      exact ⟨hacc, hts⟩

theorem yields_temporal : Yields (Sentence cx A) (temporal cx ts) := by
  intro p hp
  rw [temporal] at hp
  obtain ⟨⟨l, r, hlt⟩, h1, hp⟩ := Attempt.bind_eq_ok.1 hp
  obtain ⟨⟨f, r', _⟩, h2, hp⟩ := Attempt.bind_eq_ok.1 hp
  cases hp
  obtain ⟨hl, hr⟩ := yields_unary grammar hts below _ h1
  exact (below _ hlt hr).moreTemporal l hl _ h2

omit grammar in
theorem yields_moreConjuncts : Yields (Sentences cx A) (moreConjuncts cx ts) := by
  intro p hp
  rcases ts with _ | ⟨t, rest⟩ <;> rw [moreConjuncts] at hp
  · cases hp
    exact ⟨trivial, hts⟩
  · have hrest : ∀ t ∈ rest, t.Plain := fun t ht => hts t (by simp [ht])
    split at hp
    · obtain ⟨⟨f, r, _⟩, h1, hp⟩ := Attempt.bind_eq_ok.1 hp
      obtain ⟨⟨fs, r', _⟩, h2, hp⟩ := Attempt.bind_eq_ok.1 hp
      cases hp
      obtain ⟨hf, hr⟩ := (below rest (by simp) hrest).temporal _ h1
      obtain ⟨hfs, hr'⟩ := (below _ (by simp; omega) hr).moreConjuncts _ h2
      exact ⟨⟨hf, hfs⟩, hr'⟩
    · cases hp
      exact ⟨trivial, hts⟩

theorem yields_conjunction : Yields (Sentence cx A) (conjunction cx ts) := by
  intro p hp
  rw [conjunction] at hp
  obtain ⟨⟨f, r, hlt⟩, h1, hp⟩ := Attempt.bind_eq_ok.1 hp
  obtain ⟨⟨fs, r', _⟩, h2, hp⟩ := Attempt.bind_eq_ok.1 hp
  cases hp
  obtain ⟨hf, hr⟩ := yields_temporal grammar hts below _ h1
  obtain ⟨hfs, hr'⟩ := (below _ hlt hr).moreConjuncts _ h2
  exact ⟨sentence_junction hf fun h => ⟨h, hf, hfs⟩, hr'⟩

omit grammar in
theorem yields_moreDisjuncts : Yields (Sentences cx A) (moreDisjuncts cx ts) := by
  intro p hp
  rcases ts with _ | ⟨t, rest⟩ <;> rw [moreDisjuncts] at hp
  · cases hp
    exact ⟨trivial, hts⟩
  · have hrest : ∀ t ∈ rest, t.Plain := fun t ht => hts t (by simp [ht])
    split at hp
    · obtain ⟨⟨f, r, _⟩, h1, hp⟩ := Attempt.bind_eq_ok.1 hp
      obtain ⟨⟨fs, r', _⟩, h2, hp⟩ := Attempt.bind_eq_ok.1 hp
      cases hp
      obtain ⟨hf, hr⟩ := (below rest (by simp) hrest).conjunction _ h1
      obtain ⟨hfs, hr'⟩ := (below _ (by simp; omega) hr).moreDisjuncts _ h2
      exact ⟨⟨hf, hfs⟩, hr'⟩
    · cases hp
      exact ⟨trivial, hts⟩

theorem yields_disjunction : Yields (Sentence cx A) (disjunction cx ts) := by
  intro p hp
  rw [disjunction] at hp
  obtain ⟨⟨f, r, hlt⟩, h1, hp⟩ := Attempt.bind_eq_ok.1 hp
  obtain ⟨⟨fs, r', _⟩, h2, hp⟩ := Attempt.bind_eq_ok.1 hp
  cases hp
  obtain ⟨hf, hr⟩ := yields_conjunction grammar hts below _ h1
  obtain ⟨hfs, hr'⟩ := (below _ hlt hr).moreDisjuncts _ h2
  exact ⟨sentence_junction hf fun h => ⟨h, hf, hfs⟩, hr'⟩

theorem yields_implication : Yields (Sentence cx A) (implication cx ts) := by
  intro p hp
  rw [implication] at hp
  obtain ⟨⟨l, r, hlt⟩, h1, hp⟩ := Attempt.bind_eq_ok.1 hp
  obtain ⟨hl, hr⟩ := yields_disjunction grammar hts below _ h1
  dsimp only at hp
  split at hp
  · cases hp
    exact ⟨hl, hr⟩
  · next t rest hlt =>
    have hrest : ∀ t ∈ rest, t.Plain := fun t ht => hr t (by simp [ht])
    split at hp
    · obtain ⟨⟨g, r', _⟩, h2, hp⟩ := Attempt.bind_eq_ok.1 hp
      cases hp
      obtain ⟨hg, hr'⟩ := (below rest (by simp at hlt; omega) hrest).implication _ h2
      exact ⟨⟨hl, hg⟩, hr'⟩
    · cases hp
      exact ⟨hl, hr⟩

end Levels

theorem reads_formula (grammar : Grammar cx E A) (n : Nat) :
    ∀ ts : List Token, ts.length = n → (∀ t ∈ ts, t.Plain) → ReadsFormula cx A ts := by
  induction n using Nat.strongRecOn with
  | ind n ih =>
    intro ts hn hts
    subst hn
    have below : Below (ReadsFormula cx A) ts := fun rest h hr => ih rest.length h rest rfl hr
    exact {
      primary := fun hnot =>
        yields_primary grammar hts hnot fun rest h hr => (below rest h hr).implication
      unary := yields_unary grammar hts below
      moreTemporal := fun _ => yields_moreTemporal hts below
      temporal := yields_temporal grammar hts below
      moreConjuncts := yields_moreConjuncts hts below
      conjunction := yields_conjunction grammar hts below
      moreDisjuncts := yields_moreDisjuncts hts below
      disjunction := yields_disjunction grammar hts below
      implication := yields_implication grammar hts below }

/-! ## Regular formulas -/

/-- Expressions are built by operators from variables in scope, and their sorts are told by their
text. -/
structure Expression (cx : Context) (t : Term) : Prop where
  built : BuiltOver cx.scope.Declares t
  canonical : t.canonical = t

namespace Expression

variable {a b u : Term}

theorem hereditary_built : Hereditary (BuiltOver cx.scope.Declares) :=
  hereditary_over fun _ _ _ h => h.elim

theorem real (q : Rat) : Expression cx (Term.real q) := ⟨hereditary_built.num _ _, rfl⟩

theorem bool (b : Bool) : Expression cx (Term.bool b) := ⟨hereditary_built.bool _, rfl⟩

theorem var {v : Var} (h : cx.scope.Declares v) : Expression cx (.var v) := ⟨.var h, rfl⟩

theorem mkAdd (ha : Expression cx a) (hb : Expression cx b) (hu : Term.mkAdd [a, b] = .ok u) :
    Expression cx u :=
  ⟨hereditary_built.mkAdd (by simpa using ⟨ha.built, hb.built⟩) hu,
    canonical_mkAdd ha.canonical hb.canonical hu⟩

theorem mkMul (ha : Expression cx a) (hb : Expression cx b) (hu : Term.mkMul [a, b] = .ok u) :
    Expression cx u :=
  ⟨hereditary_built.mkMul (by simpa using ⟨ha.built, hb.built⟩) hu,
    canonical_mkMul ha.canonical hb.canonical hu⟩

theorem mkSub (ha : Expression cx a) (hb : Expression cx b) (hu : Term.mkSub a b = .ok u) :
    Expression cx u :=
  ⟨hereditary_built.mkSub ha.built hb.built hu, canonical_mkSub ha.canonical hb.canonical hu⟩

theorem mkDiv (ha : Expression cx a) (hb : Expression cx b) (hu : Term.mkDiv a b = .ok u) :
    Expression cx u :=
  ⟨hereditary_built.mkDiv ha.built hb.built hu, canonical_mkDiv ha.canonical hb.canonical hu⟩

theorem mkNeg (ha : Expression cx a) (hu : Term.mkNeg a = .ok u) : Expression cx u :=
  ⟨hereditary_built.mkNeg ha.built hu, canonical_mkNeg ha.canonical hu⟩

end Expression

theorem isAtom_mkCmp {a b : Term} (r : Relation) (ha : Expression cx a) (hb : Expression cx b) :
    IsAtom cx.scope.Declares (mkCmp r a b) := by
  unfold mkCmp
  split
  · exact .bool _
  · split
    · exact .bool _
    · exact .cmp r ha.built hb.built ha.canonical hb.canonical

theorem isAtom_comparisonOf {op : String} {a b c : Term} (ha : Expression cx a)
    (hb : Expression cx b) (h : comparisonOf? op a b = some c) : IsAtom cx.scope.Declares c := by
  unfold comparisonOf? at h
  repeat' split at h
  all_goals cases h
  all_goals first
    | exact isAtom_mkCmp _ ha hb
    | exact (isAtom_mkCmp _ ha hb).mkNot.1

/-- Formulas are read as regular ones. -/
theorem regular_grammar (hcx : cx.constraintOnly = false) :
    Grammar cx (Expression cx) (IsAtom cx.scope.Declares) where
  real := Expression.real
  bool := Expression.bool
  var := Expression.var
  next _ h := by cases hcx.symm.trans h
  mkAdd := Expression.mkAdd
  mkMul := Expression.mkMul
  mkSub := Expression.mkSub
  mkDiv := Expression.mkDiv
  mkNeg := Expression.mkNeg
  signal := .var
  signalNext _ _ h := by cases hcx.symm.trans h
  comparison ha hb _ := isAtom_comparisonOf ha hb

/-- What is read of a whole text is formed of such atoms. -/
theorem formed_of_finished (grammar : Grammar cx E A) {cs : List Char} {ts : List Token}
    (hts : Token.scan cs = .ok ts) {p : Parsed Formula ts.length} (hp : implication cx ts = .ok p)
    {f : Formula} (h : finished cx p = .ok f) : f.Formed A cx.scope.Proposes := by
  have hread := (reads_formula grammar _ ts rfl (Token.plain_of_scanFrom hts)).implication p hp
  unfold finished at h
  split at h
  · cases h
    exact hread.1
  · cases h

end Parser

/-- A formula that was read is regular. -/
theorem Formula.regular_of_ofText {scope : Scope} {s : String} {f : Formula}
    (h : ofText scope s = .ok f) : f.Regular scope.Declares scope.Proposes := by
  unfold ofText ofChars at h
  obtain ⟨ts, hts, h⟩ := Attempt.bind_eq_ok.1 h
  obtain ⟨p, hp, h⟩ := Attempt.bind_eq_ok.1 h
  exact Parser.formed_of_finished (Parser.regular_grammar rfl) hts hp h

end HybridCheck
