import HybridCheck.Proofs.Arithmetic
import HybridCheck.Proofs.Enclosing
import HybridCheck.Proofs.Words
import HybridCheck.Search.Basic

/-!
# Negating property text

A property is negated as text, by writing a negation and parentheses around it, and around a
property without temporal operators that it holds always. What is read is the negation of what the
property alone is read as. The opening parenthesis is first tried as that of an arithmetic operand:
no comparison follows the closing one, so the attempt fails, and it does not fail for good, because
a formula that is read does not begin with arithmetic on truth values.
-/

namespace HybridCheck

namespace Parser

open Token Term

variable {cx : Context} {acc acc' : Term} {ts : List Token}

/-- The same tokens are left, and no truth value was read. -/
abbrev Reaches {k k' : Nat} (p : Parsed Term k) (x : Attempt (Parsed Term k')) : Prop :=
  ∃ q, x = .ok q ∧ NotBool q.value ∧ q.rest = p.rest

/-- An operand is worked in before reading on: if a term that is no truth value comes of it on the
other side too, reading on reaches as far. -/
theorem reaches_bind {k k' : Nat} {z z' : Attempt Term} {read : Term → Attempt (Parsed Term k)}
    {finish : Parsed Term k → Attempt (Parsed Term k')} {p : Parsed Term k'}
    (finished : ∀ q, ∃ q', finish q = .ok q' ∧ q'.value = q.value ∧ q'.rest = q.rest)
    (more : ∀ a a' q, read a = .ok q → NotBool a' → Reaches q (read a'))
    (worked : ∀ a, z = .ok a → ∃ a', z' = .ok a' ∧ NotBool a')
    (h : (z >>= fun a => read a >>= finish) = .ok p) :
    Reaches p (z' >>= fun a => read a >>= finish) := by
  obtain ⟨a, ha, h⟩ := Attempt.bind_eq_ok.1 h
  obtain ⟨q, hq, h⟩ := Attempt.bind_eq_ok.1 h
  obtain ⟨a', ha', hnot⟩ := worked a ha
  obtain ⟨q', hq', hvalue, hrest⟩ := more a a' q hq hnot
  obtain ⟨p₁, hp₁, -, hp₁rest⟩ := finished q
  obtain ⟨p', hp', hp'value, hp'rest⟩ := finished q'
  obtain rfl : p₁ = p := Except.ok.inj (hp₁.symm.trans h)
  refine ⟨p', ?_, hp'value ▸ hvalue, ?_⟩
  · rw [ha', Attempt.bind_ok, hq', Attempt.bind_ok, hp']
  · rw [hp'rest, hrest, hp₁rest]

/-- How far further factors are read does not depend on what was read before, as long as that is no
truth value. -/
theorem moreFactors_reaches (m : Nat) : ∀ (ts : List Token) (acc acc' : Term)
    (p : Parsed Term (ts.length + 1)), ts.length = m → moreFactors cx acc ts = .ok p →
    NotBool acc' → Reaches p (moreFactors cx acc' ts) := by
  induction m using Nat.strongRecOn with
  | ind m ih =>
    intro ts acc acc' p hm h hacc
    subst hm
    rcases ts with _ | ⟨t, rest⟩ <;> rw [moreFactors] at h ⊢
    · cases h
      exact ⟨_, rfl, hacc, rfl⟩
    split at h
    · next hop =>
      rw [if_pos hop]
      obtain ⟨⟨b, r, hr⟩, hb, h⟩ := Attempt.bind_eq_ok.1 h
      have more (a a' : Term) q := ih r.length (by simp; omega) r a a' q rfl
      rw [hb]
      dsimp only [Attempt.bind_ok] at h ⊢
      split at h
      · next hmul =>
        rw [if_pos hmul]
        refine reaches_bind (fun _ => ⟨_, rfl, rfl, rfl⟩) more (fun a ha => ?_) h
        have hb : NotBool b := notBool_of_mkMul ha b (by simp)
        exact exists_mkMul (by simp [hacc, hb])
      · next hdiv =>
        rw [if_neg hdiv]
        refine reaches_bind (fun _ => ⟨_, rfl, rfl, rfl⟩) more (fun a ha => ?_) h
        exact exists_mkDiv hacc (notBool_of_mkDiv ha)
    · next hop =>
      cases h
      rw [if_neg hop]
      exact ⟨_, rfl, hacc, rfl⟩

/-- The same for further summands. -/
theorem moreSummands_reaches (m : Nat) : ∀ (ts : List Token) (acc acc' : Term)
    (p : Parsed Term (ts.length + 1)), ts.length = m → moreSummands cx acc ts = .ok p →
    NotBool acc' → Reaches p (moreSummands cx acc' ts) := by
  induction m using Nat.strongRecOn with
  | ind m ih =>
    intro ts acc acc' p hm h hacc
    subst hm
    rcases ts with _ | ⟨t, rest⟩ <;> rw [moreSummands] at h ⊢
    · cases h
      exact ⟨_, rfl, hacc, rfl⟩
    split at h
    · next hop =>
      rw [if_pos hop]
      obtain ⟨⟨b, r, hr⟩, hb, h⟩ := Attempt.bind_eq_ok.1 h
      have more (a a' : Term) q := ih r.length (by simp; omega) r a a' q rfl
      rw [hb]
      dsimp only [Attempt.bind_ok] at h ⊢
      split at h
      · next hadd =>
        rw [if_pos hadd]
        refine reaches_bind (fun _ => ⟨_, rfl, rfl, rfl⟩) more (fun a ha => ?_) h
        have hb : NotBool b := notBool_of_mkAdd ha b (by simp)
        exact exists_mkAdd (by simp [hacc, hb])
      · next hsub =>
        rw [if_neg hsub]
        refine reaches_bind (fun _ => ⟨_, rfl, rfl, rfl⟩) more (fun a ha => ?_) h
        exact exists_mkSub hacc (notBool_of_mkSub ha)
    · next hop =>
      cases h
      rw [if_neg hop]
      exact ⟨_, rfl, hacc, rfl⟩

/-- Something may stand before a difference that can be read as a negative number. -/
theorem exists_sum_minus {t minus : Token} {a : Term}
    {h : (minus :: ts).length < (t :: minus :: ts).length}
    (ht : factor cx (t :: minus :: ts) = .ok ⟨a, minus :: ts, h⟩) (ha : NotBool a)
    (hminus : minus.text = "-") {p : Parsed Term (minus :: ts).length}
    (hp : sum cx (minus :: ts) = .ok p) : ∃ q, sum cx (t :: minus :: ts) = .ok q := by
  rw [sum, product, factor, if_pos hminus] at hp
  obtain ⟨⟨b₁, r₂, hr₂⟩, h₂, h₁⟩ := Attempt.bind_eq_ok.1 hp
  obtain ⟨⟨a₁, r₁, hr₁⟩, h₄, h₃⟩ := Attempt.bind_eq_ok.1 h₂
  obtain ⟨⟨a₀, r₀, hr₀⟩, hfactor, h₅⟩ := Attempt.bind_eq_ok.1 h₄
  obtain ⟨a', hneg, h⟩ := Attempt.bind_eq_ok.1 h₅
  cases h
  obtain ⟨p₁, hfactors, h⟩ := Attempt.bind_eq_ok.1 h₃
  cases h
  obtain ⟨p₂, hsummands, h⟩ := Attempt.bind_eq_ok.1 h₁
  cases h
  obtain ⟨⟨b₀, _, hr⟩, hb, hnot, rfl⟩ :=
    moreFactors_reaches _ _ _ a₀ _ rfl hfactors (notBool_of_mkNeg hneg)
  obtain ⟨c, hc, hcnot⟩ := exists_mkSub ha hnot
  obtain ⟨q, hq, -, -⟩ := moreSummands_reaches _ _ _ c _ rfl hsummands hcnot
  have hproduct : product cx ts = .ok ⟨b₀, p₁.rest, by omega⟩ := by
    rw [product, hfactor]
    dsimp only [Attempt.bind_ok]
    rw [hb]
    rfl
  rw [sum, product, ht]
  dsimp only [Attempt.bind_ok]
  rw [moreFactors, if_neg (by rw [hminus]; decide)]
  dsimp only [Attempt.bind_ok, Attempt.pure_eq_ok]
  rw [moreSummands, if_pos (Or.inr hminus), hproduct]
  dsimp only [Attempt.bind_ok]
  rw [if_neg (by rw [hminus]; decide), hc, Attempt.bind_ok, hq]
  exact ⟨_, rfl⟩

/-! ## The parenthesis before a formula -/

/-- No arithmetic operator comes next. -/
def Stops (ts : List Token) : Prop := headText ts ∉ ["+", "-", "*", "/"]

theorem stops_nil : Stops [] := by unfold Stops; decide

theorem stops_cons {t : Token} : Stops (t :: ts) ↔ t.text ∉ ["+", "-", "*", "/"] := Iff.rfl

theorem Stops.moreFactors (h : Stops ts) (acc : Term) :
    moreFactors cx acc ts = .ok ⟨acc, ts, by omega⟩ := by
  rcases ts with _ | ⟨t, rest⟩ <;> rw [Parser.moreFactors]
  rw [if_neg]
  rintro (ht | ht) <;> simp [stops_cons, ht] at h

theorem Stops.moreSummands (h : Stops ts) (acc : Term) :
    moreSummands cx acc ts = .ok ⟨acc, ts, by omega⟩ := by
  rcases ts with _ | ⟨t, rest⟩ <;> rw [Parser.moreSummands]
  rw [if_neg]
  rintro (ht | ht) <;> simp [stops_cons, ht] at h

/-- A single operand. -/
theorem Stops.sum {a : Term} {rest : List Token} {hlt : rest.length < ts.length} (h : Stops rest)
    (ha : factor cx ts = .ok ⟨a, rest, hlt⟩) : sum cx ts = .ok ⟨a, rest, hlt⟩ := by
  rw [Parser.sum, product, ha]
  dsimp only [Attempt.bind_ok]
  rw [h.moreFactors]
  dsimp only [Attempt.bind_ok, Attempt.pure_eq_ok]
  rw [h.moreSummands]
  rfl

theorem unary_of_temporal {p : Parsed Formula ts.length} (h : temporal cx ts = .ok p)
    (hs : Stops p.rest) : ∃ q, unary cx ts = .ok q ∧ Stops q.rest := by
  rw [temporal] at h
  obtain ⟨⟨l, rest, hlt⟩, h1, h⟩ := Attempt.bind_eq_ok.1 h
  obtain ⟨p', h2, h⟩ := Attempt.bind_eq_ok.1 h
  cases h
  refine ⟨_, h1, ?_⟩
  rcases rest with _ | ⟨t, rest⟩ <;> rw [moreTemporal] at h2
  · exact stops_nil
  · split at h2
    · next hop => rcases hop with h | h <;> simp [stops_cons, h]
    · cases h2
      exact hs

theorem temporal_of_conjunction {p : Parsed Formula ts.length} (h : conjunction cx ts = .ok p)
    (hs : Stops p.rest) : ∃ q, temporal cx ts = .ok q ∧ Stops q.rest := by
  rw [conjunction] at h
  obtain ⟨⟨l, rest, hlt⟩, h1, h⟩ := Attempt.bind_eq_ok.1 h
  obtain ⟨p', h2, h⟩ := Attempt.bind_eq_ok.1 h
  cases h
  refine ⟨_, h1, ?_⟩
  rcases rest with _ | ⟨t, rest⟩ <;> rw [moreConjuncts] at h2
  · exact stops_nil
  · split at h2
    · next hop => rcases hop with h | h | h <;> simp [stops_cons, h]
    · cases h2
      exact hs

theorem conjunction_of_disjunction {p : Parsed Formula ts.length} (h : disjunction cx ts = .ok p)
    (hs : Stops p.rest) : ∃ q, conjunction cx ts = .ok q ∧ Stops q.rest := by
  rw [disjunction] at h
  obtain ⟨⟨l, rest, hlt⟩, h1, h⟩ := Attempt.bind_eq_ok.1 h
  obtain ⟨p', h2, h⟩ := Attempt.bind_eq_ok.1 h
  cases h
  refine ⟨_, h1, ?_⟩
  rcases rest with _ | ⟨t, rest⟩ <;> rw [moreDisjuncts] at h2
  · exact stops_nil
  · split at h2
    · next hop => rcases hop with h | h | h <;> simp [stops_cons, h]
    · cases h2
      exact hs

/-- What a formula begins with is not followed by an arithmetic operator. -/
theorem unary_of_implication {p : Parsed Formula ts.length} (h : implication cx ts = .ok p)
    (hs : Stops p.rest) : ∃ q, unary cx ts = .ok q ∧ Stops q.rest := by
  rw [implication] at h
  obtain ⟨⟨l, rest, hlt⟩, h1, h⟩ := Attempt.bind_eq_ok.1 h
  have hrest : Stops rest := by
    rcases rest with _ | ⟨t, rest⟩
    · exact stops_nil
    · dsimp only at h
      split at h
      · next hop => rcases hop with h | h <;> simp [stops_cons, h]
      · cases h
        exact hs
  obtain ⟨q1, h1, hs1⟩ := conjunction_of_disjunction h1 hrest
  obtain ⟨q2, h2, hs2⟩ := temporal_of_conjunction h1 hs1
  exact unary_of_temporal h2 hs2

theorem sum_error {e : Failure} (h : factor cx ts = .error e) : sum cx ts = .error e := by
  rw [sum, product, h]
  rfl

theorem comparison_error {e : Failure} (h : sum cx ts = .error e) :
    comparison cx ts = .error e := by
  rw [comparison, h]
  rfl

/-- An operand in parentheses that cannot be read. -/
theorem factor_open {t : Token} (hopen : t.text = "(") {e : Failure}
    (h : sum cx ts = .error e) : factor cx (t :: ts) = .error e := by
  rw [factor, if_neg (by rw [hopen]; decide), if_pos hopen, h]
  rfl

theorem comparison_open {t : Token} (hopen : t.text = "(") {e : Failure}
    (h : sum cx ts = .error e) : comparison cx (t :: ts) = .error e :=
  comparison_error (sum_error (factor_open hopen h))

section Parentheses

variable {t c : Token} {cs : List Token} {a : Term} {hlt : (c :: cs).length < ts.length}
  (hopen : t.text = "(") (h : sum cx ts = .ok ⟨a, c :: cs, hlt⟩)
include hopen h

theorem factor_closed (text : c.text = ")") :
    ∃ hlt', factor cx (t :: ts) = .ok ⟨a, cs, hlt'⟩ := by
  have behind : cs.length < (t :: ts).length := by simp at hlt ⊢; omega
  refine ⟨behind, ?_⟩
  rw [factor, if_neg (by rw [hopen]; decide), if_pos hopen, h]
  dsimp only [Attempt.bind_ok]
  rw [expect, if_pos text]
  rfl

theorem factor_unclosed (text : c.text ≠ ")") :
    factor cx (t :: ts) = .error (.unreadable (.expected ")" c.text) c.offset) := by
  rw [factor, if_neg (by rw [hopen]; decide), if_pos hopen, h]
  dsimp only [Attempt.bind_ok]
  rw [expect, if_neg text]
  rfl

end Parentheses

theorem sum_of_comparison {p : Parsed Term ts.length} (h : comparison cx ts = .ok p) :
    ∃ q, sum cx ts = .ok q := by
  obtain ⟨q, hq, -⟩ := Attempt.bind_eq_ok.1 h
  exact ⟨q, hq⟩

variable {t : Token} {rest : List Token}

/-- No expression begins with a symbol other than a minus or a parenthesis. -/
theorem factor_symbol (hk : t.kind = .symbol) (hminus : t.text ≠ "-") (hopen : t.text ≠ "(") :
    ∃ e, factor cx (t :: rest) = .error e ∧ e.isFault = false := by
  rw [factor, if_neg hminus, if_neg hopen, if_neg (by rw [hk]; decide), if_neg (by rw [hk]; decide)]
  exact ⟨_, rfl, rfl⟩

/-- A formula that begins with such a symbol is a comparison. -/
theorem comparison_of_primary (hk : t.kind = .symbol) (hopen : t.text ≠ "(")
    {p : Parsed Formula (rest.length + 1)} (h : primary cx (t :: rest) = .ok p) :
    ∃ q, comparison cx (t :: rest) = .ok q := by
  rw [primary] at h
  dsimp only at h
  rw [if_neg (by simp [hk]), if_neg (by simp [hk]), if_neg (by simp [hk])] at h
  split at h
  · next q hq => exact ⟨q, hq⟩
  · rw [if_pos (Or.inr hopen)] at h
    cases h

theorem reference_value (hcx : cx.constraintOnly = false) {p : Parsed Term (rest.length + 1)}
    (h : reference cx t rest = .ok p) : NotBool p.value ∧ p.rest = rest := by
  unfold reference at h
  split at h
  · cases h
  split at h
  · cases h
  dsimp only at h
  split at h
  · cases h
    exact ⟨notBool_var _, rfl⟩
  split at h
  · rw [hcx] at h
    cases h
  · cases h
    exact ⟨notBool_var _, rfl⟩

theorem reference_mild {e : Failure} (h : reference cx t rest = .error e) : e.isFault = false := by
  unfold reference at h
  split at h
  · cases h
    rfl
  split at h
  · cases h
    rfl
  dsimp only at h
  split at h
  · cases h
  split at h
  · split at h
    · cases h
    · cases h
      rfl
  · cases h

/-- The word for negation may be a variable. -/
theorem factor_not (hcx : cx.constraintOnly = false) (ht : t.text = "not") :
    (∃ e, factor cx (t :: rest) = .error e ∧ e.isFault = false) ∨
      ∃ a h, factor cx (t :: rest) = .ok ⟨a, rest, h⟩ ∧ NotBool a := by
  rw [factor, if_neg (by rw [ht]; decide), if_neg (by rw [ht]; decide)]
  split
  · unfold numeral
    split
    · exact Or.inr ⟨_, by simp, rfl, notBool_num _ _⟩
    · exact Or.inl ⟨_, rfl, rfl⟩
  split
  · rw [if_neg (by rw [ht]; decide)]
    cases hr : reference cx t rest with
    | error e => exact Or.inl ⟨e, rfl, reference_mild hr⟩
    | ok p =>
      obtain ⟨hvalue, hrest⟩ := reference_value hcx hr
      obtain ⟨a, r, hlt⟩ := p
      dsimp only at hrest
      subst hrest
      exact Or.inr ⟨a, hlt, rfl, hvalue⟩
  · exact Or.inl ⟨_, rfl, rfl⟩

theorem mild_of_factor (h : ∃ e, factor cx ts = .error e ∧ e.isFault = false) {e : Failure}
    (he : sum cx ts = .error e) : e.isFault = false := by
  obtain ⟨e', h, mild⟩ := h
  rw [sum_error h] at he
  cases he
  exact mild

theorem not_error {q : Parsed Term ts.length} (h : sum cx ts = .ok q) {e : Failure}
    (he : sum cx ts = .error e) : e.isFault = false := by
  rw [h] at he
  cases he

theorem factor_ident (ht : t.Worded) (hk : t.kind = .ident) : factor cx (t :: rest) =
    if t.text = "true" ∨ t.text = "false" then .ok ⟨.bool (t.text = "true"), rest, by simp⟩
    else reference cx t rest := by
  have ne {s : String} (hs : s.toList.head?.all (fun c => !(isIdentChar c || c == '.')) = true) :
      t.text ≠ s := by
    rintro rfl
    rw [ht.isSymbol hs] at hk
    cases hk
  rw [factor, if_neg (ne (by decide)), if_neg (ne (by decide)), if_neg (by rw [hk]; decide),
    if_pos hk]

theorem sum_mild_of_primary (ht : t.Worded) {p : Parsed Formula (rest.length + 1)}
    (hp : primary cx (t :: rest) = .ok p) (hs : Stops p.rest) {e : Failure}
    (he : sum cx (t :: rest) = .error e) : e.isFault = false := by
  rw [primary] at hp
  dsimp only at hp
  obtain ⟨decl, hdecl⟩ : ∃ decl, decl = if t.kind = .ident then cx.scope.get? t.text else none :=
    ⟨_, rfl⟩
  rw [← hdecl] at hp
  have named {P : Decl → Bool} (h : decl.any P = true) :
      t.kind = .ident ∧ ∃ d, cx.scope.get? t.text = some d ∧ P d = true := by
    rw [hdecl] at h
    split at h
    · next hk => exact ⟨hk, (Option.any_eq_true _ _).1 h⟩
    · cases h
  split at hp
  · next hconst =>
    cases hp
    exact not_error (hs.sum (by rw [factor_ident ht hconst.1, if_pos hconst.2])) he
  next hconst =>
  split at hp
  · next hprop =>
    obtain ⟨hk, d, hd, hisProp⟩ := named hprop
    have undeclared : reference cx t rest =
        .error (.unreadable (.undeclared t.text) t.offset) := by
      rw [reference, hd]
      exact if_pos hisProp
    exact mild_of_factor
      ⟨_, by rw [factor_ident ht hk, if_neg fun h => hconst ⟨hk, h⟩, undeclared], rfl⟩ he
  split at hp
  · next hbool =>
    obtain ⟨hk, -⟩ := named hbool.1
    obtain ⟨⟨a, r, hlt⟩, hq, hp⟩ := Attempt.map_eq_ok.1 hp
    cases hp
    exact not_error
      (Stops.sum hs (by rw [factor_ident ht hk, if_neg fun h => hconst ⟨hk, h⟩, hq])) he
  rw [comparison_error he] at hp
  dsimp only at hp
  split at hp
  · cases hp
  · next hmild => exact Bool.eq_false_iff.2 fun h => hmild (Or.inl h)

/-- Where a formula can be read, arithmetic does not go wrong for good. -/
theorem sum_mild (hcx : cx.constraintOnly = false) (worded : ∀ t ∈ ts, t.Worded)
    {p : Parsed Formula ts.length} (hp : unary cx ts = .ok p) (hs : Stops p.rest) {e : Failure}
    (he : sum cx ts = .error e) : e.isFault = false := by
  rcases ts with _ | ⟨t, rest⟩
  · exact mild_of_factor ⟨_, by rw [factor]; rfl, rfl⟩ he
  have ht : t.Worded := worded t (by simp)
  rw [unary] at hp
  split at hp
  · next hop =>
    obtain ⟨⟨f, r, hr⟩, hf, hp⟩ := Attempt.bind_eq_ok.1 hp
    by_cases hnot : t.text = "not"
    · rcases factor_not hcx hnot with h | ⟨a, hlt, ha, hvalue⟩
      · exact mild_of_factor h he
      by_cases hstop : Stops rest
      · exact not_error (hstop.sum ha) he
      -- the operator begins the formula that is negated, so it is a minus
      rcases rest with _ | ⟨op, rest⟩
      · exact absurd stops_nil hstop
      have hop : op.text ∈ ["+", "-", "*", "/"] := not_not.1 (mt stops_cons.2 hstop)
      have hk : op.kind = .symbol := (worded op (by simp)).isSymbol (by
        simp only [List.mem_cons, List.not_mem_nil, or_false] at hop
        rcases hop with h | h | h | h <;> rw [h] <;> decide)
      have other {s : String} (hs : s ∉ ["+", "-", "*", "/"]) : op.text ≠ s := fun h => hs (h ▸ hop)
      rw [unary, if_neg (by simp [other]), if_neg (by simp [other])] at hf
      obtain ⟨c, hc⟩ := comparison_of_primary hk (other (by decide)) hf
      obtain ⟨q, hq⟩ := sum_of_comparison hc
      by_cases hminus : op.text = "-"
      · obtain ⟨q', hq'⟩ := exists_sum_minus ha hvalue hminus hq
        exact not_error hq' he
      · obtain ⟨e', he', -⟩ := factor_symbol hk hminus (other (by decide))
        rw [sum_error he'] at hq
        cases hq
    · have hop : t.text = "~" ∨ t.text = "!" := by tauto
      refine mild_of_factor (factor_symbol (ht.isSymbol ?_) ?_ ?_) he <;>
        rcases hop with h | h <;> rw [h] <;> decide
  split at hp
  · next hop =>
    refine mild_of_factor (factor_symbol (ht.isSymbol ?_) ?_ ?_) he <;>
      rcases hop with h | h <;> rw [h] <;> decide
  · exact sum_mild_of_primary ht hp hs he

/-! ## Formulas in parentheses -/

section Levels

variable {f : Formula} {hlt : rest.length < ts.length}

theorem temporal_of_unary (h : unary cx ts = .ok ⟨f, rest, hlt⟩)
    (hrest : headText rest ∉ ["U", "R"]) : temporal cx ts = .ok ⟨f, rest, hlt⟩ := by
  rw [temporal, h]
  dsimp only [Attempt.bind_ok]
  cases rest with
  | nil => rw [moreTemporal]; rfl
  | cons t rest => rw [moreTemporal, if_neg (by simpa [headText] using hrest)]; rfl

theorem conjunction_of_temporal (h : temporal cx ts = .ok ⟨f, rest, hlt⟩)
    (hrest : headText rest ∉ ["&", "/\\", "and"]) : conjunction cx ts = .ok ⟨f, rest, hlt⟩ := by
  rw [conjunction, h]
  dsimp only [Attempt.bind_ok]
  cases rest with
  | nil => rw [moreConjuncts]; rfl
  | cons t rest => rw [moreConjuncts, if_neg (by simpa [headText] using hrest)]; rfl

theorem disjunction_of_conjunction (h : conjunction cx ts = .ok ⟨f, rest, hlt⟩)
    (hrest : headText rest ∉ ["|", "\\/", "or"]) : disjunction cx ts = .ok ⟨f, rest, hlt⟩ := by
  rw [disjunction, h]
  dsimp only [Attempt.bind_ok]
  cases rest with
  | nil => rw [moreDisjuncts]; rfl
  | cons t rest => rw [moreDisjuncts, if_neg (by simpa [headText] using hrest)]; rfl

theorem implication_of_disjunction (h : disjunction cx ts = .ok ⟨f, rest, hlt⟩)
    (hrest : headText rest ∉ ["->", "=>"]) : implication cx ts = .ok ⟨f, rest, hlt⟩ := by
  rw [implication, h]
  dsimp only [Attempt.bind_ok]
  cases rest with
  | nil => rfl
  | cons t rest => dsimp only; rw [if_neg (by simpa [headText] using hrest)]; rfl

section Closed

variable (closed : headText rest ∈ ["", ")"])
include closed

theorem headText_notMem {l : List String} (hl : ∀ s ∈ ["", ")"], s ∉ l) : headText rest ∉ l :=
  hl _ closed

theorem implication_of_conjunction (h : conjunction cx ts = .ok ⟨f, rest, hlt⟩) :
    implication cx ts = .ok ⟨f, rest, hlt⟩ :=
  implication_of_disjunction
    (disjunction_of_conjunction h (headText_notMem closed (by decide)))
    (headText_notMem closed (by decide))

theorem implication_of_temporal (h : temporal cx ts = .ok ⟨f, rest, hlt⟩) :
    implication cx ts = .ok ⟨f, rest, hlt⟩ :=
  implication_of_conjunction closed
    (conjunction_of_temporal h (headText_notMem closed (by decide)))

/-- A formula is read up to the end of the text or a closing parenthesis. -/
theorem implication_of_unary (h : unary cx ts = .ok ⟨f, rest, hlt⟩) :
    implication cx ts = .ok ⟨f, rest, hlt⟩ :=
  implication_of_temporal closed (temporal_of_unary h (headText_notMem closed (by decide)))

end Closed

end Levels

/-- A formula is read from parentheses, unless a comparison is. -/
theorem unary_parens {c : Token} {cs : List Token} {f : Formula}
    {hlt : (c :: cs).length < ts.length} (hk : t.kind = .symbol) (hopen : t.text = "(")
    (hclose : c.text = ")")
    (hcmp : ∃ e, comparison cx (t :: ts) = .error e ∧ e.isFault = false)
    (h : implication cx ts = .ok ⟨f, c :: cs, hlt⟩) :
    ∃ hlt', unary cx (t :: ts) = .ok ⟨f, cs, hlt'⟩ := by
  obtain ⟨e, he, mild⟩ := hcmp
  have hlt' : cs.length < (t :: ts).length := by simp at hlt ⊢; omega
  refine ⟨hlt', ?_⟩
  rw [unary, if_neg (by rw [hopen]; decide), if_neg (by rw [hopen]; decide), primary]
  dsimp only
  rw [if_neg (by simp [hk]), if_neg (by simp [hk]), if_neg (by simp [hk]), he]
  dsimp only
  rw [if_neg (by simp [mild, hopen]), h]
  dsimp only [Attempt.bind_ok]
  rw [expect, if_pos hclose]
  rfl

variable {n length : Nat}

theorem headText_closed {cs : List Token} (closed : Followed n [] cs) :
    headText cs ∈ ["", ")"] := by
  cases closed with
  | done => simp [headText]
  | close _ text _ => simp [headText, text]

theorem stops_closed {cs : List Token} (closed : Followed n [] cs) : Stops cs := by
  have := headText_closed closed
  unfold Stops
  grind

/-- No comparison is read from a formula in parentheses. -/
theorem comparison_enclosed (worded : ∀ t ∈ ts, t.Worded) (nested : Nested ts)
    (mild : ∀ e, sum cx ts = .error e → e.isFault = false) {us : List Token}
    (hf : Followed (n + 1) ts us) (hopen : t.text = "(") :
    ∃ e, comparison (cx.ofLength length) (t :: us) = .error e ∧ e.isFault = false := by
  have hsum := (carries_arithmetic cx length _ ts us rfl hf worded).sum
  generalize hx : sum cx ts = x at hsum mild
  generalize hy : sum (cx.ofLength length) us = y at hsum
  cases hsum with
  | overruns _ _ overrun => exact (nested.not_overrun overrun).elim
  | fails same => exact ⟨_, comparison_open hopen hy, same.trans (mild _ rfl)⟩
  | @read a rest rest' _ hlt front cut paired later =>
    cases later with
    | @close _ c cs kind text closed =>
      -- the parentheses are those of an operand, but nothing is compared with it
      obtain ⟨_, hfactor⟩ := factor_closed hopen hy text
      rw [comparison, (stops_closed closed).sum hfactor]
      dsimp only [Attempt.bind_ok]
      cases closed with
      | done => exact ⟨_, rfl, rfl⟩
      | close kind _ closed =>
        obtain ⟨e, he, mild⟩ := sum_closed (cx.ofLength length) closed
        dsimp only
        rw [if_neg (by rw [kind]; decide), he]
        exact ⟨e, rfl, mild⟩
    | @step _ c c' rest rest' kind text later =>
      by_cases hclose : c.text = ")"
      · have hprefix : front ++ [c] <+: ts := ⟨rest, by simp [cut]⟩
        have hcomma : NoComma (front ++ [c]) :=
          noComma_append.2 ⟨paired.noComma, by simp [NoComma, hclose]⟩
        have := nested.depth_nonneg hprefix hcomma
        rw [depth_append, paired.nested.depth_eq paired.noComma, depth_cons, weight_closing hclose,
          depth_nil] at this
        omega
      · have hfactor := factor_unclosed hopen hy (text ▸ hclose)
        exact ⟨_, comparison_error (sum_error hfactor), rfl⟩

/-- All tokens of a formula nest. -/
theorem nested_of_implication (worded : ∀ t ∈ ts, t.Worded) {p : Parsed Formula ts.length}
    (hp : implication cx ts = .ok p) (hrest : p.rest = []) : Nested ts := by
  have whole := (resumes_formula cx 0 _ ts ts rfl (.refl ts) worded (Or.inl rfl)).implication
  rw [hp] at whole
  obtain ⟨front, -, -, cut, nested, -⟩ := whole.of_ok
  rw [hrest, List.append_nil] at cut
  exact cut ▸ nested

/-- A formula is read from parentheses as it is without. -/
theorem unary_enclosed (hcx : cx.constraintOnly = false) (worded : ∀ t ∈ ts, t.Worded)
    {p : Parsed Formula ts.length} (hp : implication cx ts = .ok p) (hrest : p.rest = [])
    {us : List Token} (hf : Followed (n + 1) ts us) (hk : t.kind = .symbol) (hopen : t.text = "(") :
    ∃ rest hlt, unary (cx.ofLength length) (t :: us) = .ok ⟨p.value, rest, hlt⟩ ∧
      Followed n [] rest := by
  have nested := nested_of_implication worded hp hrest
  obtain ⟨q, hq, hs⟩ := unary_of_implication hp (hrest ▸ stops_nil)
  have hcmp : ∃ e, comparison (cx.ofLength length) (t :: us) = .error e ∧ e.isFault = false :=
    comparison_enclosed worded nested (fun e he => sum_mild hcx worded hq hs he) hf hopen
  have later := (resumes_formula cx length _ ts us rfl hf worded
    (Or.inr nested.not_overrun)).implication
  rw [hp] at later
  obtain ⟨-, _, hlt, -, -, himplication, closed⟩ := later.of_ok
  rw [hrest] at closed
  cases closed with
  | close _ text closed =>
    obtain ⟨hlt', hunary⟩ := unary_parens hk hopen text hcmp himplication
    exact ⟨_, hlt', hunary, closed⟩

section Operators

variable {f : Formula} {hlt : rest.length < ts.length} (h : unary cx ts = .ok ⟨f, rest, hlt⟩)
include h

theorem unary_not (ht : t.text = "~") :
    ∃ hlt', unary cx (t :: ts) = .ok ⟨.not f, rest, hlt'⟩ := by
  refine ⟨by simp; omega, ?_⟩
  rw [unary, if_pos (Or.inl ht), h]
  rfl

theorem unary_windowed (hcx : cx.constraintOnly = false) {us : List Token} {w : Window}
    {hlt₁ : ts.length < us.length + 1} (hw : window cx us = .ok ⟨w, ts, hlt₁⟩)
    (ht : t.text = "[]" ∨ t.text = "<>") : ∃ hlt', unary cx (t :: us) =
      .ok ⟨if t.text = "[]" then .always w f else .eventually w f, rest, hlt'⟩ := by
  refine ⟨by simp; omega, ?_⟩
  rw [unary, if_neg (by rcases ht with ht | ht <;> rw [ht] <;> decide), if_pos ht, hcx, hw]
  dsimp only [Attempt.bind_ok]
  rw [if_neg (by decide), h]
  rfl

end Operators

def windowTokens (k : Nat) : List Token :=
  [⟨.symbol, "_", k⟩, ⟨.symbol, "[", k + 1⟩, ⟨.number, "0", k + 2⟩, ⟨.symbol, ",", k + 3⟩,
    ⟨.ident, "inf", k + 4⟩, ⟨.symbol, ")", k + 7⟩]

theorem window_unbounded (k : Nat) : ∃ hlt, window cx (windowTokens k ++ ts) =
    .ok ⟨.unbounded, ts, hlt⟩ := by
  have whole : Window.unbounded.Whole := ⟨⟨0, rfl⟩, nofun, fun _ => rfl⟩
  have words : (windowTokens k).map word = Window.unbounded.words := by cbv
  exact window_words whole words

end Parser

/-! ## Negated properties -/

namespace Formula

open HybridCheck.Token HybridCheck.Parser

variable {scope : Scope}

theorem ofChars_eq_ok {cs : List Char} {f : Formula} : ofChars scope cs = .ok f ↔
    ∃ ts p, scan cs = .ok ts ∧ implication ⟨scope, false, cs.length⟩ ts = .ok p ∧ p.rest = [] ∧
      p.value = f := by
  unfold ofChars
  constructor
  · intro h
    obtain ⟨ts, hts, h⟩ := Attempt.bind_eq_ok.1 h
    obtain ⟨p, hp, h⟩ := Attempt.bind_eq_ok.1 h
    unfold finished at h
    split at h
    · next hrest =>
      cases h
      exact ⟨ts, p, hts, hp, hrest, rfl⟩
    · cases h
  · rintro ⟨ts, p, hts, hp, hrest, rfl⟩
    refine Attempt.bind_eq_ok.2 ⟨ts, hts, Attempt.bind_eq_ok.2 ⟨p, hp, ?_⟩⟩
    unfold finished
    rw [hrest]

/-- The tokens of a formula, with the text of the formula somewhere in a longer text that closes
some parentheses behind it. -/
theorem exists_tokens {cs : List Char} {f : Formula} (h : ofChars scope cs = .ok f) (n : Nat) :
    ∃ ts, (∀ t ∈ ts, t.Worded) ∧
      (∃ p, implication ⟨scope, false, cs.length⟩ ts = .ok p ∧ p.rest = [] ∧ p.value = f) ∧
      ∀ offset, ∃ us, scanFrom offset (cs ++ List.replicate n ')') = .ok us ∧ Followed n ts us := by
  obtain ⟨ts, p, hts, hp, hrest, hvalue⟩ := ofChars_eq_ok.1 h
  have worded := worded_of_scanFrom hts
  refine ⟨ts, worded, ⟨p, hp, hrest, hvalue⟩, fun offset => ?_⟩
  exact followed_of_scanFrom (closes_replicate n) (followed_closers n) hts
    (nested_of_implication worded hp hrest).last offset

theorem ofChars_not {cs : List Char} {f : Formula} (h : ofChars scope cs = .ok f) :
    ofChars scope ('~' :: '(' :: (cs ++ [')'])) = .ok (.not f) := by
  obtain ⟨ts, worded, ⟨p, hp, hrest, rfl⟩, tokens⟩ := exists_tokens h 1
  obtain ⟨us, hus, hf⟩ := tokens 2
  obtain ⟨_, hlt, hunary, closed⟩ : ∃ rest hlt, unary ⟨scope, false, (cs ++ [')']).length + 2⟩
      (⟨.symbol, "(", 1⟩ :: us) = .ok ⟨p.value, rest, hlt⟩ ∧ Followed 0 [] rest :=
    unary_enclosed rfl worded hp hrest hf rfl rfl
  cases closed
  obtain ⟨_, hnot⟩ := unary_not (t := ⟨.symbol, "~", 0⟩) hunary rfl
  have hnot := implication_of_unary (headText_closed .done) hnot
  have hscan : scan ('~' :: '(' :: (cs ++ [')'])) =
      .ok (⟨.symbol, "~", 0⟩ :: ⟨.symbol, "(", 1⟩ :: us) :=
    scanFrom_cons (n := 0) rfl rfl (scanFrom_cons (n := 0) rfl rfl hus)
  exact ofChars_eq_ok.2 ⟨_, _, hscan, hnot, rfl, rfl⟩

theorem ofChars_not_always {cs : List Char} {f : Formula} (h : ofChars scope cs = .ok f) :
    ofChars scope ("~([]_[0,inf) (".toList ++ (cs ++ [')', ')'])) =
      .ok (.not (.always .unbounded f)) := by
  obtain ⟨ts, worded, ⟨p, hp, hrest, rfl⟩, tokens⟩ := exists_tokens h 2
  obtain ⟨us, hus, hf⟩ := tokens 14
  let cx : Context := ⟨scope, false, ("~([]_[0,inf) (".toList ++ (cs ++ [')', ')'])).length⟩
  obtain ⟨_, hlt, hunary, closed⟩ : ∃ rest hlt, unary cx (⟨.symbol, "(", 13⟩ :: us) =
      .ok ⟨p.value, rest, hlt⟩ ∧ Followed 1 [] rest :=
    unary_enclosed rfl worded hp hrest hf rfl rfl
  obtain ⟨_, hwindow⟩ := window_unbounded 4
  obtain ⟨_, halways⟩ := unary_windowed (t := ⟨.symbol, "[]", 2⟩) hunary rfl hwindow (Or.inl rfl)
  have hcmp : ∃ e, comparison cx (⟨.symbol, "(", 1⟩ :: ⟨.symbol, "[]", 2⟩ ::
      (windowTokens 4 ++ ⟨.symbol, "(", 13⟩ :: us)) = .error e ∧ e.isFault = false := by
    obtain ⟨e, he, mild⟩ : ∃ e, factor cx (⟨.symbol, "[]", 2⟩ ::
        (windowTokens 4 ++ ⟨.symbol, "(", 13⟩ :: us)) = .error e ∧ e.isFault = false :=
      factor_symbol rfl (by decide) (by decide)
    exact ⟨e, comparison_open rfl (sum_error he), mild⟩
  have himplication := implication_of_unary (headText_closed closed) halways
  obtain _ | ⟨_, text, ⟨⟩⟩ := closed
  obtain ⟨_, hunary'⟩ := unary_parens rfl rfl text hcmp himplication
  obtain ⟨_, hnot⟩ := unary_not (t := ⟨.symbol, "~", 0⟩) hunary' rfl
  have hnot := implication_of_unary (headText_closed .done) hnot
  have hscan : scan ("~([]_[0,inf) (".toList ++ (cs ++ [')', ')'])) =
      .ok (⟨.symbol, "~", 0⟩ :: ⟨.symbol, "(", 1⟩ :: ⟨.symbol, "[]", 2⟩ ::
        (windowTokens 4 ++ ⟨.symbol, "(", 13⟩ :: us)) := by
    have inner : scanFrom 13 ('(' :: (cs ++ [')', ')'])) = .ok (⟨.symbol, "(", 13⟩ :: us) :=
      scanFrom_cons (n := 0) rfl rfl hus
    have blank : scanFrom 12 (' ' :: '(' :: (cs ++ [')', ')'])) =
        .ok (⟨.symbol, "(", 13⟩ :: us) := by
      rw [scanFrom, if_pos (by decide)]
      exact inner
    have window : scanFrom 4 ("_[0,inf) (".toList ++ (cs ++ [')', ')'])) =
        .ok (windowTokens 4 ++ ⟨.symbol, "(", 13⟩ :: us) :=
      scanFrom_cons (n := 0) rfl rfl <| scanFrom_cons (n := 0) rfl rfl <|
        scanFrom_cons (n := 0) rfl rfl <| scanFrom_cons (n := 0) rfl rfl <|
        scanFrom_cons (n := 2) rfl rfl <| scanFrom_cons (n := 0) rfl rfl blank
    exact scanFrom_cons (n := 0) rfl rfl <| scanFrom_cons (n := 0) rfl rfl <|
      scanFrom_cons (n := 1) rfl rfl window
  exact ofChars_eq_ok.2 ⟨_, _, hscan, hnot, rfl, rfl⟩

end Formula

namespace Search

open Formula

variable {scope : Scope} {s : String} {f : Formula}

theorem ofText_not (h : ofText scope s = .ok f) :
    ofText scope ("~(" ++ s ++ ")") = .ok (.not f) := by
  have front : byteChars "~(" = ['~', '('] := by cbv
  have back : byteChars ")" = [')'] := by cbv
  unfold ofText at h ⊢
  rw [byteChars_append, byteChars_append, front, back]
  exact ofChars_not h

theorem ofText_not_always (h : ofText scope s = .ok f) :
    ofText scope ("~(" ++ ("[]_[0,inf) (" ++ s ++ ")") ++ ")") =
      .ok (.not (.always .unbounded f)) := by
  have front : byteChars "~(" = ['~', '('] := by cbv
  have always : byteChars "[]_[0,inf) (" = "[]_[0,inf) (".toList := by cbv
  have back : byteChars ")" = [')'] := by cbv
  unfold ofText at h ⊢
  rw [byteChars_append, byteChars_append, byteChars_append, byteChars_append, front, always, back,
    List.append_assoc, List.append_assoc]
  exact ofChars_not_always h

/-- A property text that cannot be read is objected to as it stands. One that can be read is negated
as a whole, after the unbounded always where that is implied. -/
theorem negate_negates (scope : Scope) (s : String) (globally : Bool) :
    (∀ e, ofText scope s = .error e → negate (ofText scope) s globally = .error e) ∧
    ∀ f, ofText scope s = .ok f → negate (ofText scope) s globally =
      .ok (.not (if globally = true ∧ f.isTemporal = false then .always .unbounded f else f)) := by
  refine ⟨fun e h => ?_, fun f h => ?_⟩
  · rw [negate, h]
    rfl
  · rw [negate, h]
    dsimp only [Attempt.bind_ok]
    by_cases implied : globally = true ∧ f.isTemporal = false
    · rw [if_pos implied, if_pos (by simpa using implied)]
      exact ofText_not_always h
    · rw [if_neg implied, if_neg (by simpa using implied)]
      exact ofText_not h

/-- The parenthesis before `b` is first tried as that of an operand. -/
theorem negate_of_operand_like :
    ofText [("b", ⟨.bool, .logical, false⟩), ("x_1", ⟨.real, .logical, false⟩)]
        "(b) & x_1 - 1 > 0" =
      .ok (.and [.atom (.var ⟨"b", .bool, .logical⟩),
        .atom (.cmp .gt (.sub (.var ⟨"x_1", .real, .logical⟩) (.real 1)) (.real 0))]) ∧
    negate (ofText [("b", ⟨.bool, .logical, false⟩), ("x_1", ⟨.real, .logical, false⟩)])
        "(b) & x_1 - 1 > 0" true =
      .ok (.not (.always .unbounded (.and [.atom (.var ⟨"b", .bool, .logical⟩),
        .atom (.cmp .gt (.sub (.var ⟨"x_1", .real, .logical⟩) (.real 1)) (.real 0))]))) := by
  have read : ofText [("b", ⟨.bool, .logical, false⟩), ("x_1", ⟨.real, .logical, false⟩)]
        "(b) & x_1 - 1 > 0" =
      .ok (.and [.atom (.var ⟨"b", .bool, .logical⟩),
        .atom (.cmp .gt (.sub (.var ⟨"x_1", .real, .logical⟩) (.real 1)) (.real 0))]) := by cbv
  exact ⟨read, (negate_negates _ _ true).2 _ read⟩

end Search

end HybridCheck
