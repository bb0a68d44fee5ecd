import HybridCheck.Proofs.Nesting

/-!
# Reading with closing parentheses behind

What is read from some tokens is read just the same with closing parentheses behind them, and the
parentheses are left. The one thing that could go wrong is arithmetic that lacks a closing
parenthesis and finds it behind the text: then the last tokens open more parentheses than they
close, and no formula is read from such tokens. The argument goes by the number of tokens, at every
level of the grammar at once: first for arithmetic, where a failure has to be told from a fault, and
then for formulas.
-/

namespace HybridCheck

namespace Parser

open Token

variable {α β : Type} {n k k' l l' : Nat} {cx : Context}

/-! ## Arithmetic -/

/-- Tokens with parentheses in pairs and no comma. -/
structure Paired (ts : List Token) : Prop where
  nested : Nested ts
  noComma : NoComma ts

namespace Paired

theorem nil : Paired [] := ⟨.nil, by simp [NoComma]⟩

theorem append {ts us : List Token} (ht : Paired ts) (hu : Paired us) : Paired (ts ++ us) :=
  ⟨ht.nested.append hu.nested, noComma_append.2 ⟨ht.noComma, hu.noComma⟩⟩

theorem token {t : Token} (h : t.text ∉ ["(", ")", ",", "_"]) : Paired [t] := by
  simp only [List.mem_cons, List.not_mem_nil, or_false, not_or] at h
  obtain ⟨ho, hc, hcomma, hunder⟩ := h
  refine ⟨.token (by simp [weight, ho, hc]) fun h => hunder h.2, ?_⟩
  simpa [NoComma] using hcomma

/-- Identifiers and numbers are no parentheses. -/
theorem word {t : Token} (h : t.Worded) (hk : t.kind ≠ .symbol) : Paired [t] := by
  have ne {s : String} (hs : s.toList.head?.all (fun c => !(isIdentChar c || c == '.')) = true) :
      t.text ≠ s := by
    rintro rfl
    exact hk (h.isSymbol hs)
  refine ⟨.token ?_ fun h => hk h.1, ?_⟩
  · rw [weight, if_neg (ne (by decide)), if_neg (ne (by decide))]
  · simpa [NoComma] using ne (by decide)

theorem parens {o c : Token} {ts : List Token} (ho : o.text = "(") (hc : c.text = ")")
    (h : Paired ts) : Paired (o :: (ts ++ [c])) := by
  refine ⟨.parens ho hc h.nested, ?_⟩
  intro t ht
  simp only [List.mem_cons, List.mem_append, List.not_mem_nil, or_false] at ht
  rcases ht with rfl | ht | rfl
  · simp [ho]
  · exact h.noComma t ht
  · simp [hc]

/-- A parenthesis that is opened before such tokens is still open at their end. -/
theorem overrun {o : Token} {ts : List Token} (ho : o.text = "(") (h : Paired ts) :
    Overrun (o :: ts) := by
  refine ⟨o :: ts, List.suffix_refl _, ?_, ?_⟩
  · intro t ht
    rcases List.mem_cons.1 ht with rfl | ht
    · simp [ho]
    · exact h.noComma t ht
  · rw [depth_cons, weight_opening ho, h.nested.depth_eq h.noComma]
    decide

end Paired

/-- How reading arithmetic from some tokens goes on with `n` closing parentheses behind them: the
same is read, or both fail, or the tokens end before an open parenthesis was closed. -/
inductive Carries (n : Nat) (ts : List Token) :
    Attempt (Parsed α k) → Attempt (Parsed α k') → Prop
  | read {a : α} {rest rest' : List Token} {h : rest.length < k} {h' : rest'.length < k'}
      (front : List Token) (cut : ts = front ++ rest) (paired : Paired front)
      (later : Followed n rest rest') : Carries n ts (.ok ⟨a, rest, h⟩) (.ok ⟨a, rest', h'⟩)
  | fails {e e' : Failure} (same : e'.isFault = e.isFault) : Carries n ts (.error e) (.error e')
  | overruns {e : Failure} {y : Attempt (Parsed α k')} (behind : n ≠ 0)
      (mild : e.isFault = false) (overrun : Overrun ts) : Carries n ts (.error e) y

namespace Carries

variable {ts rest : List Token} {x : Attempt (Parsed α k)} {y : Attempt (Parsed α k')}

/-- Tokens that were read before. -/
theorem after (front : List Token) (cut : ts = front ++ rest) (paired : Paired front)
    (h : Carries n rest x y) : Carries n ts x y := by
  cases h with
  | read front' cut' paired' later =>
    exact .read (front ++ front') (by rw [cut, cut', List.append_assoc]) (paired.append paired')
      later
  | fails same => exact .fails same
  | overruns behind mild overrun => exact .overruns behind mild (cut ▸ overrun.append front)

theorem bind {f : Parsed α k → Attempt (Parsed β l)} {g : Parsed α k' → Attempt (Parsed β l')}
    (h : Carries n ts x y)
    (hf : ∀ a rest rest' hlt hlt' front, ts = front ++ rest → Followed n rest rest' →
      Carries n rest (f ⟨a, rest, hlt⟩) (g ⟨a, rest', hlt'⟩)) :
    Carries n ts (x >>= f) (y >>= g) := by
  cases h with
  | read front cut paired later => exact (hf _ _ _ _ _ front cut later).after front cut paired
  | fails same => exact .fails same
  | overruns behind mild overrun => exact .overruns behind mild overrun

theorem ite {c : Prop} [Decidable c] {x' : Attempt (Parsed α k)} {y' : Attempt (Parsed α k')}
    (hthen : c → Carries n ts x y) (helse : ¬c → Carries n ts x' y') :
    Carries n ts (if c then x else x') (if c then y else y') := by
  split
  · next hc => exact hthen hc
  · next hc => exact helse hc

/-- A result that does not depend on the tokens. -/
theorem lift {γ : Type} (z : Attempt γ) {f : γ → Attempt (Parsed α k)}
    {g : γ → Attempt (Parsed α k')} (h : ∀ c, Carries n ts (f c) (g c)) :
    Carries n ts (z >>= f) (z >>= g) := by
  cases z with
  | error e => exact .fails rfl
  | ok c => exact h c

end Carries

def Context.ofLength (cx : Context) (length : Nat) : Context := { cx with length }

@[simp] theorem Context.scope_ofLength (length : Nat) : (cx.ofLength length).scope = cx.scope := rfl

@[simp] theorem Context.constraintOnly_ofLength (length : Nat) :
    (cx.ofLength length).constraintOnly = cx.constraintOnly := rfl

theorem carries_reference {length : Nat} {t u : Token} {ts us : List Token} (ht : t.Worded)
    (hk : t.kind ≠ .symbol) (text : u.text = t.text) (hf : Followed n ts us) :
    Carries n (t :: ts) (reference cx t ts) (reference (cx.ofLength length) u us) := by
  have word := Paired.word ht hk
  unfold reference
  rw [text, Context.scope_ofLength, Context.constraintOnly_ofLength]
  split
  · exact .fails rfl
  refine .ite (fun _ => .fails rfl) fun _ => ?_
  cases hf with
  | done => exact .read [t] rfl word .done
  | close hck hct hf =>
    dsimp only
    rw [if_neg (by rw [hct]; decide)]
    exact .read [t] rfl word (.close hck hct hf)
  | @step _ q q' _ _ hqk hqt hf =>
    dsimp only
    rw [hqt]
    refine .ite (fun hq => .ite (fun _ => ?_) fun _ => .fails rfl) fun _ => ?_
    · exact .read [t, q] rfl (word.append (.token (by rw [hq]; decide))) hf
    · exact .read [t] rfl word (.step hqk hqt hf)

/-- What reading arithmetic gives with closing parentheses behind. -/
structure CarriesArithmetic (n length : Nat) (cx : Context) (ts us : List Token) : Prop where
  factor : Carries n ts (factor cx ts) (factor (cx.ofLength length) us)
  moreFactors : ∀ acc,
    Carries n ts (moreFactors cx acc ts) (moreFactors (cx.ofLength length) acc us)
  product : Carries n ts (product cx ts) (product (cx.ofLength length) us)
  moreSummands : ∀ acc,
    Carries n ts (moreSummands cx acc ts) (moreSummands (cx.ofLength length) acc us)
  sum : Carries n ts (sum cx ts) (sum (cx.ofLength length) us)

variable {length : Nat}

theorem carries_factor {ts us : List Token} (hf : Followed n ts us) (worded : ∀ t ∈ ts, t.Worded)
    (below : ∀ rest rest' : List Token, rest.length < ts.length → Followed n rest rest' →
      (∀ t ∈ rest, t.Worded) → CarriesArithmetic n length cx rest rest') :
    Carries n ts (factor cx ts) (factor (cx.ofLength length) us) := by
  cases hf with
  | done =>
    rw [factor.eq_def cx, factor.eq_def (cx.ofLength length)]
    exact .fails rfl
  | @close _ c cs kind text hf =>
    rw [factor.eq_def cx, factor.eq_def (cx.ofLength length)]
    dsimp only
    rw [text, kind, if_neg (by decide), if_neg (by decide), if_neg (by decide), if_neg (by decide)]
    exact .fails rfl
  | @step _ t u ts us kind text hf =>
    rw [factor.eq_def cx, factor.eq_def (cx.ofLength length)]
    dsimp only
    rw [text, kind]
    have ht : t.Worded := worded t (by simp)
    have ih := below ts us (by simp) hf fun t ht => worded t (by simp [ht])
    refine .ite (fun hminus => ?_) fun _ => .ite (fun hopen => ?_) fun _ =>
      .ite (fun hk => ?_) fun _ => .ite (fun hk => ?_) fun _ => .fails rfl
    · refine .after [t] rfl (.token (by rw [hminus]; decide)) (ih.factor.bind ?_)
      intro a rest rest' _ _ _ _ hf
      exact .lift _ fun b => .read [] rfl .nil hf
    · revert ih
      rintro ⟨-, -, -, -, hsum⟩
      generalize sum cx ts = x at hsum ⊢
      generalize sum (cx.ofLength length) us = y at hsum ⊢
      cases hsum with
      | fails same => exact .fails same
      | overruns behind mild overrun => exact .overruns behind mild (overrun.append [t])
      | read front cut paired later =>
        dsimp only [Attempt.bind_ok]
        cases later with
        | done => exact .fails rfl
        | close =>
          rw [List.append_nil] at cut
          exact .overruns (by omega) rfl (cut ▸ paired.overrun hopen)
        | @step _ c c' rest rest' ckind ctext hf =>
          rw [expect, expect, ctext]
          by_cases hclose : c.text = ")"
          · rw [if_pos hclose, if_pos hclose]
            exact .read (t :: (front ++ [c])) (by simp [cut]) (paired.parens hopen hclose) hf
          · rw [if_neg hclose, if_neg hclose]
            exact .fails rfl
    · unfold numeral
      rw [text]
      split
      · exact .read [t] rfl (.word ht (by rw [hk]; decide)) hf
      · exact .fails rfl
    · have word : t.kind ≠ .symbol := by rw [hk]; decide
      refine .ite (fun _ => ?_) fun _ => carries_reference ht word text hf
      exact .read [t] rfl (.word ht word) hf

section

variable {ts us : List Token} (hf : Followed n ts us) (worded : ∀ t ∈ ts, t.Worded)
  (below : ∀ rest rest' : List Token, rest.length < ts.length → Followed n rest rest' →
    (∀ t ∈ rest, t.Worded) → CarriesArithmetic n length cx rest rest')
include hf worded below

theorem carries_moreFactors (acc : Term) :
    Carries n ts (moreFactors cx acc ts) (moreFactors (cx.ofLength length) acc us) := by
  rw [moreFactors.eq_def cx, moreFactors.eq_def (cx.ofLength length)]
  cases hf with
  | done => exact .read [] rfl .nil .done
  | close kind text hf =>
    dsimp only
    rw [text, if_neg (by decide)]
    exact .read [] rfl .nil (.close kind text hf)
  | @step _ t u ts us kind text hf =>
    dsimp only
    rw [text]
    have worded' : ∀ t ∈ ts, t.Worded := fun t ht => worded t (by simp [ht])
    refine .ite (fun hop => ?_) fun _ => .read [] rfl .nil (.step kind text hf)
    refine .after [t] rfl (.token (by rcases hop with h | h <;> rw [h] <;> decide)) ?_
    refine (below ts us (by simp) hf worded').factor.bind ?_
    intro b rest rest' hlt _ front cut hf
    have more := (below rest rest' (by simp; omega) hf (by
      intro t ht
      exact worded' t (by simp [cut, ht]))).moreFactors
    dsimp only
    refine .ite (fun _ => .lift _ fun acc => ?_) fun _ => .lift _ fun acc => ?_ <;>
      exact (more acc).bind fun _ _ _ _ _ _ _ hf => .read [] rfl .nil hf

theorem carries_moreSummands (acc : Term) :
    Carries n ts (moreSummands cx acc ts) (moreSummands (cx.ofLength length) acc us) := by
  rw [moreSummands.eq_def cx, moreSummands.eq_def (cx.ofLength length)]
  cases hf with
  | done => exact .read [] rfl .nil .done
  | close kind text hf =>
    dsimp only
    rw [text, if_neg (by decide)]
    exact .read [] rfl .nil (.close kind text hf)
  | @step _ t u ts us kind text hf =>
    dsimp only
    rw [text]
    have worded' : ∀ t ∈ ts, t.Worded := fun t ht => worded t (by simp [ht])
    refine .ite (fun hop => ?_) fun _ => .read [] rfl .nil (.step kind text hf)
    refine .after [t] rfl (.token (by rcases hop with h | h <;> rw [h] <;> decide)) ?_
    refine (below ts us (by simp) hf worded').product.bind ?_
    intro b rest rest' hlt _ front cut hf
    have more := (below rest rest' (by simp; omega) hf (by
      intro t ht
      exact worded' t (by simp [cut, ht]))).moreSummands
    dsimp only
    refine .ite (fun _ => .lift _ fun acc => ?_) fun _ => .lift _ fun acc => ?_ <;>
      exact (more acc).bind fun _ _ _ _ _ _ _ hf => .read [] rfl .nil hf

end

/-- Arithmetic is read with closing parentheses behind as it is without. -/
theorem carries_arithmetic (cx : Context) (length m : Nat) : ∀ ts us : List Token, ts.length = m →
    Followed n ts us → (∀ t ∈ ts, t.Worded) → CarriesArithmetic n length cx ts us := by
  induction m using Nat.strongRecOn with
  | ind m ih =>
    intro ts us hm hf worded
    subst hm
    have below (rest rest' : List Token) (hlt : rest.length < ts.length)
        (hf : Followed n rest rest') (worded : ∀ t ∈ rest, t.Worded) :
        CarriesArithmetic n length cx rest rest' := ih rest.length hlt rest rest' rfl hf worded
    have behind {front rest : List Token} (cut : ts = front ++ rest) : ∀ t ∈ rest, t.Worded :=
      fun t ht => worded t (by simp [cut, ht])
    have hfactor := carries_factor hf worded below
    have hproduct : Carries n ts (product cx ts) (product (cx.ofLength length) us) := by
      rw [product.eq_def cx, product.eq_def (cx.ofLength length)]
      refine hfactor.bind ?_
      intro a rest rest' hlt _ front cut hf
      refine ((below rest rest' hlt hf (behind cut)).moreFactors a).bind ?_
      exact fun _ _ _ _ _ _ _ hf => .read [] rfl .nil hf
    have hsum : Carries n ts (sum cx ts) (sum (cx.ofLength length) us) := by
      rw [sum.eq_def cx, sum.eq_def (cx.ofLength length)]
      refine hproduct.bind ?_
      intro a rest rest' hlt _ front cut hf
      refine ((below rest rest' hlt hf (behind cut)).moreSummands a).bind ?_
      exact fun _ _ _ _ _ _ _ hf => .read [] rfl .nil hf
    exact ⟨hfactor, carries_moreFactors hf worded below, hproduct,
      carries_moreSummands hf worded below, hsum⟩

/-! ## Comparisons -/

theorem sum_closed (cx : Context) {cs : List Token} (hf : Followed n [] cs) :
    ∃ e, sum cx cs = .error e ∧ e.isFault = false := by
  rw [sum, product]
  cases hf with
  | done =>
    rw [factor]
    exact ⟨_, rfl, rfl⟩
  | close kind text _ =>
    rw [factor, text, kind, if_neg (by decide), if_neg (by decide), if_neg (by decide),
      if_neg (by decide)]
    exact ⟨_, rfl, rfl⟩

theorem text_of_comparisonOf {op : String} {a b c : Term} (h : comparisonOf? op a b = some c) :
    op ∉ ["(", ")", ",", "_"] := by
  intro hop
  simp only [List.mem_cons, List.not_mem_nil, or_false] at hop
  rcases hop with rfl | rfl | rfl | rfl <;> simp [comparisonOf?] at h

theorem carries_comparison {ts us : List Token} (hf : Followed n ts us)
    (worded : ∀ t ∈ ts, t.Worded) :
    Carries n ts (comparison cx ts) (comparison (cx.ofLength length) us) := by
  unfold comparison
  refine (carries_arithmetic cx length _ ts us rfl hf worded).sum.bind ?_
  intro a rest rest' hlt hlt' front cut hf
  cases hf with
  | done => exact .fails rfl
  | close kind text closed =>
    -- the parenthesis is taken for an operator, and nothing can be read behind it
    obtain ⟨e, he, mild⟩ := sum_closed (cx.ofLength length) closed
    dsimp only
    rw [if_neg (by rw [kind]; decide), he]
    exact .fails mild
  | @step _ op op' rest rest' kind text hf =>
    have worded' : ∀ t ∈ rest, t.Worded := fun t ht => worded t (by simp [cut, ht])
    have hsum := (carries_arithmetic cx length _ rest rest' rfl hf worded').sum
    dsimp only
    rw [kind, text]
    refine .ite (fun _ => .fails rfl) fun _ => ?_
    generalize sum cx rest = x at hsum ⊢
    generalize sum (cx.ofLength length) rest' = y at hsum ⊢
    cases hsum with
    | fails same => exact .fails same
    | overruns behind mild overrun => exact .overruns behind mild (overrun.append [op])
    | @read b _ _ _ _ front cut paired later =>
      dsimp only [Attempt.bind_ok]
      refine .ite (fun _ => .fails rfl) fun _ => ?_
      split
      · next c hc =>
        exact .read (op :: front) (by rw [cut]; rfl)
          ((Paired.token (text_of_comparisonOf hc)).append paired) later
      · exact .fails rfl

/-! ## Formulas -/

/-- What is read from some tokens is read just the same with `n` closing parentheses behind them. -/
inductive Resumes (n : Nat) (ts : List Token) :
    Attempt (Parsed α k) → Attempt (Parsed α k') → Prop
  | read {a : α} {rest rest' : List Token} {h : rest.length < k} {h' : rest'.length < k'}
      (front : List Token) (cut : ts = front ++ rest) (nested : Nested front)
      (later : Followed n rest rest') : Resumes n ts (.ok ⟨a, rest, h⟩) (.ok ⟨a, rest', h'⟩)
  | fails {e : Failure} {y : Attempt (Parsed α k')} : Resumes n ts (.error e) y

/-- No parenthesis behind the text can be missing in it. -/
abbrev Safe (n : Nat) (ts : List Token) : Prop := n = 0 ∨ ¬Overrun ts

theorem Safe.behind (front : List Token) {rest : List Token} (h : Safe n (front ++ rest)) :
    Safe n rest :=
  h.imp_right fun h hrest => h (hrest.append front)

namespace Resumes

variable {ts rest : List Token} {x : Attempt (Parsed α k)} {y : Attempt (Parsed α k')}

theorem after (front : List Token) (cut : ts = front ++ rest) (nested : Nested front)
    (h : Resumes n rest x y) : Resumes n ts x y := by
  cases h with
  | read front' cut' nested' later =>
    exact .read (front ++ front') (by rw [cut, cut', List.append_assoc]) (nested.append nested')
      later
  | fails => exact .fails

theorem bind {f : Parsed α k → Attempt (Parsed β l)} {g : Parsed α k' → Attempt (Parsed β l')}
    (h : Resumes n ts x y)
    (hf : ∀ a rest rest' hlt hlt' front, ts = front ++ rest → Followed n rest rest' →
      Resumes n rest (f ⟨a, rest, hlt⟩) (g ⟨a, rest', hlt'⟩)) :
    Resumes n ts (x >>= f) (y >>= g) := by
  cases h with
  | read front cut nested later => exact (hf _ _ _ _ _ front cut later).after front cut nested
  | fails => exact .fails

theorem ite {c : Prop} [Decidable c] {x' : Attempt (Parsed α k)} {y' : Attempt (Parsed α k')}
    (hthen : c → Resumes n ts x y) (helse : ¬c → Resumes n ts x' y') :
    Resumes n ts (if c then x else x') (if c then y else y') := by
  split
  · next hc => exact hthen hc
  · next hc => exact helse hc

theorem of_ok {p : Parsed α k} (h : Resumes n ts (.ok p) y) : ∃ front rest' hlt',
    ts = front ++ p.rest ∧ Nested front ∧ y = .ok ⟨p.value, rest', hlt'⟩ ∧
      Followed n p.rest rest' := by
  cases h with
  | read front cut nested later => exact ⟨front, _, _, cut, nested, rfl, later⟩

theorem map (g : α → β) (h : Resumes n ts x y) :
    Resumes n ts (x.map fun p => (⟨g p.value, p.rest, p.fewer⟩ : Parsed β k))
      (y.map fun p => (⟨g p.value, p.rest, p.fewer⟩ : Parsed β k')) := by
  cases h with
  | read front cut nested later => exact .read front cut nested later
  | fails => exact .fails

theorem of_carries (h : Carries n ts x y) (safe : Safe n ts) : Resumes n ts x y := by
  cases h with
  | read front cut paired later => exact .read front cut paired.nested later
  | fails => exact .fails
  | overruns behind _ overrun => exact (safe.elim behind fun h => h overrun).elim

end Resumes

/-! ### Windows -/

/-- A reader takes one token, and what it reads depends on the class and text of the token only. -/
def TakesOne (P : Token → Prop) (read : (ts : List Token) → Attempt (Parsed α ts.length))
    (read' : (ts : List Token) → Attempt (Parsed α ts.length)) : Prop :=
  ∀ ts p, read ts = .ok p → ∃ t, ts = t :: p.rest ∧ P t ∧
    ∀ u us, u.kind = t.kind → u.text = t.text →
      ∃ h, read' (u :: us) = .ok ⟨p.value, us, h⟩

theorem TakesOne.bind {P : Token → Prop} {read : (ts : List Token) → Attempt (Parsed α ts.length)}
    {read' : (ts : List Token) → Attempt (Parsed α ts.length)} {whole ts us : List Token}
    {f : Parsed α ts.length → Attempt (Parsed β l)} {g : Parsed α us.length → Attempt (Parsed β l')}
    (h : TakesOne P read read') (hf : Followed n ts us)
    (hg : ∀ a t u rest rest' hlt hlt', ts = t :: rest → us = u :: rest' → P t →
      Followed n rest rest' → Resumes n whole (f ⟨a, rest, hlt⟩) (g ⟨a, rest', hlt'⟩)) :
    Resumes n whole (read ts >>= f) (read' us >>= g) := by
  cases hx : read ts with
  | error e => exact .fails
  | ok p =>
    obtain ⟨t, hts, ht, again⟩ := h ts p hx
    obtain ⟨a, rest, hlt⟩ := p
    dsimp only at hts
    subst hts
    obtain _ | _ | ⟨kind, text, hf⟩ := hf
    obtain ⟨hlt', hy⟩ := again _ _ kind text
    rw [hy]
    exact hg a t _ rest _ hlt hlt' rfl rfl ht hf

theorem takesOne_opening : TakesOne (fun t => t.text = "[" ∨ t.text = "(") (opening cx)
    (opening (cx.ofLength length)) := by
  intro ts p hp
  unfold opening at hp
  split at hp
  · cases hp
  next t rest =>
  split at hp
  · next h =>
    cases hp
    refine ⟨t, rfl, Or.inl h, fun u us _ text => ⟨by simp, ?_⟩⟩
    simp [opening, text, h]
  split at hp
  · next h' h =>
    cases hp
    refine ⟨t, rfl, Or.inr h, fun u us _ text => ⟨by simp, ?_⟩⟩
    simp [opening, text, h]
  · cases hp

theorem takesOne_closing : TakesOne (fun t => t.text = "]" ∨ t.text = ")") (closing cx)
    (closing (cx.ofLength length)) := by
  intro ts p hp
  unfold closing at hp
  split at hp
  · cases hp
  next t rest =>
  split at hp
  · next h =>
    cases hp
    refine ⟨t, rfl, Or.inl h, fun u us _ text => ⟨by simp, ?_⟩⟩
    simp [closing, text, h]
  split at hp
  · next h' h =>
    cases hp
    refine ⟨t, rfl, Or.inr h, fun u us _ text => ⟨by simp, ?_⟩⟩
    simp [closing, text, h]
  · cases hp

theorem takesOne_expect (wanted : String) : TakesOne (fun t => t.text = wanted) (expect cx wanted)
    (expect (cx.ofLength length) wanted) := by
  intro ts p hp
  unfold expect at hp
  split at hp
  · cases hp
  next t rest =>
  split at hp
  · next h =>
    cases hp
    refine ⟨t, rfl, h, fun u us _ text => ⟨by simp, ?_⟩⟩
    simp [expect, text, h]
  · cases hp

theorem numeral_congr {t u : Token} {q : Rat} (text : u.text = t.text) (h : numeral t = .ok q) :
    numeral u = .ok q := by
  unfold numeral at h ⊢
  rw [text]
  split at h
  · exact h
  · cases h

theorem takesOne_lowerBound : TakesOne (fun t => t.kind ≠ .symbol) (lowerBound cx)
    (lowerBound (cx.ofLength length)) := by
  intro ts p hp
  unfold lowerBound at hp
  split at hp
  · cases hp
  next t rest =>
  split at hp
  · next h =>
    obtain ⟨q, hq, hp⟩ := Attempt.bind_eq_ok.1 hp
    cases hp
    refine ⟨t, rfl, by simp [h], fun u us kind text => ⟨by simp, ?_⟩⟩
    rw [lowerBound, if_pos (kind.trans h), numeral_congr text hq]
    rfl
  · cases hp

theorem takesOne_upperBound : TakesOne (fun t => t.kind ≠ .symbol) (upperBound cx)
    (upperBound (cx.ofLength length)) := by
  intro ts p hp
  unfold upperBound at hp
  split at hp
  · cases hp
  next t rest =>
  split at hp
  · next h =>
    cases hp
    refine ⟨t, rfl, by simp [h.1], fun u us kind text => ⟨by simp, ?_⟩⟩
    rw [upperBound, if_pos ⟨kind.trans h.1, text.trans h.2⟩]
  next h =>
  split at hp
  · next hk =>
    obtain ⟨q, hq, hp⟩ := Attempt.bind_eq_ok.1 hp
    cases hp
    refine ⟨t, rfl, by simp [hk], fun u us kind text => ⟨by simp, ?_⟩⟩
    rw [upperBound, if_neg (by rw [kind, text]; exact h), if_pos (kind.trans hk),
      numeral_congr text hq]
    rfl
  · cases hp

/-- A word has no weight. -/
theorem weight_word {t : Token} (h : t.Worded) (hk : t.kind ≠ .symbol) : t.weight = 0 := by
  have := (Paired.word h hk).nested.depth_eq (Paired.word h hk).noComma
  simpa using this

theorem resumes_window {ts us : List Token} (hf : Followed n ts us) (worded : ∀ t ∈ ts, t.Worded) :
    Resumes n ts (window cx ts) (window (cx.ofLength length) us) := by
  unfold window
  cases hf with
  | done => exact .read [] rfl .nil .done
  | close kind text hf =>
    dsimp only
    rw [text, if_neg (by decide)]
    exact .read [] rfl .nil (.close kind text hf)
  | @step _ t u ts us kind text hf =>
    dsimp only
    rw [text]
    refine .ite (fun hunder => ?_) fun _ => .read [] rfl .nil (.step kind text hf)
    refine takesOne_opening.bind hf ?_
    rintro leftOpen o _ ts us _ _ rfl rfl ho hf
    refine takesOne_lowerBound.bind hf ?_
    rintro lo tlo _ ts us _ _ rfl rfl hlo hf
    refine (takesOne_expect ",").bind hf ?_
    rintro _ comma _ ts us _ _ rfl rfl hcomma hf
    refine takesOne_upperBound.bind hf ?_
    rintro hi thi _ ts us _ _ rfl rfl hhi hf
    refine takesOne_closing.bind hf ?_
    rintro rightOpen c _ ts us _ _ rfl rfl hc hf
    have nested : Nested [t, o, tlo, comma, thi, c] :=
      .window hunder ho (weight_word (worded tlo (by simp)) hlo) hcomma
        (weight_word (worded thi (by simp)) hhi) hc
    dsimp only
    cases hi with
    | none => exact .read _ rfl nested hf
    | some hi => exact .ite (fun _ => .fails) fun _ => .read _ rfl nested hf

/-- What reading formulas gives with closing parentheses behind. -/
structure ResumesFormula (n length : Nat) (cx : Context) (ts us : List Token) : Prop where
  primary : Resumes n ts (primary cx ts) (primary (cx.ofLength length) us)
  unary : Resumes n ts (unary cx ts) (unary (cx.ofLength length) us)
  moreTemporal : ∀ acc,
    Resumes n ts (moreTemporal cx acc ts) (moreTemporal (cx.ofLength length) acc us)
  temporal : Resumes n ts (temporal cx ts) (temporal (cx.ofLength length) us)
  moreConjuncts : Resumes n ts (moreConjuncts cx ts) (moreConjuncts (cx.ofLength length) us)
  conjunction : Resumes n ts (conjunction cx ts) (conjunction (cx.ofLength length) us)
  moreDisjuncts : Resumes n ts (moreDisjuncts cx ts) (moreDisjuncts (cx.ofLength length) us)
  disjunction : Resumes n ts (disjunction cx ts) (disjunction (cx.ofLength length) us)
  implication : Resumes n ts (implication cx ts) (implication (cx.ofLength length) us)

theorem continuesComparison_followed {ts us : List Token} (hf : Followed n ts us) :
    continuesComparison us = continuesComparison ts := by
  unfold continuesComparison
  cases hf with
  | done => rfl
  | close kind text _ => simp [headText, text]
  | @step _ t u ts us kind text hf =>
    simp only [headText, text, List.drop_succ_cons, List.drop_zero]
    by_cases hq : t.text = "'"
    · rw [if_pos hq, if_pos hq]
      cases hf with
      | done => rfl
      | close _ text _ => simp [text]
      | step kind text _ => simp [kind, text]
    · rw [if_neg hq, if_neg hq]
      simp [kind, text]

theorem resumes_primary {ts us : List Token} (hf : Followed n ts us) (worded : ∀ t ∈ ts, t.Worded)
    (safe : Safe n ts)
    (below : ∀ rest rest' : List Token, rest.length < ts.length → Followed n rest rest' →
      (∀ t ∈ rest, t.Worded) → Safe n rest →
      Resumes n rest (implication cx rest) (implication (cx.ofLength length) rest')) :
    Resumes n ts (primary cx ts) (primary (cx.ofLength length) us) := by
  have hcmp : Carries n ts (comparison cx ts) (comparison (cx.ofLength length) us) :=
    carries_comparison hf worded
  have nothing : ∃ e, primary cx [] = .error e := by
    obtain ⟨e, he, -⟩ := sum_closed cx .done
    exact ⟨e, by rw [primary, comparison, he]; rfl⟩
  cases hf with
  | done | close =>
    obtain ⟨e, he⟩ := nothing
    rw [he]
    exact .fails
  | @step _ t u ts us kind text hf =>
    have ht : t.Worded := worded t (by simp)
    rw [primary.eq_def cx, primary.eq_def (cx.ofLength length)]
    dsimp only
    rw [kind, text, Context.scope_ofLength, Context.constraintOnly_ofLength,
      continuesComparison_followed hf]
    have named {P : Decl → Bool}
        (h : (if t.kind = .ident then cx.scope.get? t.text else none).any P = true) :
        t.kind ≠ .symbol := by
      intro hk
      rw [hk] at h
      cases h
    refine .ite (fun hconst => ?_) fun _ => .ite (fun hprop => .ite (fun _ => .fails) fun _ => ?_)
      fun _ => .ite (fun hbool => ?_) fun _ => ?_
    · exact .read [t] rfl (Paired.word ht (by simp [hconst.1])).nested hf
    · exact .read [t] rfl (Paired.word ht (named hprop)).nested hf
    · have hread : Carries n (t :: ts) (reference cx t ts)
          (reference (cx.ofLength length) u us) := carries_reference ht (named hbool.1) text hf
      exact .map _ (.of_carries hread safe)
    · have himp := below ts us (by simp) hf (fun t ht => worded t (by simp [ht]))
        (Safe.behind [t] safe)
      generalize comparison cx (t :: ts) = x at hcmp ⊢
      generalize comparison (cx.ofLength length) (u :: us) = y at hcmp ⊢
      cases hcmp with
      | read front cut paired later => exact .read front cut paired.nested later
      | overruns behind _ overrun => exact (safe.elim behind fun h => h overrun).elim
      | fails same =>
        dsimp only
        rw [same]
        refine .ite (fun _ => .fails) fun hopen => ?_
        have hopen : t.text = "(" := by_contra fun h => hopen (Or.inr h)
        generalize implication cx ts = x at himp ⊢
        generalize implication (cx.ofLength length) us = y at himp ⊢
        cases himp with
        | fails => exact .fails
        | read front cut nested later =>
          dsimp only [Attempt.bind_ok]
          cases later with
          | done | close => exact .fails
          | @step _ c c' _ _ ckind ctext later =>
            rw [expect, expect, ctext]
            by_cases hclose : c.text = ")"
            · rw [if_pos hclose, if_pos hclose]
              exact .read (t :: (front ++ [c])) (by simp [cut]) (.parens hopen hclose nested) later
            · rw [if_neg hclose]
              exact .fails

section

variable {ts us : List Token} (hf : Followed n ts us)
  (below : ∀ (front : List Token) {rest rest' : List Token}, ts = front ++ rest →
    rest.length < ts.length → Followed n rest rest' → ResumesFormula n length cx rest rest')
include hf below

theorem resumes_unary (worded : ∀ t ∈ ts, t.Worded)
    (hprimary : Resumes n ts (primary cx ts) (primary (cx.ofLength length) us)) :
    Resumes n ts (unary cx ts) (unary (cx.ofLength length) us) := by
  rw [unary.eq_def cx, unary.eq_def (cx.ofLength length)]
  cases hf with
  | done => exact hprimary
  | close kind text hf =>
    dsimp only
    rw [text, if_neg (by decide), if_neg (by decide)]
    exact hprimary
  | @step _ t u ts us kind text hf =>
    dsimp only
    rw [text, Context.constraintOnly_ofLength]
    refine .ite (fun hop => ?_) fun _ => .ite (fun hop => .ite (fun _ => .fails) fun _ => ?_)
      fun _ => hprimary
    · have token : Paired [t] := .token (by rcases hop with h | h | h <;> rw [h] <;> decide)
      refine .after [t] rfl token.nested ?_
      refine (below [t] rfl (by simp) hf).unary.bind ?_
      exact fun _ _ _ _ _ _ _ hf => .read [] rfl .nil hf
    · have token : Paired [t] := .token (by rcases hop with h | h <;> rw [h] <;> decide)
      refine .after [t] rfl token.nested ?_
      refine (resumes_window hf fun t ht => worded t (by simp [ht])).bind ?_
      intro w rest rest' hlt _ front cut hf
      refine (below (t :: front) (by simp [cut]) (by simp; omega) hf).unary.bind ?_
      exact fun _ _ _ _ _ _ _ hf => .read [] rfl .nil hf

theorem resumes_moreTemporal (worded : ∀ t ∈ ts, t.Worded) (acc : Formula) :
    Resumes n ts (moreTemporal cx acc ts) (moreTemporal (cx.ofLength length) acc us) := by
  rw [moreTemporal.eq_def cx, moreTemporal.eq_def (cx.ofLength length)]
  cases hf with
  | done => exact .read [] rfl .nil .done
  | close kind text hf =>
    dsimp only
    rw [text, if_neg (by decide)]
    exact .read [] rfl .nil (.close kind text hf)
  | @step _ t u ts us kind text hf =>
    dsimp only
    rw [text, Context.constraintOnly_ofLength]
    refine .ite (fun hop => .ite (fun _ => .fails) fun _ => ?_)
      fun _ => .read [] rfl .nil (.step kind text hf)
    have token : Paired [t] := .token (by rcases hop with h | h <;> rw [h] <;> decide)
    refine .after [t] rfl token.nested ?_
    refine (resumes_window hf fun t ht => worded t (by simp [ht])).bind ?_
    intro w rest rest' hlt _ front cut hf
    refine (below (t :: front) (by simp [cut]) (by simp; omega) hf).unary.bind ?_
    intro r rest2 rest2' hlt2 _ front2 cut2 hf
    refine ((below (t :: (front ++ front2)) (by simp [cut, cut2]) (by simp; omega)
      hf).moreTemporal _).bind ?_
    exact fun _ _ _ _ _ _ _ hf => .read [] rfl .nil hf

theorem resumes_moreConjuncts :
    Resumes n ts (moreConjuncts cx ts) (moreConjuncts (cx.ofLength length) us) := by
  rw [moreConjuncts.eq_def cx, moreConjuncts.eq_def (cx.ofLength length)]
  cases hf with
  | done => exact .read [] rfl .nil .done
  | close kind text hf =>
    dsimp only
    rw [text, if_neg (by decide)]
    exact .read [] rfl .nil (.close kind text hf)
  | @step _ t u ts us kind text hf =>
    dsimp only
    rw [text]
    refine .ite (fun hop => ?_) fun _ => .read [] rfl .nil (.step kind text hf)
    have token : Paired [t] := .token (by rcases hop with h | h | h <;> rw [h] <;> decide)
    refine .after [t] rfl token.nested ?_
    refine (below [t] rfl (by simp) hf).temporal.bind ?_
    intro f rest rest' hlt _ front cut hf
    refine (below (t :: front) (by simp [cut]) (by simp; omega) hf).moreConjuncts.bind ?_
    exact fun _ _ _ _ _ _ _ hf => .read [] rfl .nil hf

theorem resumes_moreDisjuncts :
    Resumes n ts (moreDisjuncts cx ts) (moreDisjuncts (cx.ofLength length) us) := by
  rw [moreDisjuncts.eq_def cx, moreDisjuncts.eq_def (cx.ofLength length)]
  cases hf with
  | done => exact .read [] rfl .nil .done
  | close kind text hf =>
    dsimp only
    rw [text, if_neg (by decide)]
    exact .read [] rfl .nil (.close kind text hf)
  | @step _ t u ts us kind text hf =>
    dsimp only
    rw [text]
    refine .ite (fun hop => ?_) fun _ => .read [] rfl .nil (.step kind text hf)
    have token : Paired [t] := .token (by rcases hop with h | h | h <;> rw [h] <;> decide)
    refine .after [t] rfl token.nested ?_
    refine (below [t] rfl (by simp) hf).conjunction.bind ?_
    intro f rest rest' hlt _ front cut hf
    refine (below (t :: front) (by simp [cut]) (by simp; omega) hf).moreDisjuncts.bind ?_
    exact fun _ _ _ _ _ _ _ hf => .read [] rfl .nil hf

omit hf in
theorem resumes_implication
    (hdisjunction : Resumes n ts (disjunction cx ts) (disjunction (cx.ofLength length) us)) :
    Resumes n ts (implication cx ts) (implication (cx.ofLength length) us) := by
  rw [implication.eq_def cx, implication.eq_def (cx.ofLength length)]
  refine hdisjunction.bind ?_
  intro f rest rest' hlt hlt' front cut hf
  cases hf with
  | done => exact .read [] rfl .nil .done
  | close kind text closed =>
    dsimp only
    rw [if_neg (by rw [text]; decide)]
    exact .read [] rfl .nil (.close kind text closed)
  | @step _ t u rest rest' kind text hf =>
    dsimp only
    rw [text]
    refine .ite (fun hop => ?_) fun _ => .read [] rfl .nil (.step kind text hf)
    have token : Paired [t] := .token (by rcases hop with h | h <;> rw [h] <;> decide)
    refine .after [t] rfl token.nested ?_
    refine (below (front ++ [t]) (by simp [cut]) (by simp at hlt; omega) hf).implication.bind ?_
    exact fun _ _ _ _ _ _ _ hf => .read [] rfl .nil hf

end

/-- A formula is read with closing parentheses behind as it is without. -/
theorem resumes_formula (cx : Context) (length m : Nat) : ∀ ts us : List Token, ts.length = m →
    Followed n ts us → (∀ t ∈ ts, t.Worded) → Safe n ts → ResumesFormula n length cx ts us := by
  induction m using Nat.strongRecOn with
  | ind m ih =>
    intro ts us hm hf worded safe
    subst hm
    have below (front : List Token) {rest rest' : List Token} (cut : ts = front ++ rest)
        (hlt : rest.length < ts.length) (hf : Followed n rest rest') :
        ResumesFormula n length cx rest rest' :=
      ih rest.length hlt rest rest' rfl hf (fun t ht => worded t (by simp [cut, ht]))
        (Safe.behind front (cut ▸ safe))
    have hprimary : Resumes n ts (primary cx ts) (primary (cx.ofLength length) us) := by
      refine resumes_primary hf worded safe fun rest rest' hlt hf worded safe => ?_
      exact (ih rest.length hlt rest rest' rfl hf worded safe).implication
    have hunary := resumes_unary hf below worded hprimary
    -- every level is read from the one below it and from what it says of the rest
    have htemporal : Resumes n ts (temporal cx ts) (temporal (cx.ofLength length) us) := by
      rw [temporal.eq_def cx, temporal.eq_def (cx.ofLength length)]
      refine hunary.bind ?_
      intro l rest rest' hlt _ front cut hf
      refine ((below front cut hlt hf).moreTemporal l).bind ?_
      exact fun _ _ _ _ _ _ _ hf => .read [] rfl .nil hf
    have hconjunction : Resumes n ts (conjunction cx ts) (conjunction (cx.ofLength length) us) := by
      rw [conjunction.eq_def cx, conjunction.eq_def (cx.ofLength length)]
      refine htemporal.bind ?_
      intro f rest rest' hlt _ front cut hf
      refine (below front cut hlt hf).moreConjuncts.bind ?_
      exact fun _ _ _ _ _ _ _ hf => .read [] rfl .nil hf
    have hdisjunction : Resumes n ts (disjunction cx ts) (disjunction (cx.ofLength length) us) := by
      rw [disjunction.eq_def cx, disjunction.eq_def (cx.ofLength length)]
      refine hconjunction.bind ?_
      intro f rest rest' hlt _ front cut hf
      refine (below front cut hlt hf).moreDisjuncts.bind ?_
      exact fun _ _ _ _ _ _ _ hf => .read [] rfl .nil hf
    exact ⟨hprimary, hunary, resumes_moreTemporal hf below worded, htemporal,
      resumes_moreConjuncts hf below, hconjunction, resumes_moreDisjuncts hf below, hdisjunction,
      resumes_implication below hdisjunction⟩

end Parser

end HybridCheck
