import HybridCheck.Proofs.Negation

/-!
# Printed formulas are read back

A formula without constraints whose propositions are in scope is read back from its text exactly as
it was. Every operator but negation is written with its operands in parentheses, so grouping and
precedence do not matter. A parenthesis is first tried as that of an arithmetic operand: what it
begins with is an operator, a proposition or another parenthesis, none of which is arithmetic, or a
constant that is followed by an operator and not by the closing parenthesis. So the attempt fails,
and never for good.
-/

namespace HybridCheck

namespace Parser

open Token

/-- The words with a meaning of their own in formula text. -/
def reserved : List String := ["true", "false", "not", "and", "or", "U", "R", "inf"]

/-- A name is one word, is not reserved and stands for a proposition. -/
structure NamesProp (scope : Scope) (name : String) : Prop where
  word : Formula.IsWordName name
  free : name ∉ reserved
  declared : ∃ d, scope.get? name = some d ∧ d.isProp = true

variable {cx : Context} {t c : Token} {ts us rest : List Token} {f : Formula}

/-! ## Arithmetic that is tried first -/

/-- Reading arithmetic fails, though not for good, or stops at the given tokens. -/
def Tried (cx : Context) (ts rest : List Token) : Prop :=
  (∃ e, sum cx ts = .error e ∧ e.isFault = false) ∨ ∃ a hlt, sum cx ts = .ok ⟨a, rest, hlt⟩

theorem tried_of_factor (h : ∃ e, factor cx ts = .error e ∧ e.isFault = false) :
    Tried cx ts rest := by
  obtain ⟨e, he, mild⟩ := h
  exact Or.inl ⟨e, sum_error he, mild⟩

/-- An operand in parentheses is not read if something else stands where they should be closed. -/
theorem Tried.factor_open (h : Tried cx ts (c :: rest)) (hopen : t.text = "(")
    (hclose : c.text ≠ ")") : ∃ e, factor cx (t :: ts) = .error e ∧ e.isFault = false := by
  obtain ⟨e, he, mild⟩ | ⟨a, hlt, ha⟩ := h
  · exact ⟨e, Parser.factor_open hopen he, mild⟩
  · exact ⟨_, factor_unclosed hopen ha hclose, rfl⟩

theorem ne_of_isIdentifier {name s : String} (h : isIdentifier name = true)
    (hs : isIdentifier s = false) : name ≠ s := by
  rintro rfl
  rw [h] at hs
  cases hs

theorem worded_of_isIdentifier (h : isIdentifier t.text = true) : t.Worded := by
  intro _
  obtain ⟨-, c, s, hs, hc⟩ := isWord_of_identifier h
  exact ⟨c, by simp [hs], by simp [isIdentChar, hc]⟩

/-- A name of a proposition is read as that, unless it is a constant or a negation. -/
theorem unary_prop (valid : isIdentifier t.text = true)
    (free : t.text ∉ ["true", "false", "not"])
    (declared : ∃ d, cx.scope.get? t.text = some d ∧ d.isProp = true) (hk : t.kind = .ident)
    (hcx : cx.constraintOnly = false) :
    ∃ hlt, unary cx (t :: rest) = .ok ⟨.prop t.text, rest, hlt⟩ := by
  obtain ⟨d, hd, isProp⟩ := declared
  have sign {s : String} (hs : isIdentifier s = false) : t.text ≠ s := ne_of_isIdentifier valid hs
  have other {s : String} (hs : s ∈ ["true", "false", "not"]) : t.text ≠ s :=
    fun ht => free (ht ▸ hs)
  have negation : ¬(t.text = "~" ∨ t.text = "!" ∨ t.text = "not") := by
    rintro (h' | h' | h')
    · exact sign (by decide) h'
    · exact sign (by decide) h'
    · exact other (by decide) h'
  have temporal : ¬(t.text = "[]" ∨ t.text = "<>") := by
    rintro (h' | h') <;> exact sign (by decide) h'
  have constant : ¬(t.kind = .ident ∧ (t.text = "true" ∨ t.text = "false")) := by
    rintro ⟨-, h' | h'⟩ <;> exact other (by decide) h'
  refine ⟨by simp, ?_⟩
  rw [Parser.unary, if_neg negation, if_neg temporal, primary]
  dsimp only
  rw [if_neg constant, if_pos (by simp [hk, hd, isProp]), hcx]
  rfl

section Names

variable (h : NamesProp cx.scope t.text) (hk : t.kind = .ident)
include h hk

theorem NamesProp.factor : ∃ e, factor cx (t :: rest) = .error e ∧ e.isFault = false := by
  obtain ⟨d, hd, isProp⟩ := h.declared
  have constant : ¬(t.text = "true" ∨ t.text = "false") := by
    rintro (h' | h') <;> exact h.free (by simp [h', reserved])
  have undeclared : reference cx t rest = .error (.unreadable (.undeclared t.text) t.offset) := by
    rw [reference, hd]
    exact if_pos isProp
  rw [factor_ident (worded_of_isIdentifier h.word.1) hk, if_neg constant, undeclared]
  exact ⟨_, rfl, rfl⟩

theorem NamesProp.unary (hcx : cx.constraintOnly = false) :
    ∃ hlt, unary cx (t :: rest) = .ok ⟨.prop t.text, rest, hlt⟩ := by
  have special : ["true", "false", "not"] ⊆ reserved := by decide
  exact unary_prop h.word.1 (fun ht => h.free (special ht)) h.declared hk hcx

end Names

section Constants

variable (hk : t.kind = .ident) (ht : t.text = "true" ∨ t.text = "false")
include hk ht

theorem factor_constant :
    ∃ hlt, factor cx (t :: rest) = .ok ⟨.bool (t.text = "true"), rest, hlt⟩ := by
  have identifier : isIdentifier t.text = true := by rcases ht with h | h <;> rw [h] <;> decide
  refine ⟨by simp, ?_⟩
  rw [factor_ident (worded_of_isIdentifier identifier) hk, if_pos ht]

theorem unary_constant :
    ∃ hlt, unary cx (t :: rest) = .ok ⟨.bool (t.text = "true"), rest, hlt⟩ := by
  refine ⟨by simp, ?_⟩
  rw [unary, if_neg (by rcases ht with h | h <;> rw [h] <;> decide),
    if_neg (by rcases ht with h | h <;> rw [h] <;> decide), primary]
  exact if_pos ⟨hk, ht⟩

end Constants

/-! ## Formulas from their words -/

/-- Tokens that are taken for a formula whatever follows, and that are no arithmetic operand. -/
structure Reads (cx : Context) (f : Formula) (ts : List Token) : Prop where
  tried : ∀ rest, Stops rest → Tried cx (ts ++ rest) rest
  unary : ∀ rest, ∃ hlt, unary cx (ts ++ rest) = .ok ⟨f, rest, hlt⟩

def Readable (cx : Context) (f : Formula) : Prop :=
  ∀ ts : List Token, ts.map word = f.words → Reads cx f ts

theorem Readable.bool (b : Bool) : Readable cx (.bool b) := by
  intro ts hts
  obtain ⟨t, _, rfl, ht, hnil⟩ := List.map_eq_cons_iff.1 hts
  obtain rfl := List.map_eq_nil_iff.1 hnil
  obtain ⟨kind, text⟩ := Prod.mk.inj ht
  have constant : t.text = "true" ∨ t.text = "false" := by cases b <;> simp [text]
  obtain rfl : decide (t.text = "true") = b := by cases b <;> simp [text]
  refine ⟨fun rest hs => ?_, fun rest => unary_constant kind constant⟩
  obtain ⟨hlt, hfactor⟩ := factor_constant kind constant
  exact Or.inr ⟨_, hlt, hs.sum hfactor⟩

theorem Readable.prop {name : String} (hcx : cx.constraintOnly = false)
    (h : NamesProp cx.scope name) : Readable cx (.prop name) := by
  intro ts hts
  obtain ⟨t, _, rfl, ht, hnil⟩ := List.map_eq_cons_iff.1 hts
  obtain rfl := List.map_eq_nil_iff.1 hnil
  obtain ⟨kind, rfl⟩ := Prod.mk.inj ht
  exact ⟨fun rest _ => tried_of_factor (h.factor kind), fun rest => h.unary kind hcx⟩

theorem Readable.not (h : Readable cx f) : Readable cx (.not f) := by
  intro ts hts
  obtain ⟨t, us, rfl, ht, hus⟩ := List.map_eq_cons_iff.1 hts
  obtain ⟨kind, text⟩ := Prod.mk.inj ht
  refine ⟨fun rest _ => tried_of_factor (factor_symbol kind ?_ ?_), fun rest => ?_⟩
  · rw [text]
    decide
  · rw [text]
    decide
  · obtain ⟨_, hunary⟩ := (h us hus).unary rest
    exact unary_not hunary text

/-- A formula in parentheses is read if what stands between them is read as a formula but not as an
arithmetic operand. -/
theorem readable_of_enclosed {vs : List (TokenKind × String)}
    (hwords : f.words = Formula.enclosed vs)
    (h : ∀ (us : List Token) (o c : Token) (rest : List Token), us.map word = vs →
      o.text = "(" → c.text = ")" →
      (∃ e, factor cx (o :: (us ++ c :: rest)) = .error e ∧ e.isFault = false) ∧
      ∃ hlt, implication cx (us ++ c :: rest) = .ok ⟨f, c :: rest, hlt⟩) : Readable cx f := by
  intro ts hts
  rw [hwords] at hts
  obtain ⟨o, _, rfl, ho, hts⟩ := List.map_eq_cons_iff.1 hts
  obtain ⟨us, _, rfl, hus, hts⟩ := List.map_eq_append_iff.1 hts
  obtain ⟨c, _, rfl, hc, hnil⟩ := List.map_eq_cons_iff.1 hts
  obtain rfl := List.map_eq_nil_iff.1 hnil
  obtain ⟨kind, opening⟩ := Prod.mk.inj ho
  obtain ⟨-, closing⟩ := Prod.mk.inj hc
  have text (rest : List Token) : o :: (us ++ [c]) ++ rest = o :: (us ++ c :: rest) := by simp
  refine ⟨fun rest _ => ?_, fun rest => ?_⟩
  · rw [text]
    exact tried_of_factor (h us o c rest hus opening closing).1
  · obtain ⟨⟨e, he, mild⟩, _, himplication⟩ := h us o c rest hus opening closing
    rw [text]
    exact unary_parens kind opening closing ⟨e, comparison_error (sum_error he), mild⟩ himplication

theorem Reads.factor_open (h : Reads cx f ts) (hopen : t.text = "(")
    (hc : c.text ∉ ["+", "-", "*", "/", ")"]) :
    ∃ e, factor cx (t :: (ts ++ c :: rest)) = .error e ∧ e.isFault = false := by
  have tried := h.tried (c :: rest) (stops_cons.2 (by grind))
  exact tried.factor_open hopen (by grind)

variable {l r : Formula} {w : Window}

theorem Readable.implies (hl : Readable cx l) (hr : Readable cx r) :
    Readable cx (.implies l r) := by
  refine readable_of_enclosed rfl fun us o c rest hus hopen hclose => ?_
  obtain ⟨ls, _, rfl, hls, hus⟩ := List.map_eq_append_iff.1 hus
  obtain ⟨a, rs, rfl, ha, hrs⟩ := List.map_eq_cons_iff.1 hus
  obtain ⟨-, arrow⟩ := Prod.mk.inj ha
  rw [List.append_assoc, List.cons_append]
  refine ⟨(hl ls hls).factor_open hopen (by rw [arrow]; decide), ?_⟩
  obtain ⟨_, hleft⟩ := (hl ls hls).unary (a :: (rs ++ c :: rest))
  have hleft := temporal_of_unary hleft (by rw [headText, arrow]; decide)
  have hleft := conjunction_of_temporal hleft (by rw [headText, arrow]; decide)
  have hleft := disjunction_of_conjunction hleft (by rw [headText, arrow]; decide)
  obtain ⟨_, hright⟩ := (hr rs hrs).unary (c :: rest)
  have hright := implication_of_unary (by simp [headText, hclose]) hright
  refine ⟨by simp; omega, ?_⟩
  rw [implication, hleft]
  dsimp only [Attempt.bind_ok]
  rw [if_pos (Or.inl arrow), hright]
  rfl

/-- A binary temporal operator. -/
theorem readable_binary (hcx : cx.constraintOnly = false) (hw : w.Whole) (hl : Readable cx l)
    (hr : Readable cx r) (op : String) (hop : op = "U" ∨ op = "R") :
    Readable cx (if op = "U" then .untl w l r else .release w l r) := by
  have hwords : (if op = "U" then Formula.untl w l r else .release w l r).words =
      Formula.enclosed (l.words ++ (.ident, op) :: (w.words ++ r.words)) := by
    rcases hop with rfl | rfl <;> rfl
  refine readable_of_enclosed hwords fun us o c rest hus hopen hclose => ?_
  obtain ⟨ls, _, rfl, hls, hus⟩ := List.map_eq_append_iff.1 hus
  obtain ⟨a, _, rfl, ha, hus⟩ := List.map_eq_cons_iff.1 hus
  obtain ⟨ws, rs, rfl, hws, hrs⟩ := List.map_eq_append_iff.1 hus
  obtain ⟨-, rfl⟩ := Prod.mk.inj ha
  rw [List.append_assoc, List.cons_append, List.append_assoc]
  refine ⟨(hl ls hls).factor_open hopen (by rcases hop with h | h <;> rw [h] <;> decide), ?_⟩
  obtain ⟨_, hleft⟩ := (hl ls hls).unary (a :: (ws ++ (rs ++ c :: rest)))
  obtain ⟨_, hwindow⟩ := window_words hw hws
  obtain ⟨_, hright⟩ := (hr rs hrs).unary (c :: rest)
  have hlt : (c :: rest).length < (ls ++ a :: (ws ++ (rs ++ c :: rest))).length := by simp; omega
  refine ⟨hlt, implication_of_temporal (by simp [headText, hclose]) ?_⟩
  rw [temporal, hleft]
  dsimp only [Attempt.bind_ok]
  rw [moreTemporal, if_pos hop, hcx, if_neg (by decide), hwindow]
  dsimp only [Attempt.bind_ok]
  rw [hright]
  dsimp only [Attempt.bind_ok]
  rw [moreTemporal, if_neg (by rw [hclose]; decide)]
  rfl

/-- A unary temporal operator. -/
theorem readable_unary (hcx : cx.constraintOnly = false) (hw : w.Whole) (hf : Readable cx f)
    (op : String) (hop : op = "[]" ∨ op = "<>") :
    Readable cx (if op = "[]" then .always w f else .eventually w f) := by
  have hwords : (if op = "[]" then Formula.always w f else .eventually w f).words =
      Formula.enclosed ((.symbol, op) :: (w.words ++ f.words)) := by
    rcases hop with rfl | rfl <;> rfl
  refine readable_of_enclosed hwords fun us o c rest hus hopen hclose => ?_
  obtain ⟨a, _, rfl, ha, hus⟩ := List.map_eq_cons_iff.1 hus
  obtain ⟨ws, fs, rfl, hws, hfs⟩ := List.map_eq_append_iff.1 hus
  obtain ⟨kind, rfl⟩ := Prod.mk.inj ha
  rw [List.cons_append, List.append_assoc]
  constructor
  · obtain ⟨e, he, mild⟩ : ∃ e, factor cx (a :: (ws ++ (fs ++ c :: rest))) = .error e ∧
        e.isFault = false := by
      refine factor_symbol kind ?_ ?_ <;> rcases hop with h | h <;> rw [h] <;> decide
    exact ⟨e, Parser.factor_open hopen (sum_error he), mild⟩
  · obtain ⟨_, hwindow⟩ := window_words hw hws
    obtain ⟨_, harg⟩ := (hf fs hfs).unary (c :: rest)
    obtain ⟨_, hunary⟩ := unary_windowed harg hcx hwindow hop
    exact ⟨_, implication_of_unary (by simp [headText, hclose]) hunary⟩

/-! ## Rows of formulas -/

/-- Behind a formula of a row stands the symbol of the row or the closing parenthesis. -/
theorem headText_behind {op : String} {fs : List Formula} (rest : List Token)
    (hts : ts.map word = Formula.behind op fs) (hclose : c.text = ")") :
    headText (ts ++ c :: rest) ∈ [op, ")"] := by
  cases fs with
  | nil =>
    obtain rfl := List.map_eq_nil_iff.1 hts
    simp [headText, hclose]
  | cons f fs =>
    obtain ⟨a, _, rfl, ha, -⟩ := List.map_eq_cons_iff.1 hts
    obtain ⟨-, text⟩ := Prod.mk.inj ha
    simp [headText, text]

/-- A row of formulas in parentheses is no arithmetic operand, since more than one formula stands
there. -/
theorem readable_row {op : String} (hop : op ∉ ["+", "-", "*", "/", ")"]) {row g : Formula}
    {fs : List Formula}
    (hwords : row.words = Formula.enclosed (f.words ++ Formula.behind op (g :: fs)))
    (hf : Readable cx f)
    (h : ∀ (ls vs : List Token) (c : Token) (rest : List Token), ls.map word = f.words →
      vs.map word = Formula.behind op (g :: fs) → c.text = ")" →
      ∃ hlt, implication cx (ls ++ (vs ++ c :: rest)) = .ok ⟨row, c :: rest, hlt⟩) :
    Readable cx row := by
  refine readable_of_enclosed hwords fun us o c rest hus hopen hclose => ?_
  obtain ⟨ls, vs, rfl, hls, hvs⟩ := List.map_eq_append_iff.1 hus
  rw [List.append_assoc]
  refine ⟨?_, h ls vs c rest hls hvs hclose⟩
  obtain ⟨a, vs, rfl, ha, -⟩ := List.map_eq_cons_iff.1 hvs
  obtain ⟨-, rfl⟩ := Prod.mk.inj ha
  exact (hf ls hls).factor_open hopen hop

section Rows

variable {fs : List Formula} (ih : ∀ f ∈ fs, Readable cx f)
include ih

theorem moreConjuncts_words (rest : List Token) (hts : ts.map word = Formula.behind "&" fs)
    (hclose : c.text = ")") :
    ∃ hlt, moreConjuncts cx (ts ++ c :: rest) = .ok ⟨fs, c :: rest, hlt⟩ := by
  induction fs generalizing ts with
  | nil =>
    obtain rfl := List.map_eq_nil_iff.1 hts
    rw [List.nil_append]
    refine ⟨by simp, ?_⟩
    rw [moreConjuncts, if_neg (by rw [hclose]; decide)]
  | cons f fs ihs =>
    obtain ⟨a, _, rfl, ha, hts⟩ := List.map_eq_cons_iff.1 hts
    obtain ⟨us, vs, rfl, hus, hvs⟩ := List.map_eq_append_iff.1 hts
    obtain ⟨-, text⟩ := Prod.mk.inj ha
    rw [List.cons_append, List.append_assoc]
    have behind := headText_behind rest hvs hclose
    obtain ⟨_, hfirst⟩ := (ih f (by simp) us hus).unary (vs ++ c :: rest)
    have hfirst := temporal_of_unary hfirst (by grind)
    obtain ⟨_, hmore⟩ := ihs (fun f hf => ih f (by simp [hf])) hvs
    refine ⟨by simp; omega, ?_⟩
    rw [moreConjuncts, if_pos (Or.inl text), hfirst]
    dsimp only [Attempt.bind_ok]
    rw [hmore]
    rfl

theorem moreDisjuncts_words (rest : List Token) (hts : ts.map word = Formula.behind "|" fs)
    (hclose : c.text = ")") :
    ∃ hlt, moreDisjuncts cx (ts ++ c :: rest) = .ok ⟨fs, c :: rest, hlt⟩ := by
  induction fs generalizing ts with
  | nil =>
    obtain rfl := List.map_eq_nil_iff.1 hts
    rw [List.nil_append]
    refine ⟨by simp, ?_⟩
    rw [moreDisjuncts, if_neg (by rw [hclose]; decide)]
  | cons f fs ihs =>
    obtain ⟨a, _, rfl, ha, hts⟩ := List.map_eq_cons_iff.1 hts
    obtain ⟨us, vs, rfl, hus, hvs⟩ := List.map_eq_append_iff.1 hts
    obtain ⟨-, text⟩ := Prod.mk.inj ha
    rw [List.cons_append, List.append_assoc]
    have behind := headText_behind rest hvs hclose
    obtain ⟨_, hfirst⟩ := (ih f (by simp) us hus).unary (vs ++ c :: rest)
    have hfirst := conjunction_of_temporal (temporal_of_unary hfirst (by grind)) (by grind)
    obtain ⟨_, hmore⟩ := ihs (fun f hf => ih f (by simp [hf])) hvs
    refine ⟨by simp; omega, ?_⟩
    rw [moreDisjuncts, if_pos (Or.inl text), hfirst]
    dsimp only [Attempt.bind_ok]
    rw [hmore]
    rfl

theorem Readable.and (two : 2 ≤ fs.length) : Readable cx (.and fs) := by
  obtain _ | ⟨f, _ | ⟨g, fs⟩⟩ := fs
  · simp at two
  · simp at two
  refine readable_row (by decide) rfl (ih f (by simp)) fun ls vs c rest hls hvs hclose => ?_
  have behind := headText_behind rest hvs hclose
  obtain ⟨_, hfirst⟩ := (ih f (by simp) ls hls).unary (vs ++ c :: rest)
  have hfirst := temporal_of_unary hfirst (by grind)
  obtain ⟨_, hmore⟩ :=
    moreConjuncts_words (fun f hf => ih f (by simp [hf])) rest hvs hclose
  refine ⟨by omega, implication_of_conjunction (by simp [headText, hclose]) ?_⟩
  rw [conjunction, hfirst]
  dsimp only [Attempt.bind_ok]
  rw [hmore]
  rfl

theorem Readable.or (two : 2 ≤ fs.length) : Readable cx (.or fs) := by
  obtain _ | ⟨f, _ | ⟨g, fs⟩⟩ := fs
  · simp at two
  · simp at two
  refine readable_row (by decide) rfl (ih f (by simp)) fun ls vs c rest hls hvs hclose => ?_
  have behind := headText_behind rest hvs hclose
  obtain ⟨_, hfirst⟩ := (ih f (by simp) ls hls).unary (vs ++ c :: rest)
  have hfirst := conjunction_of_temporal (temporal_of_unary hfirst (by grind)) (by grind)
  obtain ⟨_, hmore⟩ :=
    moreDisjuncts_words (fun f hf => ih f (by simp [hf])) rest hvs hclose
  have hlt : (c :: rest).length < (ls ++ (vs ++ c :: rest)).length := by omega
  have hdisjunction : disjunction cx (ls ++ (vs ++ c :: rest)) =
      .ok ⟨.or (f :: g :: fs), c :: rest, hlt⟩ := by
    rw [disjunction, hfirst]
    dsimp only [Attempt.bind_ok]
    rw [hmore]
    rfl
  exact ⟨hlt, implication_of_disjunction hdisjunction (by simp [headText, hclose])⟩

end Rows

/-- A formula over the propositions in scope is read from its words, whatever follows. -/
theorem readable_of_propositional (hcx : cx.constraintOnly = false)
    (hf : f.Propositional (NamesProp cx.scope)) : Readable cx f := by
  induction hf with
  | bool b => exact .bool b
  | prop named => exact .prop hcx named
  | not _ ih => exact ih.not
  | and two _ ih => exact .and ih two
  | or two _ ih => exact .or ih two
  | implies _ _ ihl ihr => exact ihl.implies ihr
  | eventually whole _ ih => exact readable_unary hcx whole ih "<>" (Or.inr rfl)
  | always whole _ ih => exact readable_unary hcx whole ih "[]" (Or.inl rfl)
  | untl whole _ _ ihl ihr => exact readable_binary hcx whole ihl ihr "U" (Or.inl rfl)
  | release whole _ _ ihl ihr => exact readable_binary hcx whole ihl ihr "R" (Or.inr rfl)

end Parser

namespace Formula

open HybridCheck.Token HybridCheck.Parser

variable {R : String → Prop}

theorem Propositional.complete {f : Formula} (h : f.Propositional R) : f.complete = true := by
  have all {fs : List Formula} (h : ∀ f ∈ fs, f.complete = true) : completeAll fs = true := by
    induction fs with
    | nil => rfl
    | cons f fs ih => simp [completeAll, h, ih fun f hf => h f (by simp [hf])]
  induction h with
  | bool | prop => rfl
  | not _ ih => simpa [Formula.complete] using ih
  | and _ _ ih | or _ _ ih => simpa [Formula.complete] using all ih
  | implies _ _ ihl ihr => simp [Formula.complete, ihl, ihr]
  | eventually _ _ ih | always _ _ ih => simpa [Formula.complete] using ih
  | untl _ _ _ ihl ihr | release _ _ _ ihl ihr => simp [Formula.complete, ihl, ihr]

/-- A formula of constants, declared propositions, Boolean connectives and temporal operators whose
windows have natural numbers for ends can be written out, and is read back from its text exactly as
it was. -/
theorem write_read (scope : Scope) (f : Formula) (h : f.Propositional (NamesProp scope)) :
    ∃ s, f.write = .ok s ∧ ofText scope s = .ok f := by
  obtain ⟨bytes, ts, hts, words⟩ := h.scan fun _ hname => hname.word
  let cx : Context := ⟨scope, false, f.text.toList.length⟩
  have reads : Reads cx f ts := readable_of_propositional rfl h ts words
  have alone := reads.unary []
  rw [List.append_nil] at alone
  obtain ⟨_, hunary⟩ := alone
  refine ⟨f.text, by rw [write, if_pos h.complete], ?_⟩
  rw [ofText, bytes]
  exact ofChars_eq_ok.2 ⟨ts, _, hts, implication_of_unary (by simp [headText]) hunary, rfl, rfl⟩

def signals : Scope := [("p", ⟨.bool, .logical, true⟩), ("q_1", ⟨.bool, .logical, true⟩)]

/-- A row and an implication behind a bounded window, with an unbounded one inside. -/
def nested : Formula :=
  .release ⟨some 1, some 3, true, false⟩ (.and [.bool true, .not (.prop "q_1"), .prop "p"])
    (.implies (.prop "q_1") (.eventually ⟨some 2, none, false, true⟩ (.prop "p")))

theorem propositional_nested : nested.Propositional (NamesProp signals) := by
  have p : Propositional (NamesProp signals) (.prop "p") :=
    .prop ⟨⟨by decide, by decide⟩, by decide, _, rfl, rfl⟩
  have q : Propositional (NamesProp signals) (.prop "q_1") :=
    .prop ⟨⟨by decide, by decide⟩, by decide, _, rfl, rfl⟩
  have later : Window.Whole ⟨some 2, none, false, true⟩ := ⟨⟨2, rfl⟩, nofun, fun _ => rfl⟩
  have bounded : Window.Whole ⟨some 1, some 3, true, false⟩ := by
    refine ⟨⟨1, rfl⟩, ?_, nofun⟩
    rintro q ⟨⟩
    exact ⟨by decide, 3, rfl⟩
  refine .release bounded (.and (by simp) ?_) (.implies q (.eventually later p))
  simpa using ⟨.bool true, .not q, p⟩

theorem write_read_nested :
    nested.write = .ok "((true & ~q_1 & p) R_(1,3] (q_1 -> (<>_[2,inf) p)))" ∧
      ofText signals "((true & ~q_1 & p) R_(1,3] (q_1 -> (<>_[2,inf) p)))" = .ok nested := by
  have text : nested.write = .ok "((true & ~q_1 & p) R_(1,3] (q_1 -> (<>_[2,inf) p)))" := by cbv
  obtain ⟨s, hs, read⟩ := write_read signals nested propositional_nested
  obtain rfl := Except.ok.inj (hs.symm.trans text)
  exact ⟨text, read⟩

end Formula

end HybridCheck
