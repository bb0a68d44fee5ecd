import HybridCheck.Proofs.Regular

/-!
# Texts of formulas can be told apart

How the text of a formula begins tells its outermost operator, apart from the connectives that
stand between formulas; these are told by what stands behind the first formula. So a text tells
where it ends and which formula it is, except for what is not written in constraints and that a
constant may be one of the formula or one that a constraint was folded to.
-/

namespace HybridCheck

/-! ## Windows -/

def isNumberChar (c : Char) : Bool := c.isDigit || c = '-' || c = '/'

theorem Rational.all_numberChar (q : Rat) :
    ∀ c ∈ (Rational.text q).toList, isNumberChar c = true := by
  intro c hc
  rcases Rational.mem_text hc with h | rfl | rfl
  · simp [isNumberChar, h]
  · rfl
  · rfl

/-- The text of a number tells where it ends if something follows that is not part of a number. -/
theorem Rational.text_unique {q q' : Rat} {c c' : Char} {r r' : List Char}
    (hc : isNumberChar c = false) (hc' : isNumberChar c' = false)
    (h : (Rational.text q).toList ++ c :: r = (Rational.text q').toList ++ c' :: r') :
    q = q' ∧ c = c' ∧ r = r' := by
  obtain ⟨htext, hrest⟩ := cut_unique (Rational.all_numberChar q) (Rational.all_numberChar q')
    (by simpa using hc) (by simpa using hc') h
  injection hrest with hc hr
  exact ⟨Rational.text_inj (String.toList_inj.1 htext), hc, hr⟩

namespace Window

def upperText (w : Window) : List Char :=
  match w.hi with
  | none => "inf)".toList
  | some hi => (Rational.text hi).toList ++ [if w.rightOpen then ')' else ']']

theorem toList_text (w : Window) : w.text.toList = (if w.leftOpen then '(' else '[') ::
    ((Rational.text w.lower).toList ++ ',' :: w.upperText) := by
  unfold text upperText
  cases w.hi <;> cases w.leftOpen <;> cases w.rightOpen <;> simp

/-- The text of a window tells where it ends and which window it is. -/
theorem text_unique {w w' : Window} (hw : w.Forward) (hw' : w'.Forward) {r r' : List Char}
    (h : w.text.toList ++ r = w'.text.toList ++ r') : w = w' ∧ r = r' := by
  simp only [toList_text, List.cons_append, List.append_assoc, List.cons.injEq] at h
  obtain ⟨hopen, h⟩ := h
  have hopen : w.leftOpen = w'.leftOpen := by
    cases hw : w.leftOpen <;> cases hw' : w'.leftOpen <;> simp_all
  obtain ⟨hlow, -, h⟩ := Rational.text_unique rfl rfl h
  have bracket (b : Bool) : isNumberChar (if b then ')' else ']') = false := by cases b <;> rfl
  have infinite (q : Rat) (b : Bool) (r r' : List Char) :
      "inf)".toList ++ r ≠ (Rational.text q).toList ++ [if b then ')' else ']'] ++ r' := by
    intro h
    cases hs : (Rational.text q).toList with
    | nil => exact Rational.text_ne_nil q hs
    | cons c s =>
      have hc := Rational.all_numberChar q c (by simp [hs])
      rw [hs] at h
      obtain rfl : 'i' = c := (List.cons.inj h).1
      cases hc
  have eq (hhi : w.hi = w'.hi) (hright : w.rightOpen = w'.rightOpen) : w = w' := by
    obtain ⟨lo, hi, leftOpen, rightOpen⟩ := w
    obtain ⟨lo', hi', leftOpen', rightOpen'⟩ := w'
    simp only [Window.mk.injEq]
    exact ⟨hw.written.trans (hlow ▸ hw'.written.symm), hhi, hopen, hright⟩
  unfold upperText at h
  cases hhi : w.hi with
  | none =>
    cases hhi' : w'.hi with
    | none =>
      simp only [hhi, hhi'] at h
      refine ⟨eq (hhi.trans hhi'.symm) ?_, List.append_cancel_left h⟩
      rw [hw.unbounded hhi, hw'.unbounded hhi']
    | some q =>
      simp only [hhi, hhi'] at h
      exact absurd h (infinite _ _ _ _)
  | some q =>
    cases hhi' : w'.hi with
    | none =>
      simp only [hhi, hhi'] at h
      exact absurd h.symm (infinite _ _ _ _)
    | some q' =>
      simp only [hhi, hhi', List.append_assoc, List.singleton_append] at h
      obtain ⟨rfl, hclose, h⟩ := Rational.text_unique (bracket _) (bracket _) h
      have hclose : w.rightOpen = w'.rightOpen := by
        cases hw : w.rightOpen <;> cases hw' : w'.rightOpen <;> simp_all
      exact ⟨eq (hhi.trans hhi'.symm) hclose, h⟩

end Window

/-! ## Formulas -/

namespace Formula

variable {P : Var → Prop} {R : String → Prop}

/-- A conjunction or disjunction has a first and a second formula. -/
theorem exists_two {fs : List Formula} (h : 2 ≤ fs.length) :
    ∃ f f' fs', fs = f :: f' :: fs' := by
  rcases fs with _ | ⟨f, _ | ⟨f', fs⟩⟩
  · simp at h
  · simp at h
  · exact ⟨f, f', fs, rfl⟩

def joined (sep : String) : List Formula → List Char
  | [] => []
  | f :: fs => sep.toList ++ (f.text.toList ++ joined sep fs)

section

variable (w : Window) (f l r : Formula) (fs : List Formula)

theorem text_not : (not f).text.toList = '~' :: f.text.toList := by
  have : (not f).text = "~" ++ f.text := rfl
  simp [this]

theorem toList_intercalate (sep : String) : (sep.intercalate (texts (f :: fs))).toList =
    f.text.toList ++ joined sep fs := by
  induction fs generalizing f with
  | nil => simp [texts, joined]
  | cons g fs ih =>
    have := ih g
    simp only [texts] at this ⊢
    simp [this, joined]

theorem text_and : (and (f :: fs)).text.toList =
    '(' :: (f.text.toList ++ (joined " & " fs ++ [')'])) := by
  have : (and (f :: fs)).text = "(" ++ " & ".intercalate (texts (f :: fs)) ++ ")" := rfl
  rw [this, String.toList_append, String.toList_append, toList_intercalate]
  simp

theorem text_or : (or (f :: fs)).text.toList =
    '(' :: (f.text.toList ++ (joined " | " fs ++ [')'])) := by
  have : (or (f :: fs)).text = "(" ++ " | ".intercalate (texts (f :: fs)) ++ ")" := rfl
  rw [this, String.toList_append, String.toList_append, toList_intercalate]
  simp

theorem text_implies : (implies l r).text.toList =
    '(' :: (l.text.toList ++ (' ' :: '-' :: '>' :: ' ' :: (r.text.toList ++ [')']))) := by
  have : (implies l r).text = "(" ++ l.text ++ " -> " ++ r.text ++ ")" := rfl
  simp [this]

theorem text_eventually : (eventually w f).text.toList =
    '(' :: '<' :: '>' :: '_' :: (w.text.toList ++ ' ' :: (f.text.toList ++ [')'])) := by
  have : (eventually w f).text = "(<>_" ++ w.text ++ " " ++ f.text ++ ")" := rfl
  simp [this]

theorem text_always : (always w f).text.toList =
    '(' :: '[' :: ']' :: '_' :: (w.text.toList ++ ' ' :: (f.text.toList ++ [')'])) := by
  have : (always w f).text = "([]_" ++ w.text ++ " " ++ f.text ++ ")" := rfl
  simp [this]

theorem text_untl : (untl w l r).text.toList = '(' :: (l.text.toList ++
    (' ' :: 'U' :: '_' :: (w.text.toList ++ ' ' :: (r.text.toList ++ [')'])))) := by
  have : (untl w l r).text = "(" ++ l.text ++ " U_" ++ w.text ++ " " ++ r.text ++ ")" := rfl
  simp [this]

theorem text_release : (release w l r).text.toList = '(' :: (l.text.toList ++
    (' ' :: 'R' :: '_' :: (w.text.toList ++ ' ' :: (r.text.toList ++ [')'])))) := by
  have : (release w l r).text = "(" ++ l.text ++ " R_" ++ w.text ++ " " ++ r.text ++ ")" := rfl
  simp [this]

end

/-- What the first characters of a formula tell about it. -/
inductive Opening where
  | word
  | negation
  | relation
  | eventually
  | always
  | chain
  deriving DecidableEq

/-- How the connectives that stand between formulas begin. -/
def links : List (List Char) := ["&", "|", "->", "U_[", "U_(", "R_[", "R_("].map String.toList

/-- Whether a text goes on with a blank and a connective that stands between formulas. -/
def linked : List Char → Bool
  | ' ' :: s => links.any fun l => l.isPrefixOf s
  | _ => false

/-- How a text begins. A variable or proposition may be named like an operator, so what stands
behind the first word counts, too. -/
def opening : List Char → Opening
  | '~' :: _ => .negation
  | '(' :: '<' :: '>' :: _ => .eventually
  | '(' :: '[' :: _ => .always
  | '(' :: s =>
    if s.takeWhile isWordChar ∈ Term.operators.map String.toList ∧
        linked (s.dropWhile isWordChar) = false then .relation
    else .chain
  | _ => .word

def opens : Formula → Opening
  | bool _ | prop _ | atom (.var _) | atom (.bool _) | atom (.num ..) => .word
  | atom _ => .relation
  | not _ => .negation
  | eventually .. => .eventually
  | always .. => .always
  | _ => .chain

def IsName (s : List Char) : Prop :=
  IsWord s ∧ ∀ c ∈ s, isIdentChar c = true ∨ isNumberChar c = true

theorem isName_identifier {name : String} (h : isIdentifier name = true) : IsName name.toList :=
  ⟨(isWord_of_identifier h).1, fun c hc => Or.inl (isIdentChar_of_identifier h c hc)⟩

theorem isName_truth (b : Bool) : IsName (Term.bool b).text.toList := by
  cases b
  · exact isName_identifier (by decide : isIdentifier "false" = true)
  · exact isName_identifier (by decide : isIdentifier "true" = true)

theorem isName_number (q : Rat) : IsName (Rational.text q).toList :=
  ⟨isWord_of_digits (Rational.text_ne_nil q) fun _ => Rational.mem_text,
    fun c hc => Or.inr (Rational.all_numberChar q c hc)⟩

theorem IsName.ne {s : List Char} (h : IsName s) {c : Char} (hc : c ∈ s) :
    ∀ d ∈ ['~', '<', '>', '[', '&', '|', '('], c ≠ d := by
  rintro d hd rfl
  have other : ∀ d ∈ ['~', '<', '>', '[', '&', '|', '('],
      isIdentChar d = false ∧ isNumberChar d = false := by
    simp [isIdentChar, isIdentStart, isNumberChar]
  have := h.2 c hc
  simp [other c hd] at this

theorem IsName.opening {s r : List Char} (h : IsName s) : opening (s ++ r) = .word := by
  obtain ⟨c, s, rfl⟩ := List.exists_cons_of_ne_nil h.1.1
  rw [List.cons_append, Formula.opening]
  all_goals
    intro _ hc
    exact h.ne List.mem_cons_self _ (by simp) (List.cons.inj hc).1

/-- No connective is read in a name. -/
theorem IsName.not_linked {s r : List Char} (h : IsName s) (hr : Ended r) :
    linked (' ' :: (s ++ r)) = false := by
  have other : ∀ l ∈ links, (∃ d ∈ ['~', '<', '>', '[', '&', '|', '('], d ∈ l) ∧
      ∀ c ∈ l, c ≠ ' ' ∧ c ≠ ')' := by simp [links]
  rw [linked, List.any_eq_false]
  intro l hl hpre
  obtain ⟨⟨d, hd, hdl⟩, ends⟩ := other l hl
  have foreign : d ∉ s := fun hds => h.ne hds d hd rfl
  have hpre : l <+: s ++ r := List.isPrefixOf_iff_prefix.1 hpre
  rcases List.prefix_or_prefix_of_prefix hpre (List.prefix_append s r) with within | ⟨l', rfl⟩
  · exact foreign (within.subset hdl)
  · obtain ⟨x, hx⟩ := (List.prefix_append_right_inj s).1 hpre
    cases l' with
    | nil => exact foreign (by simpa using hdl)
    | cons c l' =>
      have := ends c (by simp)
      rcases hr c (by rw [← hx]; rfl) with rfl | rfl <;> simp at this

theorem takeWhile_word {s r : List Char} (hs : IsWord s) (hr : Ended r) :
    (s ++ r).takeWhile isWordChar = s ∧ (s ++ r).dropWhile isWordChar = r := by
  rw [List.takeWhile_append_of_pos hs.2, List.dropWhile_append_of_pos hs.2]
  cases r with
  | nil => simp
  | cons c r => simp [hr.not_wordChar c rfl]

theorem isName_simple (hv : Vocabulary P R) {c : Term} (h : c.IsSimple P) :
    IsName c.text.toList := by
  obtain ⟨v, hP, rfl⟩ | ⟨b, rfl⟩ | ⟨s, q, rfl⟩ := h
  · exact isName_identifier (hv.named v hP)
  · exact isName_truth b
  · exact isName_number q

/-- A formula over constraints is a name or begins with a negation or a parenthesis. -/
theorem Over.start (hv : Vocabulary P R) {f : Formula} (hf : f.Over P R) :
    (∃ s, f.text.toList = '~' :: s) ∨ (∃ s, f.text.toList = '(' :: s) ∨ IsName f.text.toList := by
  cases f with
  | bool b => exact Or.inr (Or.inr (isName_truth b))
  | prop name => exact Or.inr (Or.inr (isName_identifier (hv.identifier name hf)))
  | atom c =>
    rcases Term.BuiltOver.cases hf with simple | ⟨o, s, ho, hs, -⟩
    · exact Or.inr (Or.inr (isName_simple hv simple))
    · exact Or.inr (Or.inl ⟨_, Term.text_operator ho hs⟩)
  | not f => exact Or.inl ⟨_, text_not f⟩
  | and fs =>
    cases fs with
    | nil => exact absurd hf.1 (by simp)
    | cons f fs => exact Or.inr (Or.inl ⟨_, text_and f fs⟩)
  | or fs =>
    cases fs with
    | nil => exact absurd hf.1 (by simp)
    | cons f fs => exact Or.inr (Or.inl ⟨_, text_or f fs⟩)
  | implies l r => exact Or.inr (Or.inl ⟨_, text_implies l r⟩)
  | eventually w f => exact Or.inr (Or.inl ⟨_, text_eventually w f⟩)
  | always w f => exact Or.inr (Or.inl ⟨_, text_always w f⟩)
  | untl w l r => exact Or.inr (Or.inl ⟨_, text_untl w l r⟩)
  | release w l r => exact Or.inr (Or.inl ⟨_, text_release w l r⟩)
  | witness | missing => exact hf.elim

/-- A parenthesis before a formula and a connective opens a chain of formulas. -/
theorem Over.opening_chain (hv : Vocabulary P R) {f : Formula} (hf : f.Over P R) {r : List Char}
    (hr : linked (' ' :: r) = true) : opening ('(' :: (f.text.toList ++ ' ' :: r)) = .chain := by
  rcases hf.start hv with ⟨s, hs⟩ | ⟨s, hs⟩ | name
  · rw [hs]
    simp [opening, isWordChar, Term.operators]
  · rw [hs]
    simp [opening, isWordChar, Term.operators]
  · obtain ⟨-, rest⟩ := takeWhile_word name.1 (Term.ended_blank r)
    obtain ⟨c, s, hs⟩ := List.exists_cons_of_ne_nil name.1.1
    rw [opening, if_neg]
    · rw [rest, hr]
      simp
    all_goals
      intro _ h
      rw [hs] at h
      exact name.ne (by simp [hs]) _ (by simp) (List.cons.inj h).1

/-- The text of an operator goes on with operands, not with a connective. -/
theorem not_linked_textAll (hv : Vocabulary P R) {as : List Term} (has : ∀ a ∈ as, a.BuiltOver P)
    (r : List Char) : linked ((Term.textAll as).toList ++ ')' :: r) = false := by
  cases as with
  | nil => rfl
  | cons a as =>
    have ended := Term.ended_textAll as r
    have text : (Term.textAll (a :: as)).toList ++ ')' :: r =
        ' ' :: (a.text.toList ++ ((Term.textAll as).toList ++ ')' :: r)) := by simp
    rw [text]
    rcases (has a (by simp)).cases with simple | ⟨o, s, ho, hs, -⟩
    · exact (isName_simple hv simple).not_linked ended
    · rw [Term.text_operator ho hs]
      rfl

theorem opening_relation (hv : Vocabulary P R) {t : Term} {o : Operator} {s : String}
    (ho : t.operator? = some o) (hs : o.symbol? = some s)
    (operands : ∀ a ∈ t.operands, a.BuiltOver P) (r : List Char) :
    opening (t.text.toList ++ r) = .relation := by
  obtain ⟨word, rest⟩ :=
    takeWhile_word (Operator.isWord_symbol hs) (Term.ended_textAll t.operands r)
  have unlinked := not_linked_textAll hv operands r
  have symbol : s.toList ∈ Term.operators.map String.toList :=
    List.mem_map_of_mem (Operator.mem_operators hs)
  have text : t.text.toList ++ r = '(' :: (s.toList ++ ((Term.textAll t.operands).toList ++
      ')' :: r)) := by
    rw [Term.text_operator ho hs]
    simp
  rw [text, opening, if_pos]
  · rw [word, rest]
    exact ⟨symbol, unlinked⟩
  all_goals
    intro y h
    rw [h] at word
    rw [← word] at symbol
    simp [Term.operators, isWordChar] at symbol

/-- The text of a formula begins as its form says. -/
theorem Over.opening_text (hv : Vocabulary P R) {f : Formula} (hf : f.Over P R)
    (r : List Char) : opening (f.text.toList ++ r) = f.opens := by
  have window (w : Window) (c : Char) (hc : c = 'U' ∨ c = 'R') (s : List Char) :
      linked (' ' :: c :: '_' :: (w.text.toList ++ s)) = true := by
    rw [Window.toList_text]
    rcases hc with rfl | rfl <;> cases w.leftOpen <;> rfl
  cases f with
  | bool b => exact (isName_truth b).opening
  | prop name => exact (isName_identifier (hv.identifier name hf)).opening
  | atom c =>
    rcases Term.BuiltOver.cases hf with simple | ⟨o, s, ho, hs, operands⟩
    · have word : (atom c).opens = .word := by
        obtain ⟨v, -, rfl⟩ | ⟨b, rfl⟩ | ⟨s, q, rfl⟩ := simple <;> rfl
      rw [word]
      exact (isName_simple hv simple).opening
    · have relation : (atom c).opens = .relation := by
        cases c <;> cases ho <;> first | rfl | cases hs
      rw [relation]
      exact opening_relation hv ho hs operands r
  | not f =>
    rw [text_not]
    rfl
  | and fs =>
    obtain ⟨hlen, hall⟩ := hf
    obtain ⟨f, f', fs, rfl⟩ := exists_two hlen
    rw [text_and, List.cons_append, List.append_assoc, joined]
    exact Over.opening_chain hv hall.1 rfl
  | or fs =>
    obtain ⟨hlen, hall⟩ := hf
    obtain ⟨f, f', fs, rfl⟩ := exists_two hlen
    rw [text_or, List.cons_append, List.append_assoc, joined]
    exact Over.opening_chain hv hall.1 rfl
  | implies l r =>
    rw [text_implies, List.cons_append, List.append_assoc]
    exact Over.opening_chain hv hf.1 rfl
  | eventually w f =>
    rw [text_eventually]
    rfl
  | always w f =>
    rw [text_always]
    rfl
  | untl w l r =>
    rw [text_untl, List.cons_append, List.append_assoc]
    simp only [List.cons_append, List.append_assoc]
    exact Over.opening_chain hv hf.2.1 (window w _ (Or.inl rfl) _)
  | release w l r =>
    rw [text_release, List.cons_append, List.append_assoc]
    simp only [List.cons_append, List.append_assoc]
    exact Over.opening_chain hv hf.2.1 (window w _ (Or.inr rfl) _)
  | witness | missing => exact hf.elim

/-! ## What a text tells -/

/-- A constraint with a constant taken for one of the formula. -/
def settled : Term → Formula
  | .bool b => bool b
  | c => atom c

mutual

/-- A formula with everything made uniform that is not written in its text: constraints are
canonical, and those that were folded to a constant are replaced by the constant. -/
def folded : Formula → Formula
  | bool b => bool b
  | prop name => prop name
  | atom c => settled c.canonical
  | not f => not (folded f)
  | and fs => and (foldedAll fs)
  | or fs => or (foldedAll fs)
  | implies l r => implies (folded l) (folded r)
  | eventually w f => eventually w (folded f)
  | always w f => always w (folded f)
  | untl w l r => untl w (folded l) (folded r)
  | release w l r => release w (folded l) (folded r)
  | witness point => witness point
  | missing => missing

def foldedAll : List Formula → List Formula
  | [] => []
  | f :: fs => folded f :: foldedAll fs

end

theorem foldedAll_eq (fs : List Formula) : foldedAll fs = fs.map folded := by
  induction fs with
  | nil => rfl
  | cons f fs ih => rw [foldedAll, ih, List.map_cons]

theorem settled_atom {c : Term} (h : ∀ b, c ≠ .bool b) : settled c = atom c := by
  cases c <;> first | rfl | exact absurd rfl (h _)

theorem settled_inj {c d : Term} (h : settled c = settled d) : c = d := by
  by_cases hc : ∃ b, c = .bool b
  · obtain ⟨b, rfl⟩ := hc
    cases d <;> cases h
    rfl
  · rw [settled_atom (not_exists.1 hc)] at h
    cases d <;> cases h <;> rfl

theorem prop_ne_settled {name : String} {c : Term} : prop name ≠ settled c := by
  cases c <;> nofun

/-- A formula that is one word is a proposition or a simple constraint. -/
theorem Over.of_word {f : Formula} (hf : f.Over P R) (h : f.opens = .word) :
    (∃ name, f = prop name ∧ R name) ∨
      ∃ c : Term, c.IsSimple P ∧ f.text = c.text ∧ f.folded = settled c.canonical := by
  cases f with
  | bool b => exact Or.inr ⟨.bool b, Or.inr (Or.inl ⟨b, rfl⟩), rfl, rfl⟩
  | prop name => exact Or.inl ⟨name, rfl, hf⟩
  | atom c =>
    rcases Term.BuiltOver.cases hf with simple | ⟨o, s, ho, hs, -⟩
    · exact Or.inr ⟨c, simple, rfl, rfl⟩
    · cases c <;> cases ho <;> first | (cases h; done) | cases hs
  | _ => cases h

/-- Two formulas of one word each are the same if the words are. -/
theorem Over.folded_of_words (hv : Vocabulary P R) {f g : Formula} (hf : f.Over P R)
    (hg : g.Over P R) (h : f.opens = .word) (h' : g.opens = .word) (htext : f.text = g.text) :
    f.folded = g.folded := by
  have apart {name : String} (hn : R name) {c : Term} (simple : c.IsSimple P) :
      name ≠ c.text := by
    obtain ⟨v, hP, rfl⟩ | ⟨b, rfl⟩ | ⟨s, q, rfl⟩ := simple
    · exact hv.apart name v hn hP
    · obtain ⟨h1, h2⟩ := hv.reserved name hn
      cases b
      · exact h2
      · exact h1
    · obtain ⟨-, c, s, hs, hc⟩ := isWord_of_identifier (hv.identifier name hn)
      exact (Term.text_num_ne hs hc q).symm
  rcases hf.of_word h with ⟨name, rfl, hn⟩ | ⟨c, simple, ht, hfolded⟩
  · rcases hg.of_word h' with ⟨name', rfl, hn'⟩ | ⟨c', simple', ht', -⟩
    · obtain rfl : name = name' := htext
      rfl
    · exact absurd (htext.trans ht') (apart hn simple')
  · rcases hg.of_word h' with ⟨name', rfl, hn'⟩ | ⟨c', simple', ht', hfolded'⟩
    · exact absurd (htext.symm.trans ht) (apart hn' simple)
    · rw [hfolded, hfolded', simple.leaf.canonical_eq hv.legible simple'.leaf
        (ht.symm.trans (htext.trans ht'))]

/-- What is to be shown of a formula: its text tells where it ends and, up to folded
constraints, which formula it is. -/
def Readable (P : Var → Prop) (R : String → Prop) (f : Formula) : Prop :=
  ∀ ⦃g : Formula⦄ ⦃r r' : List Char⦄, f.Over P R → g.Over P R → Ended r → Ended r' →
    f.text.toList ++ r = g.text.toList ++ r' → f.folded = g.folded ∧ r = r'

theorem ended_joined {sep : String} (hsep : ∃ s, sep.toList = ' ' :: s) {r : List Char}
    (hr : Ended r) (fs : List Formula) : Ended (joined sep fs ++ r) := by
  obtain ⟨s, hs⟩ := hsep
  cases fs with
  | nil => exact hr
  | cons => simp [joined, hs, Ended]

/-- The texts of formulas in a row are told apart if the text of each formula is. -/
theorem joined_unique {sep : String} (hsep : ∃ s, sep.toList = ' ' :: s) {fs gs : List Formula}
    {r r' : List Char} (ih : ∀ f ∈ fs, f.Readable P R) (hf : FormedAll (Term.BuiltOver P) R fs)
    (hg : FormedAll (Term.BuiltOver P) R gs)
    (h : joined sep fs ++ ')' :: r = joined sep gs ++ ')' :: r') :
    foldedAll fs = foldedAll gs ∧ r = r' := by
  have ended (fs : List Formula) (r : List Char) : Ended (joined sep fs ++ ')' :: r) :=
    ended_joined hsep (Term.ended_paren r) fs
  obtain ⟨s, hs⟩ := hsep
  induction fs generalizing gs with
  | nil =>
    cases gs with
    | nil => exact ⟨rfl, by simpa [joined] using h⟩
    | cons g gs => simp [joined, hs] at h
  | cons f fs ih' =>
    cases gs with
    | nil => simp [joined, hs] at h
    | cons g gs =>
      simp only [joined, List.append_assoc] at h
      obtain ⟨same, h⟩ := ih f (by simp) hf.1 hg.1 (ended fs r) (ended gs r')
        (List.append_cancel_left h)
      obtain ⟨all, h⟩ := ih' (fun f hf => ih f (by simp [hf])) hf.2 hg.2 h
      exact ⟨by rw [foldedAll, foldedAll, same, all], h⟩

/-- The same without a connective in front of the first formula. -/
theorem row_unique {sep : String} (hsep : ∃ s, sep.toList = ' ' :: s) {f g : Formula}
    {fs gs : List Formula} {r r' : List Char} (ih : ∀ k ∈ f :: fs, k.Readable P R)
    (hf : FormedAll (Term.BuiltOver P) R (f :: fs)) (hg : FormedAll (Term.BuiltOver P) R (g :: gs))
    (h : f.text.toList ++ (joined sep fs ++ ')' :: r) =
      g.text.toList ++ (joined sep gs ++ ')' :: r')) :
    foldedAll (f :: fs) = foldedAll (g :: gs) ∧ r = r' := by
  refine joined_unique hsep ih hf hg ?_
  simp only [joined, List.append_assoc, h]

/-- A window with a formula behind it is told apart if the formula is. -/
theorem windowed_unique {w w' : Window} {f g : Formula} {r r' : List Char}
    (hw : w.Forward) (hw' : w'.Forward) (ih : f.Readable P R) (hf : f.Over P R)
    (hg : g.Over P R) (h : w.text.toList ++ ' ' :: (f.text.toList ++ ')' :: r) =
      w'.text.toList ++ ' ' :: (g.text.toList ++ ')' :: r')) :
    w = w' ∧ f.folded = g.folded ∧ r = r' := by
  obtain ⟨hwin, h⟩ := Window.text_unique hw hw' h
  injection h with _ h
  obtain ⟨same, h⟩ := ih hf hg (Term.ended_paren r) (Term.ended_paren r') h
  injection h with _ h
  exact ⟨hwin, same, h⟩

/-- The same with a formula and an operator in front. -/
theorem binary_unique {w w' : Window} {c : Char} {l l' f g : Formula} {r r' : List Char}
    (hw : w.Forward) (hw' : w'.Forward) (ihl : l.Readable P R) (ihf : f.Readable P R)
    (hf : l.Over P R ∧ f.Over P R) (hg : l'.Over P R ∧ g.Over P R)
    (h : l.text.toList ++ ' ' :: c :: '_' :: (w.text.toList ++ ' ' :: (f.text.toList ++ ')' :: r)) =
      l'.text.toList ++
        ' ' :: c :: '_' :: (w'.text.toList ++ ' ' :: (g.text.toList ++ ')' :: r'))) :
    w = w' ∧ l.folded = l'.folded ∧ f.folded = g.folded ∧ r = r' := by
  obtain ⟨samel, h⟩ := ihl hf.1 hg.1 (Term.ended_blank _) (Term.ended_blank _) h
  simp only [List.cons.injEq, true_and] at h
  obtain ⟨hwin, same, hrest⟩ := windowed_unique hw hw' ihf hf.2 hg.2 h
  exact ⟨hwin, samel, same, hrest⟩

/-- The character that tells the connectives between formulas apart. -/
def mark : Formula → Char
  | and _ => '&'
  | or _ => '|'
  | implies .. => '-'
  | untl .. => 'U'
  | release .. => 'R'
  | _ => ' '

/-- A chain begins with a formula and goes on with its connective. -/
theorem Over.chain {g : Formula} (hg : g.Over P R) (h : g.opens = .chain) :
    ∃ (f : Formula) (s : List Char), f.Over P R ∧
      g.text.toList = '(' :: (f.text.toList ++ ' ' :: g.mark :: s) := by
  cases g with
  | and fs =>
    obtain ⟨hlen, hall⟩ := hg
    obtain ⟨f, f', fs, rfl⟩ := exists_two hlen
    exact ⟨f, _, hall.1, by rw [text_and, joined]; simp [mark]; rfl⟩
  | or fs =>
    obtain ⟨hlen, hall⟩ := hg
    obtain ⟨f, f', fs, rfl⟩ := exists_two hlen
    exact ⟨f, _, hall.1, by rw [text_or, joined]; simp [mark]; rfl⟩
  | implies l r => exact ⟨l, _, hg.1, text_implies l r⟩
  | untl w l r => exact ⟨l, _, hg.2.1, text_untl w l r⟩
  | release w l r => exact ⟨l, _, hg.2.1, text_release w l r⟩
  | atom c => cases c <;> cases h
  | witness | missing => exact hg.elim
  | _ => cases h

theorem Readable.mark_eq {f g : Formula} {m : Char} {s r : List Char} (ih : f.Readable P R)
    (hf : f.Over P R) (hg : g.Over P R) (hopens : g.opens = .chain)
    (h : '(' :: (f.text.toList ++ ' ' :: m :: s) = g.text.toList ++ r) : g.mark = m := by
  obtain ⟨f', s', hf', hs'⟩ := hg.chain hopens
  rw [hs'] at h
  simp only [List.cons_append, List.append_assoc, List.cons.injEq, true_and] at h
  obtain ⟨-, h⟩ := ih hf hf' (Term.ended_blank _) (Term.ended_blank _) h
  simp only [List.cons.injEq, true_and] at h
  exact h.1.symm

section

variable {g : Formula}

theorem eq_not (h : g.opens = .negation) : ∃ f, g = not f := by
  cases g with
  | not f => exact ⟨f, rfl⟩
  | atom c => cases c <;> cases h
  | _ => cases h

theorem eq_eventually (h : g.opens = .eventually) : ∃ w f, g = eventually w f := by
  cases g with
  | eventually w f => exact ⟨w, f, rfl⟩
  | atom c => cases c <;> cases h
  | _ => cases h

theorem eq_always (h : g.opens = .always) : ∃ w f, g = always w f := by
  cases g with
  | always w f => exact ⟨w, f, rfl⟩
  | atom c => cases c <;> cases h
  | _ => cases h

theorem eq_and (h : g.mark = '&') : ∃ fs, g = and fs := by
  cases g with
  | and fs => exact ⟨fs, rfl⟩
  | _ => cases h

theorem eq_or (h : g.mark = '|') : ∃ fs, g = or fs := by
  cases g with
  | or fs => exact ⟨fs, rfl⟩
  | _ => cases h

theorem eq_implies (h : g.mark = '-') : ∃ l r, g = implies l r := by
  cases g with
  | implies l r => exact ⟨l, r, rfl⟩
  | _ => cases h

theorem eq_untl (h : g.mark = 'U') : ∃ w l r, g = untl w l r := by
  cases g with
  | untl w l r => exact ⟨w, l, r, rfl⟩
  | _ => cases h

theorem eq_release (h : g.mark = 'R') : ∃ w l r, g = release w l r := by
  cases g with
  | release w l r => exact ⟨w, l, r, rfl⟩
  | _ => cases h

theorem eq_atom (h : g.opens = .relation) : ∃ c, g = atom c := by
  cases g with
  | atom c => exact ⟨c, rfl⟩
  | _ => cases h

end

/-- Formulas that have one text begin alike. -/
theorem Over.opens_eq (hv : Vocabulary P R) {f g : Formula} {r r' : List Char} (hf : f.Over P R)
    (hg : g.Over P R) (h : f.text.toList ++ r = g.text.toList ++ r') : g.opens = f.opens := by
  rw [← hf.opening_text hv r, ← hg.opening_text hv r', h]

theorem Over.isWord (hv : Vocabulary P R) {f : Formula} (hf : f.Over P R) (h : f.opens = .word) :
    IsWord f.text.toList := by
  rcases hf.of_word h with ⟨name, rfl, hn⟩ | ⟨c, simple, ht, -⟩
  · exact (isName_identifier (hv.identifier name hn)).1
  · rw [ht]
    exact (isName_simple hv simple).1

theorem readable_of_word (hv : Vocabulary P R) {f : Formula} (h : f.opens = .word) :
    f.Readable P R := by
  intro g r r' hf hg hr hr' htext
  have h' : g.opens = .word := (hf.opens_eq hv hg htext).trans h
  obtain ⟨same, hrest⟩ := (hf.isWord hv h).unique (hg.isWord hv h') hr hr' htext
  exact ⟨hf.folded_of_words hv hg h h' (String.toList_inj.1 same), hrest⟩

theorem readable_of_relation (hv : Vocabulary P R) {c : Term} (h : (atom c).opens = .relation) :
    (atom c).Readable P R := by
  intro g r r' hf hg hr hr' htext
  obtain ⟨d, rfl⟩ := eq_atom ((hf.opens_eq hv hg htext).trans h)
  obtain ⟨same, hrest⟩ := Term.text_unique hv.legible (Term.BuiltOver.names hf)
    (Term.BuiltOver.names hg) hr hr' htext
  exact ⟨by rw [folded, folded, same], hrest⟩

/-- The text of a formula tells where it ends and, up to folded constraints, which formula it is. -/
theorem text_unique (hv : Vocabulary P R) (f : Formula) : f.Readable P R := by
  induction f using Formula.induct with
  | bool b => exact readable_of_word hv rfl
  | prop name => exact readable_of_word hv rfl
  | atom c =>
    cases c with
    | var | bool | num => exact readable_of_word hv rfl
    | _ => exact readable_of_relation hv rfl
  | not f ih =>
    intro g r r' hf hg hr hr' h
    obtain ⟨g, rfl⟩ := eq_not (hf.opens_eq hv hg h)
    simp only [text_not, List.cons_append, List.cons.injEq, true_and] at h
    obtain ⟨same, hrest⟩ := ih (g := g) hf hg hr hr' h
    exact ⟨by rw [folded, folded, same], hrest⟩
  | eventually w f ih =>
    intro g r r' hf hg hr hr' h
    obtain ⟨w', g, rfl⟩ := eq_eventually (hf.opens_eq hv hg h)
    simp only [text_eventually, List.cons_append, List.append_assoc, List.nil_append,
      List.cons.injEq, true_and] at h
    obtain ⟨hwin, same, hrest⟩ := windowed_unique hf.1 hg.1 ih hf.2 hg.2 h
    exact ⟨by rw [folded, folded, hwin, same], hrest⟩
  | always w f ih =>
    intro g r r' hf hg hr hr' h
    obtain ⟨w', g, rfl⟩ := eq_always (hf.opens_eq hv hg h)
    simp only [text_always, List.cons_append, List.append_assoc, List.nil_append,
      List.cons.injEq, true_and] at h
    obtain ⟨hwin, same, hrest⟩ := windowed_unique hf.1 hg.1 ih hf.2 hg.2 h
    exact ⟨by rw [folded, folded, hwin, same], hrest⟩
  | and fs ih =>
    intro g s s' hf hg hr hr' h
    have hopens := hf.opens_eq hv hg h
    obtain ⟨f, f', fs, rfl⟩ := exists_two hf.1
    rw [text_and] at h
    simp only [List.cons_append, List.append_assoc, List.nil_append] at h
    obtain ⟨gs, rfl⟩ := eq_and ((ih f (by simp)).mark_eq hf.2.1 hg hopens h)
    obtain ⟨g, g', gs, rfl⟩ := exists_two hg.1
    rw [text_and] at h
    simp only [List.cons_append, List.append_assoc, List.nil_append, List.cons.injEq,
      true_and] at h
    obtain ⟨same, hrest⟩ := row_unique ⟨_, rfl⟩ ih hf.2 hg.2 h
    exact ⟨by rw [folded, folded, same], hrest⟩
  | or fs ih =>
    intro g s s' hf hg hr hr' h
    have hopens := hf.opens_eq hv hg h
    obtain ⟨f, f', fs, rfl⟩ := exists_two hf.1
    rw [text_or] at h
    simp only [List.cons_append, List.append_assoc, List.nil_append] at h
    obtain ⟨gs, rfl⟩ := eq_or ((ih f (by simp)).mark_eq hf.2.1 hg hopens h)
    obtain ⟨g, g', gs, rfl⟩ := exists_two hg.1
    rw [text_or] at h
    simp only [List.cons_append, List.append_assoc, List.nil_append, List.cons.injEq,
      true_and] at h
    obtain ⟨same, hrest⟩ := row_unique ⟨_, rfl⟩ ih hf.2 hg.2 h
    exact ⟨by rw [folded, folded, same], hrest⟩
  | implies l r ihl ihr =>
    intro g s s' hf hg hr hr' h
    have hopens := hf.opens_eq hv hg h
    rw [text_implies] at h
    simp only [List.cons_append, List.append_assoc, List.nil_append] at h
    obtain ⟨l', r', rfl⟩ := eq_implies (ihl.mark_eq hf.1 hg hopens h)
    rw [text_implies] at h
    simp only [List.cons_append, List.append_assoc, List.nil_append, List.cons.injEq,
      true_and] at h
    obtain ⟨samel, h⟩ := ihl hf.1 hg.1 (Term.ended_blank _) (Term.ended_blank _) h
    simp only [List.cons.injEq, true_and] at h
    obtain ⟨samer, h⟩ := ihr hf.2 hg.2 (Term.ended_paren _) (Term.ended_paren _) h
    injection h with _ hrest
    exact ⟨by rw [folded, folded, samel, samer], hrest⟩
  | untl w l r ihl ihr =>
    intro g s s' hf hg hr hr' h
    have hopens := hf.opens_eq hv hg h
    rw [text_untl] at h
    simp only [List.cons_append, List.append_assoc, List.nil_append] at h
    obtain ⟨w', l', r', rfl⟩ := eq_untl (ihl.mark_eq hf.2.1 hg hopens h)
    rw [text_untl] at h
    simp only [List.cons_append, List.append_assoc, List.nil_append, List.cons.injEq,
      true_and] at h
    obtain ⟨hwin, samel, samer, hrest⟩ := binary_unique hf.1 hg.1 ihl ihr hf.2 hg.2 h
    exact ⟨by rw [folded, folded, hwin, samel, samer], hrest⟩
  | release w l r ihl ihr =>
    intro g s s' hf hg hr hr' h
    have hopens := hf.opens_eq hv hg h
    rw [text_release] at h
    simp only [List.cons_append, List.append_assoc, List.nil_append] at h
    obtain ⟨w', l', r', rfl⟩ := eq_release (ihl.mark_eq hf.2.1 hg hopens h)
    rw [text_release] at h
    simp only [List.cons_append, List.append_assoc, List.nil_append, List.cons.injEq,
      true_and] at h
    obtain ⟨hwin, samel, samer, hrest⟩ := binary_unique hf.1 hg.1 ihl ihr hf.2 hg.2 h
    exact ⟨by rw [folded, folded, hwin, samel, samer], hrest⟩
  | witness | missing => exact fun _ _ _ hf => hf.elim

end Formula

/-! ## Formulas of one text -/

namespace Formula

def Same (σ : Trace) (f g : Formula) : Prop :=
  ∀ t, 0 ≤ t → t ≤ σ.length → (f.Holds σ t ↔ g.Holds σ t)

section

variable {σ : Trace} {f g l l' r r' : Formula} {w : Window}

theorem Same.refl (f : Formula) : f.Same σ f := fun _ _ _ => Iff.rfl

theorem Same.symm (h : f.Same σ g) : g.Same σ f := fun t h0 ht => (h t h0 ht).symm

theorem Same.trans {k : Formula} (h : f.Same σ g) (h' : g.Same σ k) : f.Same σ k :=
  fun t h0 ht => (h t h0 ht).trans (h' t h0 ht)

theorem Same.not (h : f.Same σ g) : (not f).Same σ (not g) := by
  intro t h0 ht
  rw [Holds, Holds, h t h0 ht]

theorem Same.implies (hl : l.Same σ l') (hr : r.Same σ r') :
    (implies l r).Same σ (implies l' r') := by
  intro t h0 ht
  rw [Holds, Holds, hl t h0 ht, hr t h0 ht]

theorem Same.and {fs gs : List Formula} (h : List.Forall₂ (Same σ) fs gs) :
    (and fs).Same σ (and gs) := by
  intro t h0 ht
  rw [Holds, Holds]
  induction h with
  | nil => rfl
  | cons h _ ih => rw [HoldAll, HoldAll, h t h0 ht, ih]

theorem Same.or {fs gs : List Formula} (h : List.Forall₂ (Same σ) fs gs) :
    (or fs).Same σ (or gs) := by
  intro t h0 ht
  rw [Holds, Holds]
  induction h with
  | nil => rfl
  | cons h _ ih => rw [HoldSome, HoldSome, h t h0 ht, ih]

section

variable (hw : w.Forward)
include hw

theorem Same.eventually (h : f.Same σ g) : (eventually w f).Same σ (eventually w g) := by
  intro t h0 ht
  rw [Holds, Holds]
  refine exists_congr fun u => and_congr_right fun hu => and_congr_right fun hle => ?_
  exact h u (hu.nonneg hw.nonneg h0) hle

theorem Same.always (h : f.Same σ g) : (always w f).Same σ (always w g) := by
  intro t h0 ht
  rw [Holds, Holds]
  exact forall_congr' fun u => forall₂_congr fun hu hle => h u (hu.nonneg hw.nonneg h0) hle

theorem Same.untl (hl : l.Same σ l') (hr : r.Same σ r') : (untl w l r).Same σ (untl w l' r') := by
  intro t h0 ht
  rw [Holds, Holds]
  refine exists_congr fun u => and_congr_right fun hu => and_congr_right fun hle => ?_
  refine and_congr (hr u (hu.nonneg hw.nonneg h0) hle) ?_
  exact forall_congr' fun v => forall₂_congr fun htv hvu => hl v (h0.trans htv) (hvu.le.trans hle)

theorem Same.release (hl : l.Same σ l') (hr : r.Same σ r') :
    (release w l r).Same σ (release w l' r') := by
  intro t h0 ht
  rw [Holds, Holds]
  refine forall_congr' fun u => forall₂_congr fun hu hle => ?_
  refine or_congr (hr u (hu.nonneg hw.nonneg h0) hle) (exists_congr fun v => ?_)
  exact and_congr_right fun htv => and_congr_right fun hvu =>
    hl v (h0.trans htv) (hvu.le.trans hle)

end

end

variable {P : Var → Prop} {R : String → Prop} {σ : Trace}

/-- If a part of a formula is a constraint, it holds on a trace as its text tells. -/
def Keeps (σ : Trace) (f : Formula) : Prop := ∀ c, f = atom c → (atom c).Same σ (atom c).folded

/-- A formula whose constraints hold on a trace as their texts tell. -/
structure Faithful (P : Var → Prop) (R : String → Prop) (σ : Trace) (f : Formula) : Prop where
  formed : f.Over P R
  keeps : f.Every (Keeps σ) fun _ => True

/-- Making constraints uniform does not matter. -/
theorem Faithful.same_folded {f : Formula} (h : f.Faithful P R σ) : f.Same σ f.folded := by
  have parts {fs : List Formula} (ih : ∀ f ∈ fs, f.Over P R →
        (f.Every (Keeps σ) fun _ => True) → f.Same σ f.folded)
      (hf : FormedAll (Term.BuiltOver P) R fs) (hk : EveryAll (Keeps σ) (fun _ => True) fs) :
      List.Forall₂ (Same σ) fs (foldedAll fs) := by
    rw [foldedAll_eq, List.forall₂_map_right_iff, List.forall₂_same]
    exact fun f hm => ih f hm (formedAll_iff.1 hf f hm) (everyAll_iff.1 hk f hm)
  obtain ⟨hf, hk⟩ := h
  induction f using Formula.induct with
  | bool b => exact Same.refl _
  | prop name => exact Same.refl _
  | atom c => exact hk c rfl
  | not f ih => exact (ih hf hk).not
  | and fs ih => exact Same.and (parts ih hf.2 hk)
  | or fs ih => exact Same.or (parts ih hf.2 hk)
  | implies l r ihl ihr => exact (ihl hf.1 hk.1).implies (ihr hf.2 hk.2)
  | eventually w f ih => exact (ih hf.2 hk.2).eventually hf.1
  | always w f ih => exact (ih hf.2 hk.2).always hf.1
  | untl w l r ihl ihr => exact (ihl hf.2.1 hk.2.1).untl hf.1 (ihr hf.2.2 hk.2.2)
  | release w l r ihl ihr => exact (ihl hf.2.1 hk.2.1).release hf.1 (ihr hf.2.2 hk.2.2)
  | witness | missing => exact hf.elim

/-- Formulas with a property hold at the same instants of a trace if they have one text. -/
def Alike (Q : Formula → Prop) (σ : Trace) : Prop :=
  ∀ f g, Q f → Q g → f.text = g.text → f.Same σ g

theorem folded_of_text (hv : Vocabulary P R) {f g : Formula} (hf : f.Over P R)
    (hg : g.Over P R) (h : f.text = g.text) : f.folded = g.folded := by
  have ended : Ended [] := by simp [Ended]
  exact (text_unique hv f hf hg ended ended (by rw [h])).1

theorem alike_faithful (hv : Vocabulary P R) : Alike (Faithful P R σ) σ := by
  intro f g hf hg h
  have hfolded := folded_of_text hv hf.formed hg.formed h
  exact hf.same_folded.trans (hfolded ▸ hg.same_folded.symm)

end Formula

end HybridCheck
