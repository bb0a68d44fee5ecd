import HybridCheck.Proofs.Words

/-!
# The tokens of a text

Here it is told from a text alone what is split off it: which texts tokens of a class have, where a
token ends, and that the tokens follow each other with nothing but blanks between them. There is at
most one way to cover a text so, and it is the one that is found. If there is none, the tokens cover
the text up to a character with which no token begins, and that is what is reported.

A reader sees the tokens one after the other and the end of the text behind them.
-/

namespace HybridCheck

namespace Token

variable {cs r s : List Char} {c : Char} {t : Token} {ts : List Token} {kind : TokenKind}
  {l m n : Nat}

/-- The texts that tokens of a class have. -/
def IsLexeme : TokenKind → String → Prop
  | .ident, text => isIdentifier text = true
  | .number, text => text ≠ "" ∧ ∀ c ∈ text.toList, isNumeric c = true
  | .symbol, text => text ∈ symbols

/-- What stands behind a token does not belong to it. An identifier is not continued but by an
underscore that belongs to a window, and does not end in such an underscore. A symbol is the longest
one. An underscore alone is the beginning of an identifier if an identifier character follows. -/
def EndsBefore : TokenKind → String → List Char → Prop
  | .ident, text, r =>
    (∀ c ∈ r.head?, isIdentChar c = true → c = '_' ∧ opensWindow r.tail = true) ∧
    (text.toList.getLast? = some '_' → opensWindow r = false) ∧
    (text = "_" → r.head?.any isIdentChar = true)
  | .number, _, r => ∀ c ∈ r.head?, isNumeric c = false
  | .symbol, text, r =>
    (∀ s ∈ symbols, s.toList <+: text.toList ++ r → s.length ≤ text.length) ∧
    (text = "_" → r.head?.any isIdentChar = false)

def stop (t : Token) : Nat := t.offset + t.text.length

structure Stands (cs : List Char) (t : Token) : Prop where
  lexeme : IsLexeme t.kind t.text
  here : t.text.toList <+: cs.drop t.offset
  ends : EndsBefore t.kind t.text (cs.drop t.stop)

/-- The tokens stand in a text from `m` up to `n`, one behind the other, and every character between
them is blank. -/
structure Covers (cs : List Char) (m n : Nat) (ts : List Token) : Prop where
  bounded : m ≤ n
  stands : ∀ t ∈ ts, t.Stands cs
  within : ∀ t ∈ ts, m ≤ t.offset ∧ t.offset < t.stop ∧ t.stop ≤ n
  ordered : ts.Pairwise fun t u => t.offset < u.offset ∧ t.stop ≤ u.offset
  blank : ∀ i, m ≤ i → i < n → (∀ t ∈ ts, ¬(t.offset ≤ i ∧ i < t.stop)) →
    ∀ c ∈ cs[i]?, isBlank c = true

/-- At a character that is not blank no token begins. -/
structure Stuck (cs : List Char) (n : Nat) (c : Char) : Prop where
  char : cs[n]? = some c
  solid : isBlank c = false
  lexeme : ∀ kind text, IsLexeme kind text → ¬text.toList <+: cs.drop n

/-! ## The extent of a token -/

theorem identLength_eq_zero : identLength r = 0 ↔
    ∀ c ∈ r.head?, isIdentChar c = true → c = '_' ∧ opensWindow r.tail = true := by
  cases r with
  | nil => simp [identLength]
  | cons c r =>
    rw [identLength]
    by_cases hc : isIdentChar c = true <;> simp [hc]

/-- An identifier takes identifier characters, as many as it can. -/
theorem identLength_spec (cs : List Char) :
    (∀ c ∈ cs.take (identLength cs), isIdentChar c = true) ∧
    identLength (cs.drop (identLength cs)) = 0 := by
  induction cs with
  | nil => simp [identLength]
  | cons c cs ih =>
    by_cases continued : isIdentChar c && !(c = '_' && opensWindow cs)
    · have hc : isIdentChar c = true := (Bool.and_eq_true_iff.1 continued).1
      rw [identLength, if_pos continued, List.take_succ_cons, List.drop_succ_cons]
      exact ⟨List.forall_mem_cons.2 ⟨hc, ih.1⟩, ih.2⟩
    · have none : identLength (c :: cs) = 0 := by rw [identLength, if_neg continued]
      rw [none, List.take_zero, List.drop_zero]
      exact ⟨by simp, none⟩

/-- An identifier does not take the underscore of a window. -/
theorem opensWindow_behind (kept : c = '_' → opensWindow cs = false)
    (last : (c :: cs.take (identLength cs)).getLast? = some '_') :
    opensWindow (cs.drop (identLength cs)) = false := by
  -- the underscore may be any of the characters, so the first one varies
  induction cs generalizing c with
  | nil => exact kept (by simpa using last)
  | cons d cs ih =>
    by_cases continued : isIdentChar d && !(d = '_' && opensWindow cs)
    · rw [identLength, if_pos continued, List.take_succ_cons, List.getLast?_cons_cons] at last
      rw [identLength, if_pos continued, List.drop_succ_cons]
      refine ih (fun under => ?_) last
      simp only [under, Bool.and_eq_true] at continued
      simpa using continued.2
    · have none : identLength (d :: cs) = 0 := by rw [identLength, if_neg continued]
      rw [none, List.take_zero] at last
      rw [none, List.drop_zero]
      exact kept (by simpa using last)

theorem numberLength_spec (cs : List Char) :
    (∀ c ∈ cs.take (numberLength cs), isNumeric c = true) ∧
    ∀ c ∈ (cs.drop (numberLength cs)).head?, isNumeric c = false := by
  induction cs with
  | nil => simp [numberLength]
  | cons c cs ih =>
    cases hc : isNumeric c with
    | true =>
      rw [numberLength, hc, if_pos rfl, List.take_succ_cons, List.drop_succ_cons]
      exact ⟨List.forall_mem_cons.2 ⟨hc, ih.1⟩, ih.2⟩
    | false =>
      rw [numberLength, hc]
      simpa using hc

/-- The symbol that is found is the longest one. -/
theorem length_le_of_find? {p : String → Bool} {s : String} (h : symbols.find? p = some s) :
    ∀ u ∈ symbols, p u = true → u.length ≤ s.length := by
  have sorted : symbols.Pairwise fun s u => u.length ≤ s.length := by decide
  obtain ⟨-, before, after, split, others⟩ := List.find?_eq_some_iff_append.1 h
  rw [split] at sorted ⊢
  intro u hu hp
  rcases List.mem_append.1 hu with hu | hu
  · simpa [hp] using others u hu
  · rcases List.mem_cons.1 hu with rfl | hu
    · exact le_rfl
    · exact (List.pairwise_cons.1 (List.pairwise_append.1 sorted).2.1).1 u hu

theorem head_of_symbol {text : String} (h : text ∈ symbols) : ∃ c s, text.toList = c :: s ∧
    isLetter c = false ∧ isNumeric c = false ∧ isBlank c = false ∧ (c = '_' → text = "_") := by
  have heads : ∀ text ∈ symbols, text.toList.head?.any (fun c => !isLetter c && !isNumeric c &&
      !isBlank c && (!(c == '_') || text == "_")) = true := by decide
  have head := heads text h
  cases hs : text.toList with
  | nil =>
    rw [hs] at head
    cases head
  | cons c s =>
    refine ⟨c, s, rfl, ?_⟩
    simpa [hs, and_assoc, or_iff_not_imp_left] using head

theorem isIdentStart_of_startsIdent (h : startsIdent c cs = true) : isIdentStart c = true := by
  unfold startsIdent isLetter at h
  unfold isIdentStart
  grind

theorem opensWindow_of_head (h : cs.head?.any isIdentChar = true) : opensWindow cs = false := by
  cases cs with
  | nil => cases h
  | cons c cs =>
    have apart : c ≠ '[' ∧ c ≠ '(' := by constructor <;> (rintro rfl; cases h)
    simp [opensWindow, apart]

/-- What begins at a character is a lexeme that ends where it should. -/
theorem extent_sound (h : extent? c cs = some (kind, n)) : n ≤ cs.length ∧
    IsLexeme kind (String.ofList (c :: cs.take n)) ∧
    EndsBefore kind (String.ofList (c :: cs.take n)) (cs.drop n) := by
  unfold extent? at h
  split at h
  · next starts =>
    cases h
    obtain ⟨chars, stopped⟩ := identLength_spec cs
    have follows (under : c = '_') : cs.head?.any isIdentChar = true := by
      simpa [startsIdent, under, isLetter] using starts
    refine ⟨identLength_le cs, ?_, identLength_eq_zero.1 stopped, fun last => ?_, fun alone => ?_⟩
    · simpa [IsLexeme, isIdentifier, isIdentStart_of_startsIdent starts] using chars
    · rw [String.toList_ofList] at last
      exact opensWindow_behind (fun under => opensWindow_of_head (follows under)) last
    · have single := congrArg String.toList alone
      obtain ⟨under, none⟩ : c = '_' ∧ cs.take (identLength cs) = [] := by simpa using single
      have rest := List.take_append_drop (identLength cs) cs
      rw [none, List.nil_append] at rest
      rw [rest]
      exact follows under
  · next starts =>
    split at h
    · next hc =>
      cases h
      obtain ⟨chars, stopped⟩ := numberLength_spec cs
      refine ⟨numberLength_le cs, ⟨fun empty => ?_, ?_⟩, stopped⟩
      · simpa using congrArg String.toList empty
      · rw [String.toList_ofList]
        exact List.forall_mem_cons.2 ⟨hc, chars⟩
    · obtain ⟨text, found, h⟩ := Option.map_eq_some_iff.1 h
      cases h
      obtain ⟨d, s, hs, -⟩ := head_of_symbol (List.mem_of_find?_eq_some found)
      have hprefix : text.toList <+: c :: cs :=
        List.isPrefixOf_iff_prefix.1 (by simpa using List.find?_some found)
      have length : text.length - 1 = s.length := by simp [← String.length_toList, hs]
      obtain ⟨r, hr⟩ := hprefix
      obtain ⟨rfl, rfl⟩ : d = c ∧ s ++ r = cs := by simpa [hs] using hr
      have whole : String.ofList (d :: s) = text := by rw [← hs, String.ofList_toList]
      rw [length, List.take_left, List.drop_left, whole]
      refine ⟨by simp, List.mem_of_find?_eq_some found, fun u hu begins => ?_, fun alone => ?_⟩
      · apply length_le_of_find? found u hu
        simpa [hs] using begins
      · obtain ⟨rfl, rfl⟩ : '_' = d ∧ [] = s := by simpa [alone] using hs
        simpa [startsIdent, isLetter] using starts

theorem startsIdent_of_not_letter (hc : isLetter c = false)
    (lone : c = '_' → cs.head?.any isIdentChar = false) : startsIdent c cs = false := by
  rw [startsIdent, hc, Bool.false_or, Bool.and_eq_false_iff]
  by_cases under : c = '_'
  · exact Or.inr (lone under)
  · exact Or.inl (by simpa using under)

/-- A lexeme that ends where it should is what begins at its first character. -/
theorem extent_complete {text : String} (lexeme : IsLexeme kind text) (hs : text.toList = c :: s)
    (ends : EndsBefore kind text r) : extent? c (s ++ r) = some (kind, s.length) := by
  have whole : text = String.ofList (c :: s) := by rw [← hs, String.ofList_toList]
  cases kind with
  | ident =>
    obtain ⟨stopped, kept, lone⟩ := ends
    obtain ⟨-, d, s', hs', hd⟩ := isWord_of_identifier lexeme
    obtain ⟨rfl, rfl⟩ : d = c ∧ s' = s := by simpa using hs'.symm.trans hs
    have chars := isIdentChar_of_identifier lexeme
    rw [hs] at chars kept
    refine extent_identifier hd (List.forall_mem_cons.1 chars).2 (identLength_eq_zero.2 stopped)
      (fun under alone => lone ?_) fun last => kept ?_
    · rw [whole, under, alone]
    · rw [List.getLast?_cons, last]
      rfl
  | number =>
    obtain ⟨-, chars⟩ := lexeme
    rw [hs] at chars
    exact extent_number chars ends
  | symbol =>
    obtain ⟨longest, lone⟩ := ends
    obtain ⟨d, s', hs', letter, numeric, -, under⟩ := head_of_symbol lexeme
    obtain ⟨rfl, rfl⟩ : d = c ∧ s' = s := by simpa using hs'.symm.trans hs
    have starts : startsIdent d (s' ++ r) = false := by
      refine startsIdent_of_not_letter letter fun h => ?_
      have alone := under h
      obtain ⟨-, rfl⟩ : '_' = d ∧ s' = [] := by simpa [alone] using hs
      exact lone alone
    have begins : text.toList.isPrefixOf (d :: (s' ++ r)) = true := by
      rw [List.isPrefixOf_iff_prefix, hs]
      exact List.prefix_append (d :: s') r
    obtain ⟨u, found⟩ :
        ∃ u, symbols.find? (fun u => u.toList.isPrefixOf (d :: (s' ++ r))) = some u :=
      Option.isSome_iff_exists.1 (List.find?_isSome.2 ⟨text, lexeme, begins⟩)
    have hu : u.toList <+: text.toList ++ r := by
      rw [hs]
      exact List.isPrefixOf_iff_prefix.1 (by simpa using List.find?_some found)
    have shorter := longest u (List.mem_of_find?_eq_some found) hu
    have longer := length_le_of_find? found text lexeme begins
    obtain rfl : u = text := by
      rw [← String.length_toList, ← String.length_toList] at shorter longer
      have := List.prefix_of_prefix_length_le hu (List.prefix_append _ r) shorter
      exact String.toList_inj.1 (this.eq_of_length (by omega))
    have length : u.length - 1 = s'.length := by simp [← String.length_toList, hs]
    rw [extent?, if_neg (by simp [starts]), if_neg (by simp [numeric]), found, Option.map_some,
      length]

theorem head_of_lexeme {text : String} (h : IsLexeme kind text) :
    ∃ c s, text.toList = c :: s ∧ isBlank c = false := by
  cases kind with
  | ident =>
    obtain ⟨-, c, s, hs, hc⟩ := isWord_of_identifier h
    exact ⟨c, s, hs, not_blank_of_isIdentChar (by rw [isIdentChar, hc, Bool.true_or])⟩
  | number =>
    obtain ⟨nonempty, chars⟩ := h
    cases hs : text.toList with
    | nil => exact absurd (String.toList_eq_nil_iff.1 hs) nonempty
    | cons c s => exact ⟨c, s, rfl, not_blank_of_isNumeric (chars c (by simp [hs]))⟩
  | symbol =>
    obtain ⟨c, s, hs, -, -, hb, -⟩ := head_of_symbol h
    exact ⟨c, s, hs, hb⟩

/-- Where nothing begins, no lexeme does. -/
theorem not_prefix_of_extent {text : String} (h : extent? c cs = none)
    (lexeme : IsLexeme kind text) : ¬text.toList <+: c :: cs := by
  rintro begins
  unfold extent? at h
  split at h
  · cases h
  next starts =>
  split at h
  · cases h
  next numeric =>
  have none := List.find?_eq_none.1 (Option.map_eq_none_iff.1 h)
  have notSymbol {u : String} (hu : u ∈ symbols) : ¬u.toList <+: c :: cs := fun hp =>
    none u hu (List.isPrefixOf_iff_prefix.2 hp)
  obtain ⟨d, s, hs, -⟩ := head_of_lexeme lexeme
  obtain ⟨r, hr⟩ := begins
  obtain ⟨rfl, rfl⟩ : d = c ∧ s ++ r = cs := by simpa [hs] using hr
  cases kind with
  | ident =>
    obtain ⟨-, d', s', hs', hd⟩ := isWord_of_identifier lexeme
    obtain ⟨rfl, rfl⟩ : d = d' ∧ s = s' := by simpa using hs.symm.trans hs'
    have hd : (isLetter d || d = '_') = true := hd
    rcases Bool.or_eq_true_iff.1 hd with letter | under
    · exact starts (by rw [startsIdent, letter, Bool.true_or])
    · obtain rfl : d = '_' := of_decide_eq_true under
      exact notSymbol (u := "_") (by decide) ⟨s ++ r, rfl⟩
  | number => exact numeric (lexeme.2 d (by simp [hs]))
  | symbol => exact notSymbol lexeme ⟨r, hr⟩

/-! ## What stands at an offset -/

section Stands

variable (hm : cs.drop m = c :: r)
include hm

/-- What begins at an offset stands there, up to the characters that are left. -/
theorem stands_of_extent (he : extent? c r = some (kind, l)) :
    Stands cs ⟨kind, String.ofList (c :: r.take l), m⟩ ∧
      stop ⟨kind, String.ofList (c :: r.take l), m⟩ = m + (l + 1) ∧
      cs.drop (m + (l + 1)) = r.drop l := by
  obtain ⟨hl, lexeme, ends⟩ := extent_sound he
  have length : (c :: r.take l).length = l + 1 := by simp [hl]
  have behind : cs.drop (m + (l + 1)) = r.drop l := by
    rw [← List.drop_drop, hm, List.drop_succ_cons]
  have last : stop ⟨kind, String.ofList (c :: r.take l), m⟩ = m + (l + 1) := by
    rw [stop, String.length_ofList, length]
  refine ⟨⟨lexeme, ?_, ?_⟩, last, behind⟩
  · rw [String.toList_ofList, hm]
    exact ⟨r.drop l, by simp⟩
  · rwa [last, behind]

/-- What stands at an offset begins there, and it is not blank. -/
theorem Stands.extent (h : t.Stands cs) (starts : t.offset = m) : isBlank c = false ∧
    ∃ l, extent? c r = some (t.kind, l) ∧ t = ⟨t.kind, String.ofList (c :: r.take l), m⟩ := by
  obtain ⟨d, s, hs, hb⟩ := head_of_lexeme h.lexeme
  obtain ⟨rest, hrest⟩ := h.here
  rw [starts, hm, hs] at hrest
  obtain ⟨rfl, rfl⟩ : d = c ∧ s ++ rest = r := by simpa using hrest
  have length : t.stop = m + (s.length + 1) := by
    rw [stop, starts, ← String.length_toList, hs, List.length_cons]
  have ends := h.ends
  rw [length, ← List.drop_drop, hm, List.drop_succ_cons, List.drop_left] at ends
  refine ⟨hb, s.length, extent_complete h.lexeme hs ends, ?_⟩
  rw [List.take_left, ← hs, String.ofList_toList, ← starts]

end Stands

/-! ## Covering a text -/

/-- Tokens cover a text from `m` up to a character with which none begins, and this is told. -/
def Halts (cs : List Char) (m : Nat) (e : Failure) : Prop :=
  ∃ ts n c, Covers cs m n ts ∧ Stuck cs n c ∧ e = .unreadable (.unexpectedChar c) n

theorem covers_self : Covers cs n n ts ↔ ts = [] := by
  constructor
  · intro h
    cases ts with
    | nil => rfl
    | cons t ts =>
      obtain ⟨first, proper, last⟩ := h.within t (by simp)
      omega
  · rintro rfl
    exact ⟨le_rfl, by simp, by simp, .nil, fun i hi hi' => by omega⟩

section Step

variable (hm : cs.drop m = c :: r)
include hm

theorem getElem?_of_drop : cs[m]? = some c := by
  rw [← List.head?_drop, hm]
  rfl

/-- A cover of what begins with a blank is one of what follows the blank. -/
theorem covers_blank (hb : isBlank c = true) (hmn : m < n) :
    Covers cs m n ts ↔ Covers cs (m + 1) n ts := by
  constructor
  · intro h
    refine ⟨hmn, h.stands, fun t ht => ?_, h.ordered, fun i hi => h.blank i (by omega)⟩
    obtain ⟨first, inside⟩ := h.within t ht
    have apart : t.offset ≠ m := by
      intro starts
      cases hb.symm.trans ((h.stands t ht).extent hm starts).1
    exact ⟨by omega, inside⟩
  · intro h
    refine ⟨hmn.le, h.stands, fun t ht => ?_, h.ordered, fun i hi hin free => ?_⟩
    · obtain ⟨first, inside⟩ := h.within t ht
      exact ⟨by omega, inside⟩
    · obtain rfl | later := hi.eq_or_lt
      · rw [getElem?_of_drop hm]
        simpa using hb
      · exact h.blank i later hin free

/-- A cover of what does not begin with a blank has a token there. -/
theorem Covers.exists_first (hb : isBlank c = false) (hmn : m < n) (h : Covers cs m n ts) :
    ∃ t us, ts = t :: us ∧ t.offset = m := by
  have covered : ∃ t ∈ ts, t.offset ≤ m ∧ m < t.stop := by
    by_contra none
    push Not at none
    have := h.blank m le_rfl hmn (fun t ht inside => by
      have := none t ht inside.1
      omega) c (getElem?_of_drop hm)
    cases hb.symm.trans this
  obtain ⟨t, ht, before, -⟩ := covered
  cases ts with
  | nil => simp at ht
  | cons u us =>
    refine ⟨u, us, rfl, ?_⟩
    have least := (h.within u (by simp)).1
    rcases List.mem_cons.1 ht with rfl | ht
    · omega
    · have := (List.pairwise_cons.1 h.ordered).1 t ht
      omega

/-- Where no token begins, nothing is covered. -/
theorem not_covers (hb : isBlank c = false) (he : extent? c r = none) (hmn : m < n) :
    ¬Covers cs m n ts := by
  intro h
  obtain ⟨t, us, rfl, starts⟩ := h.exists_first hm hb hmn
  obtain ⟨-, l, begins, -⟩ := (h.stands t (by simp)).extent hm starts
  cases he.symm.trans begins

/-- A cover of what begins with a token has this token first and covers what follows it. -/
theorem covers_token (hb : isBlank c = false) (he : extent? c r = some (kind, l)) (hmn : m < n) :
    Covers cs m n ts ↔ ∃ us, ts = ⟨kind, String.ofList (c :: r.take l), m⟩ :: us ∧
      Covers cs (m + (l + 1)) n us := by
  obtain ⟨stands, last, -⟩ := stands_of_extent hm he
  constructor
  · intro h
    obtain ⟨t, us, rfl, starts⟩ := h.exists_first hm hb hmn
    obtain ⟨-, l', begins, whole⟩ := (h.stands t (by simp)).extent hm starts
    obtain ⟨rfl, rfl⟩ : kind = t.kind ∧ l = l' := by simpa using he.symm.trans begins
    rw [← whole] at last
    obtain ⟨later, ordered⟩ := List.pairwise_cons.1 h.ordered
    refine ⟨us, by rw [← whole], ?_, fun u hu => h.stands u (by simp [hu]), fun u hu => ?_, ordered,
      fun i hi hin free => ?_⟩
    · have := (h.within t (by simp)).2.2
      omega
    · have := h.within u (by simp [hu])
      have := later u hu
      omega
    · refine h.blank i (by omega) hin (List.forall_mem_cons.2 ⟨fun inside => ?_, free⟩)
      omega
  · rintro ⟨us, rfl, h⟩
    have bounded := h.bounded
    refine ⟨by omega, List.forall_mem_cons.2 ⟨stands, h.stands⟩,
      List.forall_mem_cons.2 ⟨⟨le_rfl, ?_, ?_⟩, fun u hu => ?_⟩,
      List.pairwise_cons.2 ⟨fun u hu => ?_, h.ordered⟩, fun i hi hin free => ?_⟩
    · rw [last]
      show m < _
      omega
    · rwa [last]
    · have := h.within u hu
      omega
    · have := h.within u hu
      rw [last]
      exact ⟨by show m < _; omega, this.1⟩
    · obtain ⟨own, free⟩ := List.forall_mem_cons.1 free
      rw [last] at own
      exact h.blank i (by by_contra hlt; exact own ⟨hi, by omega⟩) hin free

theorem halts_blank {e : Failure} (hb : isBlank c = true) :
    Halts cs m e ↔ Halts cs (m + 1) e := by
  constructor
  · rintro ⟨ts, n, d, h, stuck, he⟩
    obtain rfl | later := h.bounded.eq_or_lt
    · cases (getElem?_of_drop hm).symm.trans stuck.char
      cases hb.symm.trans stuck.solid
    · exact ⟨ts, n, d, (covers_blank hm hb later).1 h, stuck, he⟩
  · rintro ⟨ts, n, d, h, stuck, he⟩
    exact ⟨ts, n, d, (covers_blank hm hb h.bounded).2 h, stuck, he⟩

theorem halts_token {e : Failure} (hb : isBlank c = false)
    (he : extent? c r = some (kind, l)) : Halts cs m e ↔ Halts cs (m + (l + 1)) e := by
  constructor
  · rintro ⟨ts, n, d, h, stuck, rfl⟩
    obtain rfl | later := h.bounded.eq_or_lt
    · have stands := (stands_of_extent hm he).1
      exact absurd stands.here (stuck.lexeme _ _ stands.lexeme)
    · obtain ⟨us, -, rest⟩ := (covers_token hm hb he later).1 h
      exact ⟨us, n, d, rest, stuck, rfl⟩
  · rintro ⟨us, n, d, h, stuck, rfl⟩
    have later : m < n := by
      have := h.bounded
      omega
    exact ⟨_, n, d, (covers_token hm hb he later).2 ⟨us, rfl, h⟩, stuck, rfl⟩

theorem halts_none {e : Failure} (hb : isBlank c = false) (he : extent? c r = none) :
    Halts cs m e ↔ e = .unreadable (.unexpectedChar c) m := by
  have char := getElem?_of_drop hm
  constructor
  · rintro ⟨ts, n, d, h, stuck, rfl⟩
    obtain rfl | later := h.bounded.eq_or_lt
    · cases char.symm.trans stuck.char
      rfl
    · exact absurd h (not_covers hm hb he later)
  · rintro rfl
    refine ⟨[], m, c, covers_self.2 rfl, ⟨char, hb, fun kind text lexeme => ?_⟩, rfl⟩
    rw [hm]
    exact not_prefix_of_extent he lexeme

end Step

theorem not_halts_end {e : Failure} : ¬Halts cs cs.length e := by
  rintro ⟨ts, n, c, h, stuck, -⟩
  have := (List.getElem?_eq_some_iff.1 stuck.char).1
  have := h.bounded
  omega

/-- What is split off the rest of a text covers it. If it cannot be split, it is covered up to the
offset that is told. -/
theorem scanFrom_exact (hm : cs.drop m = r) (hle : m ≤ cs.length) :
    (∀ ts, scanFrom m r = .ok ts ↔ Covers cs m cs.length ts) ∧
      ∀ e, scanFrom m r = .error e ↔ Halts cs m e := by
  induction m, r using scanFrom.induct with
  | case1 m =>
    obtain rfl : m = cs.length := le_antisymm hle (List.drop_eq_nil_iff.1 hm)
    rw [scanFrom]
    refine ⟨fun ts => ?_, fun e => ?_⟩
    · rw [covers_self, Except.ok.injEq, eq_comm]
    · simp [not_halts_end]
  | case2 m c r hb ih =>
    have below : m < cs.length := (List.getElem?_eq_some_iff.1 (getElem?_of_drop hm)).1
    obtain ⟨done, failed⟩ := ih (by rw [← List.drop_drop, hm]; rfl) below
    rw [scanFrom, if_pos hb]
    exact ⟨fun ts => (done ts).trans (covers_blank hm hb below).symm,
      fun e => (failed e).trans (halts_blank hm hb).symm⟩
  | case3 m c r hb he =>
    have below : m < cs.length := (List.getElem?_eq_some_iff.1 (getElem?_of_drop hm)).1
    have solid : isBlank c = false := by simpa using hb
    rw [scanFrom, if_neg hb, he]
    refine ⟨fun ts => ?_, fun e => ?_⟩
    · simp [not_covers hm solid he below]
    · rw [halts_none hm solid he, Except.error.injEq, eq_comm]
  | case4 m c r hb kind l he ih =>
    have below : m < cs.length := (List.getElem?_eq_some_iff.1 (getElem?_of_drop hm)).1
    have solid : isBlank c = false := by simpa using hb
    obtain ⟨-, -, behind⟩ := stands_of_extent hm he
    have fits := (extent_sound he).1
    have length := congrArg List.length hm
    rw [List.length_drop, List.length_cons] at length
    obtain ⟨done, failed⟩ := ih behind (by omega)
    rw [scanFrom, if_neg hb, he]
    refine ⟨fun ts => ?_, fun e => ?_⟩
    · rw [covers_token hm solid he below]
      simp only [← done, Attempt.bind_eq_ok, Attempt.pure_eq_ok, Except.ok.injEq]
      exact exists_congr fun us => and_comm.trans (and_congr_left' eq_comm)
    · rw [halts_token hm solid he, ← failed]
      simp [Attempt.bind_eq_error]

end Token

/-! ## The end of a text -/

namespace Parser

/-- What a reader finds token after token: the text of the next one and its offset, down to what it
finds behind the last one. -/
def ahead (cx : Context) (ts : List Token) : List (String × Nat) :=
  ts.tails.map fun rest => (headText rest, headOffset cx rest)

theorem ahead_eq (cx : Context) (ts : List Token) :
    ahead cx ts = ts.map (fun t => (t.text, t.offset)) ++ [("", cx.length)] := by
  induction ts with
  | nil => rfl
  | cons t ts ih =>
    rw [ahead, List.tails_cons, List.map_cons, ← ahead, ih]
    rfl

end Parser

/-- Splitting a text loses nothing. The tokens that are found are those that cover the text: each
stands at its offset, each ends before the next one begins, and there are only blanks between them.
If there is no such cover, the first offset is told at which no token can begin, and the text is
covered up to there. A reader finds the tokens with their texts and offsets, and behind them an
empty text at the length of what was split. -/
theorem scan_exact (cs : List Char) :
    (∀ ts, Token.scan cs = .ok ts ↔ Token.Covers cs 0 cs.length ts) ∧
    (∀ e, Token.scan cs = .error e ↔ ∃ ts n c, Token.Covers cs 0 n ts ∧ Token.Stuck cs n c ∧
      e = .unreadable (.unexpectedChar c) n) ∧
    ∀ scope constraintOnly ts, Parser.ahead ⟨scope, constraintOnly, cs.length⟩ ts =
      ts.map (fun t => (t.text, t.offset)) ++ [("", cs.length)] := by
  obtain ⟨done, failed⟩ := Token.scanFrom_exact (rfl : cs.drop 0 = cs) (Nat.zero_le _)
  exact ⟨done, failed, fun _ _ _ => Parser.ahead_eq _ _⟩

end HybridCheck
