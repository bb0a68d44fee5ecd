import HybridCheck.Proofs.FormulaText
import HybridCheck.Proofs.Nesting

/-!
# The words of a written formula

The text of a formula without constraints splits into words that can be told from the formula: its
names, its numbers and the symbols between them. A blank or a parenthesis stands behind every name
and every formula, which ends an identifier; an operator before a window gives up its underscore;
and a number ends at a comma or at a bracket. Nothing of this depends on where the text stands, so
the words of a formula are those of its parts, put together.
-/

namespace HybridCheck

/-! ## Bytes of written formulas -/

/-- Every character of a text is a byte of its own. -/
def IsAscii (s : List Char) : Prop := ∀ c ∈ s, c.toNat < 128

@[simp] theorem isAscii_nil : IsAscii [] := by simp [IsAscii]

@[simp] theorem isAscii_cons {c : Char} {s : List Char} :
    IsAscii (c :: s) ↔ c.toNat < 128 ∧ IsAscii s := by
  simp [IsAscii]

@[simp] theorem isAscii_append {s t : List Char} : IsAscii (s ++ t) ↔ IsAscii s ∧ IsAscii t := by
  simp [IsAscii, or_imp, forall_and]

theorem byteChars_singleton {c : Char} (h : c.toNat < 128) :
    byteChars (String.singleton c) = [c] := by
  have size : c.utf8Size = 1 := by
    rw [Char.utf8Size_eq_one_iff, UInt32.le_iff_toNat_le]
    exact Nat.le_of_lt_succ h
  have bytes : (String.singleton c).toUTF8.toList = [c.val.toUInt8] := by
    have : (String.singleton c).toList = [c] := by simp
    rw [String.toUTF8_eq_toByteArray, ← String.utf8Encode_toList, this, List.utf8Encode_singleton,
      String.utf8EncodeChar_eq_singleton size]
    exact toList_loop _ 0 []
  have code : c.val.toUInt8.toNat = c.toNat := by
    rw [UInt32.toNat_toUInt8]
    exact Nat.mod_eq_of_lt (by omega : c.toNat < 256)
  rw [byteChars, bytes, List.map_singleton, code, Char.ofNat_toNat]

theorem byteChars_of_ascii {s : String} (h : IsAscii s.toList) : byteChars s = s.toList := by
  obtain ⟨cs, rfl⟩ : ∃ cs, s = String.ofList cs := ⟨s.toList, by simp⟩
  rw [String.toList_ofList] at h ⊢
  induction cs with
  | nil => cbv
  | cons c cs ih =>
    obtain ⟨hc, hcs⟩ := isAscii_cons.1 h
    have cut : String.ofList (c :: cs) = String.singleton c ++ String.ofList cs := by
      simp
    rw [cut, byteChars_append, byteChars_singleton hc, ih hcs]
    rfl

theorem char_le_iff {a b : Char} : a ≤ b ↔ a.toNat ≤ b.toNat := Iff.rfl

theorem toNat_of_isIdentChar {c : Char} (h : isIdentChar c = true) :
    48 ≤ c.toNat ∧ c.toNat < 123 := by
  simp only [isIdentChar, isIdentStart, Bool.or_eq_true, Bool.and_eq_true, decide_eq_true_eq,
    char_le_iff, Char.reduceToNat] at h
  rcases h with ((h | h) | rfl) | h
  · omega
  · omega
  · decide
  · omega

theorem isAscii_identifier {name : String} (h : isIdentifier name = true) :
    IsAscii name.toList := by
  intro c hc
  have := toNat_of_isIdentChar (isIdentChar_of_identifier h c hc)
  omega

/-! ## Splitting text into words -/

namespace Token

variable {r s cs : List Char} {ws : List (TokenKind × String)}

def word (t : Token) : TokenKind × String := (t.kind, t.text)

/-- Wherever a text stands, its tokens are the given words. -/
def Splits (cs : List Char) (ws : List (TokenKind × String)) : Prop :=
  ∀ offset, ∃ ts, scanFrom offset cs = .ok ts ∧ ts.map word = ws

theorem Splits.nil : Splits [] [] := fun _ => ⟨[], by rw [scanFrom], rfl⟩

theorem Splits.blank (h : Splits cs ws) : Splits (' ' :: cs) ws := by
  intro offset
  obtain ⟨ts, hts, hws⟩ := h (offset + 1)
  refine ⟨ts, ?_, hws⟩
  rw [scanFrom, if_pos (by decide)]
  exact hts

theorem Splits.cons {c : Char} {kind : TokenKind} {n : Nat} (hb : isBlank c = false)
    (he : extent? c cs = some (kind, n)) (h : Splits (cs.drop n) ws) :
    Splits (c :: cs) ((kind, String.ofList (c :: cs.take n)) :: ws) := by
  intro offset
  obtain ⟨ts, hts, rfl⟩ := h (offset + (n + 1))
  exact ⟨_, scanFrom_cons hb he hts, rfl⟩

/-- A symbol of one character. -/
theorem Splits.symbol {c : Char} (hb : isBlank c = false)
    (he : extent? c cs = some (.symbol, 0)) (h : Splits cs ws) :
    Splits (c :: cs) ((.symbol, String.singleton c) :: ws) := by
  have := Splits.cons hb he h
  rwa [List.take_zero] at this

/-! ### Identifiers and numbers -/

theorem not_blank_of_isIdentChar {c : Char} (h : isIdentChar c = true) : isBlank c = false := by
  have := toNat_of_isIdentChar h
  unfold isBlank
  grind

theorem identLength_of_not {c : Char} (h : isIdentChar c = false) : identLength (c :: r) = 0 := by
  rw [identLength, h]
  rfl

theorem identLength_of_ended (hr : Ended r) : identLength r = 0 := by
  cases r with
  | nil => rfl
  | cons c r => rcases hr c rfl with rfl | rfl <;> exact identLength_of_not rfl

/-- An identifier is continued by all of its characters, unless it gives up its last underscore. -/
theorem identLength_append_of_stop (hs : ∀ c ∈ s, isIdentChar c = true) (hr : identLength r = 0)
    (kept : s.getLast? = some '_' → opensWindow r = false) :
    identLength (s ++ r) = s.length := by
  induction s with
  | nil => exact hr
  | cons c s ih =>
    obtain ⟨hc, hs⟩ := List.forall_mem_cons.1 hs
    have inner : (c = '_' && opensWindow (s ++ r)) = false := by
      cases s with
      | nil =>
        by_cases under : c = '_'
        · simp [under, kept]
        · simp [under]
      | cons d s =>
        have hd : isIdentChar d = true := hs d (by simp)
        have : d ≠ '[' ∧ d ≠ '(' := by constructor <;> (rintro rfl; cases hd)
        simp [opensWindow, this]
    have later := ih hs fun last => kept (by rw [List.getLast?_cons, last]; rfl)
    rw [List.cons_append, identLength, hc, inner, later]
    rfl

/-- An identifier is one word with all of its characters, unless it gives up its last underscore or
is an underscore alone. -/
theorem extent_identifier {c : Char} (hc : isIdentStart c = true)
    (hs : ∀ d ∈ s, isIdentChar d = true) (hr : identLength r = 0)
    (lone : c = '_' → s = [] → r.head?.any isIdentChar = true)
    (kept : s.getLast? = some '_' → opensWindow r = false) :
    extent? c (s ++ r) = some (.ident, s.length) := by
  have starts : startsIdent c (s ++ r) = true := by
    unfold startsIdent
    by_cases under : c = '_'
    · cases s with
      | nil => simp [under, lone]
      | cons d s =>
        have hd : isIdentChar d = true := hs d (by simp)
        simp [under, hd]
    · simpa [isIdentStart, isLetter, under] using hc
  rw [extent?, if_pos starts, identLength_append_of_stop hs hr kept]

/-- An identifier is one token, unless it gives up its last underscore or is an underscore alone. -/
theorem scanFrom_identifier {name : String} (valid : isIdentifier name = true)
    (hr : identLength r = 0) (lone : name = "_" → r.head?.any isIdentChar = true)
    (kept : name.toList.getLast? = some '_' → opensWindow r = false) {offset : Nat}
    {ts : List Token} (h : scanFrom (offset + name.length) r = .ok ts) :
    scanFrom offset (name.toList ++ r) = .ok (⟨.ident, name, offset⟩ :: ts) := by
  have chars := isIdentChar_of_identifier valid
  obtain ⟨-, c, s, hs, hc⟩ := isWord_of_identifier valid
  have hname : name = String.ofList (c :: s) := by rw [← hs, String.ofList_toList]
  have length : name.length = s.length + 1 := by
    rw [← String.length_toList, hs, List.length_cons]
  rw [hs] at kept chars ⊢
  obtain ⟨hchar, chars⟩ := List.forall_mem_cons.1 chars
  have he : extent? c (s ++ r) = some (.ident, s.length) := by
    refine extent_identifier hc chars hr (fun under alone => lone ?_) fun last => kept ?_
    · rw [hname, under, alone]
    · rw [List.getLast?_cons, last]
      rfl
  have token : scanFrom offset (c :: (s ++ r)) = _ :=
    scanFrom_cons (not_blank_of_isIdentChar hchar) he (by rwa [List.drop_left, ← length])
  rwa [List.take_left, ← hname] at token

/-- An identifier that does not end in an underscore is one word. -/
theorem Splits.identifier {name : String} (hid : isIdentifier name = true)
    (hlast : name.toList.getLast? ≠ some '_') (hr : Ended r) (h : Splits r ws) :
    Splits (name.toList ++ r) ((.ident, name) :: ws) := by
  intro offset
  obtain ⟨ts, hts, rfl⟩ := h (offset + name.length)
  have lone : name ≠ "_" := by
    rintro rfl
    exact hlast rfl
  exact ⟨_, scanFrom_identifier hid (identLength_of_ended hr) (fun under => absurd under lone)
    (fun last => absurd last hlast) hts, rfl⟩

theorem numberLength_of_stop (hs : ∀ c ∈ s, isNumeric c = true)
    (hr : ∀ c ∈ r.head?, isNumeric c = false) : numberLength (s ++ r) = s.length := by
  induction s with
  | nil =>
    cases r with
    | nil => rfl
    | cons c r =>
      rw [List.nil_append, numberLength, hr c rfl]
      rfl
  | cons c s ih =>
    obtain ⟨hc, hs⟩ := List.forall_mem_cons.1 hs
    rw [List.cons_append, numberLength, hc, ih hs]
    rfl

theorem toNat_of_isNumeric {c : Char} (h : isNumeric c = true) :
    46 ≤ c.toNat ∧ c.toNat < 58 := by
  simp only [isNumeric, Bool.or_eq_true, Bool.and_eq_true, decide_eq_true_eq, char_le_iff,
    Char.reduceToNat] at h
  rcases h with h | rfl
  · omega
  · decide

theorem not_blank_of_isNumeric {c : Char} (h : isNumeric c = true) : isBlank c = false := by
  have := toNat_of_isNumeric h
  unfold isBlank
  grind

/-- A number is continued by all of its characters if something else stands behind it. -/
theorem extent_number {c : Char} (hs : ∀ d ∈ c :: s, isNumeric d = true)
    (hr : ∀ c ∈ r.head?, isNumeric c = false) :
    extent? c (s ++ r) = some (.number, s.length) := by
  obtain ⟨hc, hs⟩ := List.forall_mem_cons.1 hs
  have code := toNat_of_isNumeric hc
  have starts : startsIdent c (s ++ r) = false := by
    have : c ≠ '_' := by
      rintro rfl
      simp at code
    simp only [startsIdent, isLetter, char_le_iff, Char.reduceToNat]
    grind
  rw [extent?, if_neg (by rw [starts]; decide), if_pos hc, numberLength_of_stop hs hr]

/-- A number is one word if something else stands behind it. -/
theorem Splits.number {c : Char} (hs : ∀ d ∈ c :: s, isNumeric d = true)
    (hr : ∀ c ∈ r.head?, isNumeric c = false) (h : Splits r ws) :
    Splits (c :: (s ++ r)) ((.number, String.ofList (c :: s)) :: ws) := by
  have hb := not_blank_of_isNumeric (hs c (by simp))
  have := Splits.cons hb (extent_number hs hr) (by rwa [List.drop_left])
  rwa [List.take_left] at this

end Token

/-! ## Numbers -/

namespace Rational

theorem toList_text_nat (n : Nat) : (text n).toList = Nat.toDigits 10 n := by
  have : text n = n.repr := by
    rw [text, if_pos (by simp)]
    rfl
  rw [this, Nat.toList_repr]

theorem isDigit_of_mem_text_nat {n : Nat} {c : Char} (h : c ∈ (text n).toList) :
    c.isDigit = true := by
  rw [toList_text_nat] at h
  exact Nat.isDigit_of_mem_toDigits (by decide) (by decide) h

theorem Digits.read_digit {c : Char} (hc : c.isDigit = true) (d : Digits) (cs : List Char) :
    Digits.read 10 true d (c :: cs) = Digits.read 10 true { d with
      value := 10 * d.value + (c.toNat - '0'.toNat), count := d.count + 1, last := .digit } cs := by
  have digit := bounds_of_isDigit hc
  have value : digitValue c = c.toNat - '0'.toNat := if_pos digit
  have small : digitValue c < 10 := by
    have : c.toNat ≤ '9'.toNat := digit.2
    simp only [Char.reduceToNat] at this value
    omega
  have other : c ≠ '.' ∧ c ≠ '_' := by constructor <;> (rintro rfl; cases hc)
  rw [Digits.read, if_neg (by simp [other]), if_neg other.2, if_pos small, value,
    Nat.mul_comm d.value]

/-- Decimal digits are read to their end. -/
theorem Digits.read_digits {cs : List Char} (hcs : ∀ c ∈ cs, c.isDigit = true) (d : Digits)
    (hd : d.last = .digit) : Digits.read 10 true d cs =
      ({ d with value := Nat.ofDigitChars 10 cs d.value, count := d.count + cs.length }, []) := by
  induction cs generalizing d with
  | nil => simp [Digits.read]
  | cons c cs ih =>
    obtain ⟨hc, hcs⟩ := List.forall_mem_cons.1 hcs
    rw [Digits.read_digit hc, ih hcs _ rfl, Nat.ofDigitChars_cons, hd, List.length_cons,
      Nat.add_comm cs.length, ← Nat.add_assoc]

theorem readNumber?_digits {cs : List Char} (hne : cs ≠ []) (hcs : ∀ c ∈ cs, c.isDigit = true) :
    readNumber? cs = some ⟨Nat.ofDigitChars 10 cs 0, 10, 0, []⟩ := by
  have mark {c : Char} {cs' : List Char} (h : cs = '0' :: c :: cs') : c.isDigit = true :=
    hcs c (by simp [h])
  unfold readNumber?
  split
  · next rest =>
    have hrest : ∀ c ∈ rest, c.isDigit = true := fun c hc => hcs c (by simp [hc])
    split
    iterate 6 cases mark rfl
    rw [Digits.read_digits hrest _ rfl]
    simp [Unsigned.ofDigits?, Digits.wellSeparated, Digits.afterPoint, Nat.ofDigitChars_cons]
  · obtain ⟨c, rest, rfl⟩ := List.exists_cons_of_ne_nil hne
    obtain ⟨hc, hrest⟩ := List.forall_mem_cons.1 hcs
    rw [Digits.read_digit hc, Digits.read_digits hrest _ rfl]
    simp [Unsigned.ofDigits?, Digits.wellSeparated, Digits.afterPoint, Nat.ofDigitChars_cons]

/-- A natural number is read back from its text. -/
theorem ofText?_text (n : Nat) : ofText? (text n) = some (n : Rat) := by
  have digits : ∀ c ∈ (text n).toList, c.isDigit = true := fun c => isDigit_of_mem_text_nat
  have bar : '/' ∉ (text n).toList := fun h => by cases digits _ h
  obtain ⟨c, cs, hcs⟩ := List.exists_cons_of_ne_nil (text_ne_nil n)
  have sign : readSign (text n).toList = (false, (text n).toList) := by
    have := digits c (by simp [hcs])
    rw [hcs]
    unfold readSign
    split
    · next h => cases (List.cons.inj h).1; cases this
    · next h => cases (List.cons.inj h).1; cases this
    · rfl
  have value : Nat.ofDigitChars 10 (text n).toList 0 = n := by
    rw [toList_text_nat, Nat.ofDigitChars_ten_toDigits]
  rw [ofText?, ofChars?, if_neg bar, ofNumber?, sign]
  dsimp only
  rw [readNumber?_digits (text_ne_nil n) digits, value]
  have one (base : Nat) : power base 0 = 1 := by
    simp [power, Rat.mkRat_eq_div]
  rcases Nat.eq_zero_or_pos n with rfl | hn
  · rfl
  · simp [readExponent?, pointWeight, signed, one, hn.ne']

end Rational

namespace Token

variable {r : List Char} {ws : List (TokenKind × String)}

theorem isNumeric_of_isDigit {c : Char} (h : c.isDigit = true) : isNumeric c = true := by
  simp [isNumeric, bounds_of_isDigit h]

theorem Splits.natural {n : Nat} (hr : ∀ c ∈ r.head?, isNumeric c = false) (h : Splits r ws) :
    Splits ((Rational.text n).toList ++ r) ((.number, Rational.text n) :: ws) := by
  obtain ⟨c, s, hs⟩ := List.exists_cons_of_ne_nil (Rational.text_ne_nil n)
  have text : Rational.text n = String.ofList (c :: s) := by rw [← hs, String.ofList_toList]
  rw [text, String.toList_ofList]
  refine Splits.number (fun d hd => ?_) hr h
  exact isNumeric_of_isDigit (Rational.isDigit_of_mem_text_nat (hs ▸ hd))

end Token

/-! ## Windows -/

/-- A window with natural numbers for ends, as it is written. -/
structure Window.Whole (w : Window) : Prop where
  lower : ∃ n : Nat, w.lo = some (n : Rat)
  upper : ∀ q, w.hi = some q → w.lower ≤ q ∧ ∃ n : Nat, q = n
  unbounded : w.hi = none → w.rightOpen = true

namespace Window

open Token

variable {w : Window} {r : List Char} {ws : List (TokenKind × String)}

def upperWords (w : Window) : List (TokenKind × String) :=
  [match w.hi with
    | none => (.ident, "inf")
    | some hi => (.number, Rational.text hi),
    (.symbol, if w.rightOpen then ")" else "]")]

def words (w : Window) : List (TokenKind × String) :=
  (.symbol, "_") :: (.symbol, if w.leftOpen then "(" else "[") ::
    (.number, Rational.text w.lower) :: (.symbol, ",") :: w.upperWords

theorem Whole.exists_lower (hw : w.Whole) : ∃ n : Nat, w.lower = n := by
  obtain ⟨n, hn⟩ := hw.lower
  exact ⟨n, by rw [Window.lower, hn]; rfl⟩

theorem Whole.rebuilt (hw : w.Whole) {q : Rat} (h : w.lower = q) :
    (⟨some q, w.hi, w.leftOpen, w.rightOpen || w.hi.isNone⟩ : Window) = w := by
  obtain ⟨n, hn⟩ := hw.lower
  obtain ⟨lo, hi, leftOpen, rightOpen⟩ := w
  obtain rfl : lo = some (n : Rat) := hn
  obtain rfl : (n : Rat) = q := h
  cases hi with
  | none => simp [show rightOpen = true from hw.unbounded rfl]
  | some hi => simp

theorem extent_bracket {c : Char} {cs : List Char} (hc : c ≠ ']') :
    extent? '[' (c :: cs) = some (.symbol, 0) := by
  have find : (symbols.find? fun s => s.toList.isPrefixOf ('[' :: c :: cs)) = some "[" := by
    have : (']' == c) = false := by simpa using hc.symm
    simp [symbols, List.find?, List.isPrefixOf, this]
  rw [extent?, if_neg (by simp [startsIdent, isLetter]), if_neg (by decide), find]
  rfl

theorem splits_closing (right : Bool) (h : Splits r ws) :
    Splits ((if right then ')' else ']') :: r) ((.symbol, if right then ")" else "]") :: ws) := by
  cases right
  · exact .symbol rfl rfl h
  · exact .symbol rfl rfl h

/-- A window is split at its brackets and its comma. -/
theorem Whole.splits (hw : w.Whole) (h : Splits r ws) :
    Splits ('_' :: (w.text.toList ++ r)) (w.words ++ ws) := by
  obtain ⟨n, hn⟩ := hw.exists_lower
  have closing := splits_closing w.rightOpen h
  have upper : Splits (w.upperText ++ r) (w.upperWords ++ ws) := by
    unfold upperText upperWords
    cases hhi : w.hi with
    | none =>
      rw [hw.unbounded hhi] at closing ⊢
      exact .cons (n := 2) rfl rfl closing
    | some q =>
      obtain ⟨-, m, rfl⟩ := hw.upper q hhi
      have bracket : ∀ c ∈ ((if w.rightOpen then ')' else ']') :: r).head?,
          isNumeric c = false := by
        rintro c ⟨⟩
        cases w.rightOpen <;> rfl
      have := Splits.natural (n := m) bracket closing
      simpa using this
  have comma : Splits (',' :: (w.upperText ++ r)) ((.symbol, ",") :: (w.upperWords ++ ws)) :=
    .symbol rfl rfl upper
  have lower := Splits.natural (n := n) (by rintro c ⟨⟩; rfl) comma
  obtain ⟨d, s, hs⟩ := List.exists_cons_of_ne_nil (Rational.text_ne_nil n)
  have hd : d ≠ ']' := by
    have := Rational.isDigit_of_mem_text_nat (n := n) (c := d) (by simp [hs])
    rintro rfl
    cases this
  rw [toList_text, words, hn]
  cases w.leftOpen
  · refine .symbol rfl rfl (.symbol rfl ?_ (by simpa using lower))
    simp [hs, extent_bracket hd]
  · exact .symbol rfl rfl (.symbol rfl rfl (by simpa using lower))

theorem Whole.isAscii (hw : w.Whole) : IsAscii w.text.toList := by
  have natural (n : Nat) : IsAscii (Rational.text n).toList := by
    intro c hc
    have := toNat_of_isNumeric (isNumeric_of_isDigit (Rational.isDigit_of_mem_text_nat hc))
    omega
  have upper : IsAscii w.upperText := by
    unfold upperText
    cases hhi : w.hi with
    | none => simp
    | some q =>
      obtain ⟨-, m, rfl⟩ := hw.upper q hhi
      cases w.rightOpen <;> simp [natural]
  obtain ⟨n, hn⟩ := hw.exists_lower
  rw [toList_text, hn]
  cases w.leftOpen <;> simp [natural, upper]

end Window

namespace Parser

open Token

variable {cx : Context} {t : Token} {rest : List Token} {w : Window}

theorem opening_word {leftOpen : Bool}
    (ht : t.word = (.symbol, if leftOpen then "(" else "[")) :
    ∃ hlt, opening cx (t :: rest) = .ok ⟨leftOpen, rest, hlt⟩ := by
  have text : t.text = if leftOpen then "(" else "[" := congrArg Prod.snd ht
  refine ⟨by simp, ?_⟩
  cases leftOpen <;> simp [opening, text]

theorem closing_word {rightOpen : Bool}
    (ht : t.word = (.symbol, if rightOpen then ")" else "]")) :
    ∃ hlt, closing cx (t :: rest) = .ok ⟨rightOpen, rest, hlt⟩ := by
  have text : t.text = if rightOpen then ")" else "]" := congrArg Prod.snd ht
  refine ⟨by simp, ?_⟩
  cases rightOpen <;> simp [closing, text]

theorem lowerBound_word {n : Nat} (ht : t.word = (.number, Rational.text n)) :
    ∃ hlt, lowerBound cx (t :: rest) = .ok ⟨n, rest, hlt⟩ := by
  obtain ⟨kind, text⟩ := Prod.mk.inj ht
  refine ⟨by simp, ?_⟩
  rw [lowerBound, if_pos kind, numeral, text, Rational.ofText?_text]
  rfl

theorem upperBound_word (hw : w.Whole)
    (ht : t.word = match w.hi with
      | none => (.ident, "inf")
      | some hi => (.number, Rational.text hi)) :
    ∃ hlt, upperBound cx (t :: rest) = .ok ⟨w.hi, rest, hlt⟩ := by
  refine ⟨by simp, ?_⟩
  cases hhi : w.hi with
  | none =>
    rw [hhi] at ht
    rw [upperBound, if_pos (Prod.mk.inj ht)]
  | some q =>
    obtain ⟨-, n, rfl⟩ := hw.upper q hhi
    rw [hhi] at ht
    obtain ⟨kind, text⟩ := Prod.mk.inj ht
    rw [upperBound, if_neg (by simp [kind]), if_pos kind, numeral, text, Rational.ofText?_text]
    rfl

/-- A window is read back from its words. -/
theorem window_words (hw : w.Whole) {ts : List Token} (hts : ts.map word = w.words) :
    ∃ hlt, window cx (ts ++ rest) = .ok ⟨w, rest, hlt⟩ := by
  obtain ⟨n, hn⟩ := hw.exists_lower
  obtain ⟨under, _, rfl, hunder, h⟩ := List.map_eq_cons_iff.1 hts
  obtain ⟨bracket, _, rfl, hbracket, h⟩ := List.map_eq_cons_iff.1 h
  obtain ⟨lower, _, rfl, hlower, h⟩ := List.map_eq_cons_iff.1 h
  obtain ⟨comma, _, rfl, hcomma, h⟩ := List.map_eq_cons_iff.1 h
  obtain ⟨upper, _, rfl, hupper, h⟩ := List.map_eq_cons_iff.1 h
  obtain ⟨bracket', _, rfl, hbracket', h⟩ := List.map_eq_cons_iff.1 h
  obtain rfl := List.map_eq_nil_iff.1 h
  obtain ⟨-, under⟩ := Prod.mk.inj hunder
  obtain ⟨-, comma⟩ := Prod.mk.inj hcomma
  rw [hn] at hlower
  obtain ⟨_, hopening⟩ := opening_word hbracket
  obtain ⟨_, hlowerBound⟩ := lowerBound_word hlower
  obtain ⟨_, hupperBound⟩ := upperBound_word hw hupper
  obtain ⟨_, hclosing⟩ := closing_word hbracket'
  refine ⟨by simp; omega, ?_⟩
  simp only [List.cons_append, List.nil_append]
  rw [window, if_pos under, hopening]
  dsimp only [Attempt.bind_ok]
  rw [hlowerBound]
  dsimp only [Attempt.bind_ok]
  rw [expect, if_pos comma]
  dsimp only [Attempt.bind_ok]
  rw [hupperBound]
  dsimp only [Attempt.bind_ok]
  rw [hclosing]
  dsimp only [Attempt.bind_ok]
  have same : (⟨some n, w.hi, w.leftOpen, w.rightOpen || w.hi.isNone⟩ : Window) = w :=
    hw.rebuilt hn
  rw [same]
  split
  · rfl
  · next hi hhi =>
    obtain ⟨le, -⟩ := hw.upper hi hhi
    rw [if_neg (not_lt.2 (hn ▸ le))]
    rfl

end Parser

/-! ## Formulas -/

namespace Formula

open Token

variable {R : String → Prop} {r : List Char} {ws : List (TokenKind × String)}

def enclosed (ws : List (TokenKind × String)) : List (TokenKind × String) :=
  (.symbol, "(") :: (ws ++ [(.symbol, ")")])

mutual

def words : Formula → List (TokenKind × String)
  | bool b => [(.ident, if b then "true" else "false")]
  | prop name => [(.ident, name)]
  | not f => (.symbol, "~") :: words f
  | and fs => enclosed (behind "&" fs).tail
  | or fs => enclosed (behind "|" fs).tail
  | implies l r => enclosed (words l ++ (.symbol, "->") :: words r)
  | eventually w f => enclosed ((.symbol, "<>") :: (w.words ++ words f))
  | always w f => enclosed ((.symbol, "[]") :: (w.words ++ words f))
  | untl w l r => enclosed (words l ++ (.ident, "U") :: (w.words ++ words r))
  | release w l r => enclosed (words l ++ (.ident, "R") :: (w.words ++ words r))
  | atom _ | witness _ | missing => []

/-- The words of several formulas, each behind the given symbol. -/
def behind (op : String) : List Formula → List (TokenKind × String)
  | [] => []
  | f :: fs => (.symbol, op) :: (words f ++ behind op fs)

end

/-- A formula of constants and propositions whose conjunctions and disjunctions have at least two
parts and whose windows have natural numbers for ends. -/
inductive Propositional (R : String → Prop) : Formula → Prop where
  | bool (b : Bool) : Propositional R (.bool b)
  | prop {name : String} (named : R name) : Propositional R (.prop name)
  | not {f : Formula} (arg : Propositional R f) : Propositional R (.not f)
  | and {fs : List Formula} (two : 2 ≤ fs.length) (args : ∀ f ∈ fs, Propositional R f) :
      Propositional R (.and fs)
  | or {fs : List Formula} (two : 2 ≤ fs.length) (args : ∀ f ∈ fs, Propositional R f) :
      Propositional R (.or fs)
  | implies {l r : Formula} (left : Propositional R l) (right : Propositional R r) :
      Propositional R (.implies l r)
  | eventually {w : Window} {f : Formula} (whole : w.Whole) (arg : Propositional R f) :
      Propositional R (.eventually w f)
  | always {w : Window} {f : Formula} (whole : w.Whole) (arg : Propositional R f) :
      Propositional R (.always w f)
  | untl {w : Window} {l r : Formula} (whole : w.Whole) (left : Propositional R l)
      (right : Propositional R r) : Propositional R (.untl w l r)
  | release {w : Window} {l r : Formula} (whole : w.Whole) (left : Propositional R l)
      (right : Propositional R r) : Propositional R (.release w l r)

/-- A text is split into words if something stands behind it that ends a word. -/
def Segment (s : List Char) (vs : List (TokenKind × String)) : Prop :=
  ∀ (r : List Char) (ws : List (TokenKind × String)), Ended r → Splits r ws →
    Splits (s ++ r) (vs ++ ws)

section

variable {s t : List Char} {us vs : List (TokenKind × String)}

theorem Segment.append (hs : Segment s vs) (ht : Segment t us)
    (ended : ∀ r, Ended r → Ended (t ++ r)) : Segment (s ++ t) (vs ++ us) := by
  intro r ws hr h
  rw [List.append_assoc, List.append_assoc]
  exact hs _ _ (ended r hr) (ht r ws hr h)

theorem Segment.enclosed (hs : Segment s vs) : Segment ('(' :: (s ++ [')'])) (enclosed vs) := by
  intro r ws hr h
  have inner := hs _ _ (Term.ended_paren r) (.symbol rfl rfl h)
  have := Splits.symbol (c := '(') rfl rfl inner
  simpa [Formula.enclosed] using this

/-- Two segments with an operator between them, which has a blank in front of it. -/
theorem Segment.followed (hs : Segment s vs) (ht : Segment (' ' :: t) us) :
    Segment (s ++ ' ' :: t) (vs ++ us) :=
  hs.append ht fun r _ => Term.ended_blank (t ++ r)

theorem Segment.windowed (hs : Segment s vs) {w : Window} (hw : w.Whole) :
    Segment ('_' :: (w.text.toList ++ ' ' :: s)) (w.words ++ vs) := by
  intro r ws hr h
  have := hw.splits (hs r ws hr h).blank
  simpa using this

/-- A binary temporal operator with its window. -/
theorem Segment.operator (hs : Segment s vs) {w : Window} (hw : w.Whole) {c : Char}
    (hc : c = 'U' ∨ c = 'R') : Segment (' ' :: c :: '_' :: (w.text.toList ++ ' ' :: s))
      ((.ident, String.singleton c) :: (w.words ++ vs)) := by
  intro r ws hr h
  have he : extent? c ('_' :: (w.text.toList ++ ' ' :: (s ++ r))) = some (.ident, 0) := by
    rw [Window.toList_text]
    rcases hc with rfl | rfl <;> cases w.leftOpen <;> rfl
  have hb : isBlank c = false := by rcases hc with rfl | rfl <;> rfl
  have window := hs.windowed hw r ws hr h
  have := (Splits.cons hb he (by simpa using window)).blank
  simpa using this

end

theorem segment_joined {op : Char} {sep : String} (hsep : sep.toList = [' ', op, ' '])
    (hb : isBlank op = false) (he : ∀ s, extent? op (' ' :: s) = some (.symbol, 0))
    {fs : List Formula} (ih : ∀ f ∈ fs, Segment f.text.toList f.words) :
    Segment (joined sep fs) (behind (String.singleton op) fs) := by
  induction fs with
  | nil => exact fun r ws _ h => h
  | cons f fs ihs =>
    intro r ws hr h
    have later := ihs (fun f hf => ih f (by simp [hf])) r ws hr h
    have first := ih f (by simp) _ _ (ended_joined ⟨_, hsep⟩ hr fs) later
    rw [joined, behind, hsep]
    simpa using (Splits.symbol hb (he _) first.blank).blank

def IsWordName (name : String) : Prop :=
  isIdentifier name = true ∧ name.toList.getLast? ≠ some '_'

theorem IsWordName.segment {name : String} (h : IsWordName name) :
    Segment name.toList [(.ident, name)] :=
  fun _ _ hr rest => Splits.identifier h.1 h.2 hr rest

theorem isWordName_truth (b : Bool) : IsWordName (if b then "true" else "false") := by
  unfold IsWordName
  revert b
  decide

theorem segment_chain (op : Char) {sep : String} (hsep : sep.toList = [' ', op, ' '])
    (hb : isBlank op = false) (he : ∀ s, extent? op (' ' :: s) = some (.symbol, 0))
    {f : Formula} {fs : List Formula} (ih : ∀ g ∈ f :: fs, Segment g.text.toList g.words) :
    Segment ('(' :: (f.text.toList ++ (joined sep fs ++ [')'])))
      (enclosed (behind (String.singleton op) (f :: fs)).tail) := by
  have later := segment_joined hsep hb he fun g hg => ih g (List.mem_cons_of_mem f hg)
  have := (ih f (by simp)).append later fun r hr => ended_joined ⟨_, hsep⟩ hr fs
  simpa [behind] using this.enclosed

/-- The text of a formula is split into its words. -/
theorem Propositional.segment (hR : ∀ name, R name → IsWordName name) {f : Formula}
    (hf : f.Propositional R) : Segment f.text.toList f.words := by
  induction hf with
  | bool b => exact (isWordName_truth b).segment
  | prop named => exact (hR _ named).segment
  | not arg ih =>
    intro r ws hr h
    rw [text_not]
    exact .symbol rfl rfl (ih r ws hr h)
  | @and fs two args ih =>
    obtain _ | ⟨f, fs⟩ := fs
    · simp at two
    rw [text_and]
    exact segment_chain '&' rfl rfl (fun _ => rfl) ih
  | @or fs two args ih =>
    obtain _ | ⟨f, fs⟩ := fs
    · simp at two
    rw [text_or]
    exact segment_chain '|' rfl rfl (fun _ => rfl) ih
  | @implies l r left right ihl ihr =>
    have arrow : Segment (' ' :: '-' :: '>' :: ' ' :: r.text.toList)
        ((.symbol, "->") :: r.words) := fun s ws hs h => by
      refine Splits.blank ?_
      exact .cons (n := 1) rfl rfl (ihr s ws hs h).blank
    rw [text_implies, words]
    simpa using (ihl.followed arrow).enclosed
  | @eventually w f whole arg ih =>
    have inner : Segment ('<' :: '>' :: '_' :: (w.text.toList ++ ' ' :: f.text.toList))
        ((.symbol, "<>") :: (w.words ++ f.words)) := fun s ws hs h =>
      .cons (n := 1) rfl rfl (ih.windowed whole s ws hs h)
    rw [text_eventually, words]
    simpa using inner.enclosed
  | @always w f whole arg ih =>
    have inner : Segment ('[' :: ']' :: '_' :: (w.text.toList ++ ' ' :: f.text.toList))
        ((.symbol, "[]") :: (w.words ++ f.words)) := fun s ws hs h =>
      .cons (n := 1) rfl rfl (ih.windowed whole s ws hs h)
    rw [text_always, words]
    simpa using inner.enclosed
  | @untl w l r whole left right ihl ihr =>
    rw [text_untl, words]
    simpa using (ihl.followed (ihr.operator whole (Or.inl rfl))).enclosed
  | @release w l r whole left right ihl ihr =>
    rw [text_release, words]
    simpa using (ihl.followed (ihr.operator whole (Or.inr rfl))).enclosed

theorem isAscii_joined {sep : String} (hsep : IsAscii sep.toList) {fs : List Formula}
    (h : ∀ f ∈ fs, IsAscii f.text.toList) : IsAscii (joined sep fs) := by
  induction fs with
  | nil => exact isAscii_nil
  | cons f fs ih =>
    rw [joined, isAscii_append, isAscii_append]
    exact ⟨hsep, h f (by simp), ih fun f hf => h f (by simp [hf])⟩

/-- The text of a formula consists of letters, digits and signs. -/
theorem Propositional.isAscii (hR : ∀ name, R name → IsWordName name) {f : Formula}
    (hf : f.Propositional R) : IsAscii f.text.toList := by
  induction hf with
  | bool b => exact isAscii_identifier (isWordName_truth b).1
  | prop named => exact isAscii_identifier (hR _ named).1
  | not arg ih => simp [text_not, ih]
  | @and fs two args ih =>
    obtain _ | ⟨f, fs⟩ := fs
    · simp at two
    have later : IsAscii (joined " & " fs) :=
      isAscii_joined (by simp) fun f hf => ih f (by simp [hf])
    simp [text_and, ih, later]
  | @or fs two args ih =>
    obtain _ | ⟨f, fs⟩ := fs
    · simp at two
    have later : IsAscii (joined " | " fs) :=
      isAscii_joined (by simp) fun f hf => ih f (by simp [hf])
    simp [text_or, ih, later]
  | implies left right ihl ihr => simp [text_implies, ihl, ihr]
  | eventually whole arg ih => simp [text_eventually, ih, whole.isAscii]
  | always whole arg ih => simp [text_always, ih, whole.isAscii]
  | untl whole left right ihl ihr => simp [text_untl, ihl, ihr, whole.isAscii]
  | release whole left right ihl ihr => simp [text_release, ihl, ihr, whole.isAscii]

/-- Formula text is split into the words of the formula. -/
theorem Propositional.scan (hR : ∀ name, R name → IsWordName name) {f : Formula}
    (hf : f.Propositional R) : byteChars f.text = f.text.toList ∧
      ∃ ts, Token.scan f.text.toList = .ok ts ∧ ts.map word = f.words := by
  refine ⟨byteChars_of_ascii (hf.isAscii hR), ?_⟩
  have := hf.segment hR [] [] (by simp [Ended]) .nil 0
  rwa [List.append_nil, List.append_nil] at this

end Formula

end HybridCheck
