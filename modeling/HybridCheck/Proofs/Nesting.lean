import HybridCheck.Proofs.Reading

/-!
# Parentheses in formula text

What the reader makes of a token depends on its class and its text only. Closing parentheses behind
a text leave its tokens as they are: the only token that looks at the next character is an
identifier that may give up a final underscore, and a text that ends in an underscore is not read
anyway.

The tokens that are read nest: up to a comma there are never more closing than opening parentheses
from the left, and never more opening than closing ones from the right. Between the ends of a window
there is always a comma, which keeps its brackets from being taken for parentheses.
-/

namespace HybridCheck

/-! ## Bytes -/

theorem toList_loop (bs : ByteArray) (i : Nat) (r : List UInt8) :
    ByteArray.toList.loop bs i r = r.reverse ++ bs.data.toList.drop i := by
  induction i, r using ByteArray.toList.loop.induct bs with
  | case1 i r h ih =>
    have hi : i < bs.data.toList.length := h
    have hget : bs.get! i = bs.data.toList[i] := by
      rw [ByteArray.get!, getElem!_pos bs.data i h]
      rfl
    rw [ByteArray.toList.loop, if_pos h, ih, hget, List.drop_eq_getElem_cons hi]
    simp
  | case2 i r h =>
    rw [ByteArray.toList.loop, if_neg h, List.drop_eq_nil_of_le, List.append_nil]
    exact Nat.le_of_not_lt h

theorem byteChars_append (s t : String) : byteChars (s ++ t) = byteChars s ++ byteChars t := by
  have bytes (bs : ByteArray) : bs.toList = bs.data.toList := toList_loop bs 0 []
  simp [byteChars, bytes]

namespace Token

/-! ## Texts of tokens -/

/-- Identifiers and numbers do not begin like a symbol. -/
def Worded (t : Token) : Prop :=
  t.kind ≠ .symbol → ∃ c ∈ t.text.toList.head?, (isIdentChar c || c == '.') = true

theorem Worded.isSymbol {t : Token} (h : t.Worded)
    (ht : t.text.toList.head?.all (fun c => !(isIdentChar c || c == '.')) = true) :
    t.kind = .symbol := by
  by_contra hk
  obtain ⟨c, hc, hword⟩ := h hk
  rw [Option.mem_def.1 hc, Option.all_some, hword] at ht
  cases ht

theorem isIdentChar_of_startsIdent {c : Char} {cs : List Char} (h : startsIdent c cs = true) :
    isIdentChar c = true := by
  unfold startsIdent isLetter at h
  unfold isIdentChar isIdentStart
  grind

theorem isIdentChar_of_isNumeric {c : Char} (h : isNumeric c = true) :
    (isIdentChar c || c == '.') = true := by
  unfold isNumeric at h
  unfold isIdentChar
  grind

theorem worded_of_extent {c : Char} {cs : List Char} {kind : TokenKind} {n offset : Nat}
    (h : extent? c cs = some (kind, n)) :
    Worded ⟨kind, String.ofList (c :: cs.take n), offset⟩ := by
  intro hk
  refine ⟨c, by simp, ?_⟩
  unfold extent? at h
  split at h
  · next hc => rw [isIdentChar_of_startsIdent hc, Bool.true_or]
  · split at h
    · next hc => exact isIdentChar_of_isNumeric hc
    · obtain ⟨s, -, h⟩ := Option.map_eq_some_iff.1 h
      cases h
      exact absurd rfl hk

theorem worded_of_scanFrom {cs : List Char} {offset : Nat} {ts : List Token}
    (h : scanFrom offset cs = .ok ts) : ∀ t ∈ ts, t.Worded :=
  forall_of_scanFrom (fun _ _ _ _ _ => worded_of_extent) h

/-! ## Closing parentheses behind a text -/

/-- The same tokens, but for their places, and `n` closing parentheses behind them. -/
inductive Followed : Nat → List Token → List Token → Prop
  | done : Followed 0 [] []
  | close {n : Nat} {c : Token} {cs : List Token} (kind : c.kind = .symbol) (text : c.text = ")")
      (rest : Followed n [] cs) : Followed (n + 1) [] (c :: cs)
  | step {n : Nat} {t u : Token} {ts us : List Token} (kind : u.kind = t.kind)
      (text : u.text = t.text) (rest : Followed n ts us) : Followed n (t :: ts) (u :: us)

theorem Followed.refl (ts : List Token) : Followed 0 ts ts := by
  induction ts with
  | nil => exact .done
  | cons t ts ih => exact .step rfl rfl ih

/-- What may stand behind a text: nothing, or a closing parenthesis first. -/
abbrev Closes (r : List Char) : Prop := ∀ c ∈ r.head?, c = ')'

theorem identLength_append {r : List Char} (hr : Closes r) (cs : List Char) :
    identLength (cs ++ r) = identLength cs ∨ cs.drop (identLength cs) = ['_'] := by
  induction cs with
  | nil =>
    cases r with
    | nil => exact Or.inl rfl
    | cons c r =>
      obtain rfl := hr c rfl
      exact Or.inl rfl
  | cons c cs ih =>
    rw [List.cons_append, identLength, identLength]
    by_cases hlast : c = '_' ∧ cs = []
    · obtain ⟨rfl, rfl⟩ := hlast
      exact Or.inr rfl
    · have same : (decide (c = '_') && opensWindow (cs ++ r)) =
          (decide (c = '_') && opensWindow cs) := by
        cases cs with
        | nil => simp_all
        | cons => rfl
      rw [same]
      split
      · simpa using ih
      · exact Or.inl rfl

theorem numberLength_append {r : List Char} (hr : Closes r) (cs : List Char) :
    numberLength (cs ++ r) = numberLength cs := by
  induction cs with
  | nil =>
    cases r with
    | nil => rfl
    | cons c r =>
      obtain rfl := hr c rfl
      rfl
  | cons c cs ih => rw [List.cons_append, numberLength, numberLength, ih]

theorem identLength_le (cs : List Char) : identLength cs ≤ cs.length := by
  induction cs with
  | nil => exact le_rfl
  | cons c cs ih =>
    rw [identLength, List.length_cons]
    split <;> omega

theorem numberLength_le (cs : List Char) : numberLength cs ≤ cs.length := by
  induction cs with
  | nil => exact le_rfl
  | cons c cs ih =>
    rw [numberLength, List.length_cons]
    split <;> omega

/-- No symbol goes on with a closing parenthesis. -/
theorem isPrefixOf_append {r : List Char} (hr : Closes r) {s : String} (hs : s ∈ symbols) (c : Char)
    (cs : List Char) : s.toList.isPrefixOf (c :: (cs ++ r)) = s.toList.isPrefixOf (c :: cs) := by
  have short : ∀ s ∈ symbols, s.toList.length ≤ 2 ∧ ')' ∉ s.toList.tail := by decide
  obtain ⟨hlen, htail⟩ := short s hs
  rcases hs : s.toList with _ | ⟨a, _ | ⟨b, _ | _⟩⟩
  · rfl
  · rfl
  · cases cs with
    | cons => rfl
    | nil =>
      cases r with
      | nil => rfl
      | cons d r =>
        obtain rfl := hr d rfl
        have : b ≠ ')' := by
          rintro rfl
          simp [hs] at htail
        simp [List.isPrefixOf, this]
  · simp [hs] at hlen

/-- A token keeps its extent, or gives up an underscore at the end of the text. -/
theorem extent_append {r : List Char} (hr : Closes r) {c : Char} {cs : List Char}
    {kind : TokenKind} {n : Nat} (h : extent? c cs = some (kind, n)) :
    n ≤ cs.length ∧ (extent? c (cs ++ r) = some (kind, n) ∨ cs.drop n = ['_']) := by
  have hident : startsIdent c (cs ++ r) = startsIdent c cs := by
    cases cs with
    | cons => rfl
    | nil =>
      cases r with
      | nil => rfl
      | cons d r =>
        obtain rfl := hr d rfl
        rfl
  unfold extent? at h ⊢
  rw [hident]
  split at h
  · next hi =>
    cases h
    refine ⟨identLength_le cs, (identLength_append hr cs).imp (fun hl => ?_) id⟩
    rw [if_pos hi, hl]
  next hi =>
  rw [if_neg hi]
  split at h
  · next hnum =>
    cases h
    refine ⟨numberLength_le cs, Or.inl ?_⟩
    rw [if_pos hnum, numberLength_append hr]
  next hnum =>
  rw [if_neg hnum]
  obtain ⟨s, hs, h⟩ := Option.map_eq_some_iff.1 h
  cases h
  have hmem := List.mem_of_find?_eq_some hs
  have hprefix : s.toList <+: c :: cs :=
    List.isPrefixOf_iff_prefix.1 (by simpa using List.find?_some hs)
  constructor
  · have := hprefix.length_le
    simp only [String.length_toList, List.length_cons] at this
    omega
  · refine Or.inl ?_
    have same : (symbols.find? fun s => s.toList.isPrefixOf (c :: (cs ++ r))) = some s := by
      rw [← hs]
      exact List.find?_congr fun s hs => isPrefixOf_append hr hs c cs
    rw [same]
    rfl

theorem scanFrom_cons {c : Char} {cs : List Char} {kind : TokenKind} {n offset : Nat}
    {ts : List Token} (hb : isBlank c = false) (he : extent? c cs = some (kind, n))
    (h : scanFrom (offset + (n + 1)) (cs.drop n) = .ok ts) :
    scanFrom offset (c :: cs) = .ok (⟨kind, String.ofList (c :: cs.take n), offset⟩ :: ts) := by
  rw [scanFrom, if_neg (by rw [hb]; decide), he]
  exact Attempt.bind_eq_ok.2 ⟨ts, h, rfl⟩

def IsUnderscore (t : Token) : Prop := t.kind = .symbol ∧ t.text = "_"

/-- Closing parentheses behind a text leave its tokens as they are, unless the last of them is an
underscore. -/
theorem followed_of_scanFrom {n : Nat} {r : List Char} (hr : Closes r)
    (close : ∀ offset, ∃ us, scanFrom offset r = .ok us ∧ Followed n [] us) {cs : List Char}
    {offset : Nat} {ts : List Token} (h : scanFrom offset cs = .ok ts)
    (hlast : ∀ t ∈ ts.getLast?, ¬t.IsUnderscore) (offset' : Nat) :
    ∃ us, scanFrom offset' (cs ++ r) = .ok us ∧ Followed n ts us := by
  induction hn : cs.length using Nat.strongRecOn generalizing cs offset offset' ts with
  | ind k ih =>
    subst hn
    cases cs with
    | nil =>
      rw [scanFrom] at h
      cases h
      exact close offset'
    | cons c cs =>
      rw [scanFrom] at h
      rw [List.cons_append, scanFrom]
      split at h
      · next hb =>
        rw [if_pos hb]
        exact ih cs.length (by simp) h hlast _ rfl
      next hb =>
      rw [if_neg hb]
      split at h
      · cases h
      next kind m he =>
      obtain ⟨rest, hrest, h⟩ := Attempt.bind_eq_ok.1 h
      cases h
      obtain ⟨hm, he' | hunder⟩ := extent_append hr he
      · have later : ∀ t ∈ rest.getLast?, ¬t.IsUnderscore := by
          intro t ht
          refine hlast t ?_
          rw [List.getLast?_cons, Option.mem_def.1 ht]
          rfl
        obtain ⟨us, hus, hf⟩ := ih (cs.drop m).length (by
          simp only [List.length_cons, List.length_drop]
          omega) hrest later (offset' + (m + 1)) rfl
        rw [he']
        refine ⟨_, Attempt.bind_eq_ok.2 ⟨us, ?_, rfl⟩, .step rfl ?_ hf⟩
        · rwa [List.drop_append_of_le_length hm]
        · rw [List.take_append_of_le_length hm]
      · -- the underscore that was given up is a token of its own, the last one
        have lone : scanFrom (offset + (m + 1)) ['_'] = .ok [⟨.symbol, "_", offset + (m + 1)⟩] :=
          scanFrom_cons (n := 0) rfl rfl (by rw [List.drop_nil, scanFrom])
        rw [hunder, lone] at hrest
        cases hrest
        exact absurd ⟨rfl, rfl⟩ (hlast _ rfl)

theorem followed_closers (n offset : Nat) :
    ∃ us, scanFrom offset (List.replicate n ')') = .ok us ∧ Followed n [] us := by
  induction n generalizing offset with
  | zero => exact ⟨[], by rw [List.replicate_zero, scanFrom], .done⟩
  | succ n ih =>
    obtain ⟨us, hus, hf⟩ := ih (offset + 1)
    exact ⟨_, scanFrom_cons (n := 0) rfl rfl hus, .close rfl rfl hf⟩

theorem closes_replicate (n : Nat) : Closes (List.replicate n ')') := by
  cases n with
  | zero => simp [Closes]
  | succ n => simp [Closes, List.replicate_succ]

/-! ## Nested parentheses -/

def weight (t : Token) : Int :=
  if t.text = "(" then 1 else if t.text = ")" then -1 else 0

def depth (ts : List Token) : Int := (ts.map weight).sum

@[simp] theorem depth_nil : depth [] = 0 := rfl

@[simp] theorem depth_cons (t : Token) (ts : List Token) : depth (t :: ts) = t.weight + depth ts :=
  List.sum_cons

@[simp] theorem depth_append (ts us : List Token) : depth (ts ++ us) = depth ts + depth us := by
  simp [depth]

/-- No comma is among the tokens, so none of them stands before the upper end of a window. -/
abbrev NoComma (ts : List Token) : Prop := ∀ t ∈ ts, t.text ≠ ","

/-- Tokens that may be read on their own, in parentheses, or one after the other. -/
inductive Nested : List Token → Prop
  | nil : Nested []
  | token {t : Token} (weight : t.weight = 0) (word : ¬t.IsUnderscore) : Nested [t]
  | parens {o c : Token} {ts : List Token} (opening : o.text = "(") (closing : c.text = ")")
      (inner : Nested ts) : Nested (o :: (ts ++ [c]))
  | window {u o lo comma hi c : Token} (under : u.text = "_")
      (opening : o.text = "[" ∨ o.text = "(") (lower : lo.weight = 0) (between : comma.text = ",")
      (upper : hi.weight = 0) (closing : c.text = "]" ∨ c.text = ")") :
      Nested [u, o, lo, comma, hi, c]
  | append {ts us : List Token} (left : Nested ts) (right : Nested us) : Nested (ts ++ us)

/-- More parentheses are opened than closed at the end of the tokens. -/
def Overrun (ts : List Token) : Prop := ∃ bs, bs <:+ ts ∧ NoComma bs ∧ 0 < depth bs

theorem Overrun.append {ts : List Token} (h : Overrun ts) (as : List Token) :
    Overrun (as ++ ts) := by
  obtain ⟨bs, hbs, hc, hd⟩ := h
  exact ⟨bs, List.suffix_append_of_suffix hbs, hc, hd⟩

theorem weight_opening {t : Token} (h : t.text = "(") : t.weight = 1 := by simp [weight, h]

theorem weight_closing {t : Token} (h : t.text = ")") : t.weight = -1 := by simp [weight, h]

theorem noComma_append {as bs : List Token} : NoComma (as ++ bs) ↔ NoComma as ∧ NoComma bs := by
  simp [NoComma, or_imp, forall_and]

theorem prefix_append_cases {as ts us : List Token} (h : as <+: ts ++ us) :
    as <+: ts ∨ ∃ bs, as = ts ++ bs ∧ bs <+: us := by
  obtain ⟨cs, h⟩ := h
  rcases List.append_eq_append_iff.1 h with ⟨ds, hts, -⟩ | ⟨ds, has, hus⟩
  · exact Or.inl ⟨ds, hts.symm⟩
  · exact Or.inr ⟨ds, has, cs, hus.symm⟩

theorem suffix_append_cases {bs ts us : List Token} (h : bs <:+ ts ++ us) :
    bs <:+ us ∨ ∃ as, bs = as ++ us ∧ as <:+ ts := by
  obtain ⟨cs, h⟩ := h
  rcases List.append_eq_append_iff.1 h with ⟨ds, hts, hbs⟩ | ⟨ds, -, hus⟩
  · exact Or.inr ⟨ds, hbs, cs, hts.symm⟩
  · exact Or.inl ⟨ds, hus.symm⟩

/-- From the left there are never more closing than opening parentheses. -/
theorem Nested.depth_nonneg {ts : List Token} (h : Nested ts) {as : List Token} (has : as <+: ts)
    (hc : NoComma as) : 0 ≤ depth as := by
  induction h generalizing as with
  | nil =>
    obtain rfl := List.prefix_nil.1 has
    exact le_rfl
  | @token t hw =>
    rcases List.prefix_cons_iff.1 has with rfl | ⟨bs, rfl, hbs⟩
    · exact le_rfl
    · obtain rfl := List.prefix_nil.1 hbs
      simp [hw]
  | @parens o c ts ho hclose _ ih =>
    rcases List.prefix_cons_iff.1 has with rfl | ⟨bs, rfl, hbs⟩
    · exact le_rfl
    rw [depth_cons, weight_opening ho]
    have hc : NoComma bs := fun t ht => hc t (List.mem_cons_of_mem _ ht)
    rcases List.prefix_concat_iff.1 hbs with rfl | hbs
    · have := ih (List.prefix_refl ts) (noComma_append.1 hc).1
      rw [depth_append, depth_cons, weight_closing hclose, depth_nil]
      omega
    · have := ih hbs hc
      omega
  | @window u o lo comma hi c hu ho hlo hcomma _ _ =>
    have hu : u.weight = 0 := by simp [weight, hu]
    have ho : 0 ≤ o.weight := by rcases ho with h | h <;> simp [weight, h]
    rcases List.prefix_cons_iff.1 has with rfl | ⟨as₁, rfl, h₁⟩
    · exact le_rfl
    rcases List.prefix_cons_iff.1 h₁ with rfl | ⟨as₂, rfl, h₂⟩
    · simp [hu]
    rcases List.prefix_cons_iff.1 h₂ with rfl | ⟨as₃, rfl, h₃⟩
    · simpa [hu] using ho
    rcases List.prefix_cons_iff.1 h₃ with rfl | ⟨as₄, rfl, -⟩
    · simpa [hu, hlo] using ho
    · exact absurd hcomma (hc comma (by simp))
  | append _ _ ihl ihr =>
    rcases prefix_append_cases has with has | ⟨bs, rfl, hbs⟩
    · exact ihl has hc
    · obtain ⟨hcl, hcr⟩ := noComma_append.1 hc
      have := ihl (List.prefix_refl _) hcl
      have := ihr hbs hcr
      rw [depth_append]
      omega

/-- From the right there are never more opening than closing parentheses. -/
theorem Nested.depth_nonpos {ts : List Token} (h : Nested ts) {bs : List Token} (hbs : bs <:+ ts)
    (hc : NoComma bs) : depth bs ≤ 0 := by
  induction h generalizing bs with
  | nil =>
    obtain rfl := List.suffix_nil.1 hbs
    exact le_rfl
  | @token t hw =>
    rcases List.suffix_cons_iff.1 hbs with rfl | hbs
    · simp [hw]
    · obtain rfl := List.suffix_nil.1 hbs
      exact le_rfl
  | @parens o c ts ho hclose _ ih =>
    rcases List.suffix_cons_iff.1 hbs with rfl | hbs
    · have := ih (List.suffix_refl ts) fun t ht => hc t (by simp [ht])
      rw [depth_cons, depth_append, depth_cons, weight_opening ho, weight_closing hclose, depth_nil]
      omega
    rcases List.suffix_concat_iff.1 hbs with rfl | ⟨as, rfl, has⟩
    · exact le_rfl
    · have := ih has (noComma_append.1 hc).1
      rw [depth_append, depth_cons, weight_closing hclose, depth_nil]
      omega
  | @window u o lo comma hi c _ _ _ hcomma hhi hclose =>
    have hclose : c.weight ≤ 0 := by rcases hclose with h | h <;> simp [weight, h]
    have hcomma : comma ∉ bs := fun h => hc comma h hcomma
    rcases List.suffix_cons_iff.1 hbs with rfl | hbs
    · exact absurd (by simp) hcomma
    rcases List.suffix_cons_iff.1 hbs with rfl | hbs
    · exact absurd (by simp) hcomma
    rcases List.suffix_cons_iff.1 hbs with rfl | hbs
    · exact absurd (by simp) hcomma
    rcases List.suffix_cons_iff.1 hbs with rfl | hbs
    · exact absurd (by simp) hcomma
    rcases List.suffix_cons_iff.1 hbs with rfl | hbs
    · simpa [hhi] using hclose
    rcases List.suffix_cons_iff.1 hbs with rfl | hbs
    · simpa using hclose
    · obtain rfl := List.suffix_nil.1 hbs
      exact le_rfl
  | append _ _ ihl ihr =>
    rcases suffix_append_cases hbs with hbs | ⟨as, rfl, has⟩
    · exact ihr hbs hc
    · obtain ⟨hcl, hcr⟩ := noComma_append.1 hc
      have := ihl has hcl
      have := ihr (List.suffix_refl _) hcr
      rw [depth_append]
      omega

theorem Nested.not_overrun {ts : List Token} (h : Nested ts) : ¬Overrun ts := by
  rintro ⟨bs, hbs, hc, hd⟩
  have := h.depth_nonpos hbs hc
  omega

theorem Nested.depth_eq {ts : List Token} (h : Nested ts) (hc : NoComma ts) : depth ts = 0 :=
  le_antisymm (h.depth_nonpos (List.suffix_refl ts) hc) (h.depth_nonneg (List.prefix_refl ts) hc)

/-- What is read does not end in an underscore. -/
theorem Nested.last {ts : List Token} (h : Nested ts) : ∀ t ∈ ts.getLast?, ¬t.IsUnderscore := by
  induction h with
  | nil => simp
  | token _ word => simpa using word
  | @parens o c ts _ closing _ =>
    have hlast : (o :: (ts ++ [c])).getLast? = some c := by
      rw [← List.cons_append, List.getLast?_concat]
    rw [hlast]
    rintro t ⟨⟩ ⟨-, h⟩
    simp [closing] at h
  | @window u o lo comma hi c _ _ _ _ _ closing =>
    rintro t ⟨⟩ ⟨-, h⟩
    rcases closing with hc | hc <;> simp [hc] at h
  | @append ts us _ _ ihl ihr =>
    rw [List.getLast?_append]
    intro t ht
    cases hus : us.getLast? with
    | none =>
      rw [hus] at ht
      exact ihl t ht
    | some v =>
      rw [hus] at ht
      exact ihr t (by rw [hus]; exact ht)

end Token

end HybridCheck
