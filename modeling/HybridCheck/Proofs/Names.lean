import HybridCheck.Symbol
import Mathlib

/-!
# Names of generated symbols

No two generated symbols are the same. A generated name consists of a stem of identifier characters
and a tail that begins with `@` or `#`. Where the stem ends is told by the characters, so the name
gives back where the symbol comes from: the kind of symbol, the identifier, the step or count, and
the end of the step.
-/

namespace HybridCheck

/-- Where a text is cut is told by the characters on both sides. -/
theorem cut_unique {p : Char → Bool} {s s' r r' : List Char} (hs : ∀ c ∈ s, p c = true)
    (hs' : ∀ c ∈ s', p c = true) (hr : ∀ c ∈ r.head?, p c = false)
    (hr' : ∀ c ∈ r'.head?, p c = false) (h : s ++ r = s' ++ r') : s = s' ∧ r = r' := by
  have stop {r : List Char} (hr : ∀ c ∈ r.head?, p c = false) : r.takeWhile p = [] := by
    cases r with
    | nil => rfl
    | cons c r => simp [hr c rfl]
  have front := congrArg (List.takeWhile p) h
  rw [List.takeWhile_append_of_pos hs, List.takeWhile_append_of_pos hs', stop hr, stop hr',
    List.append_nil, List.append_nil] at front
  subst front
  exact ⟨rfl, List.append_cancel_left h⟩

theorem isDigit_of_mem_repr {n : Nat} {c : Char} (h : c ∈ n.repr.toList) : c.isDigit = true := by
  rw [Nat.toList_repr] at h
  exact Nat.isDigit_of_mem_toDigits (by decide) (by decide) h

theorem bounds_of_isDigit {c : Char} (h : c.isDigit = true) : '0' ≤ c ∧ c ≤ '9' := by
  simp only [Char.isDigit, Bool.and_eq_true, decide_eq_true_eq] at h
  exact h

theorem mem_toList_int {n : Int} {c : Char} (h : c ∈ (toString n).toList) :
    c.isDigit = true ∨ c = '-' := by
  cases n with
  | ofNat n => exact Or.inl (isDigit_of_mem_repr h)
  | negSucc n =>
    have : toString (Int.negSucc n) = "-" ++ (n + 1).repr := rfl
    rw [this, String.toList_append] at h
    rcases List.mem_append.1 h with h | h
    · exact Or.inr (by simpa using h)
    · exact Or.inl (isDigit_of_mem_repr h)

/-- A number has no dot in it. -/
theorem ne_dot_of_int (n : Int) : ∀ c ∈ (toString n).toList, (c != '.') = true := by
  intro c hc
  rw [bne_iff_ne]
  rintro rfl
  rcases mem_toList_int hc with h | h <;> cases h

theorem isIdentChar_of_identifier {name : String} (h : isIdentifier name = true) :
    ∀ c ∈ name.toList, isIdentChar c = true := by
  unfold isIdentifier at h
  split at h
  · cases h
  · next c cs hs =>
    rw [hs]
    rw [Bool.and_eq_true, List.all_eq_true] at h
    intro d hd
    rcases List.mem_cons.1 hd with rfl | hd
    · simp [isIdentChar, h.1]
    · exact h.2 _ hd

namespace Symbol

inductive Origin where
  | discrete (id : String) (k : Int)
  | state (id : String) (k : Int) (p : Phase)
  | time (k : Int)
  | tau (k : Int)
  | witness (n : Int)
  | instant (n : Int)
  | offset
  deriving DecidableEq

namespace Origin

/-- The generated symbol. Only those of declared identifiers have a sort of their own. -/
def symbol (s : TermSort) : Origin → Var
  | discrete id k => Symbol.discrete id s k
  | state id k p => Symbol.state id s k p
  | time k => Symbol.time k
  | tau k => Symbol.tau k
  | witness n => Symbol.witness n
  | instant n => Symbol.instant n
  | offset => Symbol.offset

/-- The identifier is one that may be declared. -/
def Valid : Origin → Prop
  | discrete id _ | state id _ _ => isIdentifier id = true
  | _ => True

/-- What stands before the first `@` or `#` of a name. -/
def stem : Origin → List Char
  | discrete id _ | state id _ _ => id.toList
  | time _ => ['t', 'i', 'm', 'e']
  | tau _ => ['t', 'a', 'u']
  | witness _ => ['w']
  | instant _ => ['u']
  | offset => ['o', 'f', 'f']

/-- A name from the first `@` or `#` on. -/
def tail : Origin → List Char
  | discrete _ k => '@' :: (toString k).toList
  | state _ k p => '@' :: ((toString k).toList ++ '.' :: p.text.toList)
  | time n | tau n | witness n | instant n => '#' :: (toString n).toList
  | offset => ['#']

theorem toList_name (s : TermSort) (o : Origin) :
    (o.symbol s).name.toList = o.stem ++ o.tail := by
  cases o <;> simp [symbol, stem, tail, Symbol.discrete, Symbol.state, Symbol.time, Symbol.tau,
    Symbol.witness, Symbol.instant, Symbol.offset]

theorem isIdentChar_stem {o : Origin} (h : o.Valid) : ∀ c ∈ o.stem, isIdentChar c = true := by
  cases o with
  | discrete id k | state id k p => exact isIdentChar_of_identifier h
  | _ => exact List.all_eq_true.1 rfl

theorem head_tail (o : Origin) : ∃ c r, o.tail = c :: r ∧ isIdentChar c = false := by
  cases o with
  | discrete id k | state id k p => exact ⟨'@', _, rfl, by decide⟩
  | _ => exact ⟨'#', _, rfl, by decide⟩

theorem stop_tail (o : Origin) : ∀ c ∈ o.tail.head?, isIdentChar c = false := by
  obtain ⟨c, r, hr, hc⟩ := o.head_tail
  simpa [hr] using hc

/-- A step and the end of it that is read can be told apart. -/
theorem digits_unique (k k' : Int) {r r' : List Char} (hr : ∀ c ∈ r.head?, c = '.')
    (hr' : ∀ c ∈ r'.head?, c = '.')
    (h : (toString k).toList ++ r = (toString k').toList ++ r') : k = k' ∧ r = r' := by
  obtain ⟨hk, hr⟩ := cut_unique (ne_dot_of_int k) (ne_dot_of_int k')
    (fun c hc => by simp [hr c hc]) (fun c hc => by simp [hr' c hc]) h
  exact ⟨Int.repr_inj.1 (String.toList_inj.1 hk), hr⟩

/-- Stem and tail determine the origin. -/
theorem eq_of_stem_tail {o o' : Origin} (hs : o.stem = o'.stem) (ht : o.tail = o'.tail) :
    o = o' := by
  cases o with
  | discrete id k =>
    cases o' with
    | discrete id' k' =>
      obtain ⟨rfl, -⟩ : k = k' ∧ ([] : List Char) = [] :=
        digits_unique k k' (by simp) (by simp) (by simpa [tail] using ht)
      rw [String.toList_inj.1 hs]
    | state id' k' p' =>
      have h : k = k' ∧ [] = '.' :: p'.text.toList :=
        digits_unique k k' (by simp) (by simp) (by simpa [tail] using ht)
      cases h.2
    | _ => simp [tail] at ht
  | state id k p =>
    cases o' with
    | discrete id' k' =>
      have h : k = k' ∧ '.' :: p.text.toList = [] :=
        digits_unique k k' (by simp) (by simp) (by simpa [tail] using ht)
      cases h.2
    | state id' k' p' =>
      obtain ⟨rfl, h⟩ := digits_unique k k' (by simp) (by simp) (List.cons_inj_right _ |>.1 ht)
      rw [String.toList_inj.1 hs]
      cases p <;> cases p' <;> first | rfl | simp [Phase.text] at h
    | _ => simp [tail] at ht
  | _ => cases o' <;> simp_all [stem, tail, String.toList_inj, Int.repr_inj]

/-- The name of a generated symbol gives back where it comes from. -/
theorem eq_of_name {o o' : Origin} {s s' : TermSort} (h : o.Valid) (h' : o'.Valid)
    (heq : (o.symbol s).name = (o'.symbol s').name) : o = o' := by
  have hname := congrArg String.toList heq
  rw [toList_name, toList_name] at hname
  obtain ⟨hs, ht⟩ := cut_unique (isIdentChar_stem h) (isIdentChar_stem h') o.stop_tail
    o'.stop_tail hname
  exact eq_of_stem_tail hs ht

/-- No generated name may be declared. -/
theorem not_identifier (o : Origin) (s : TermSort) : isIdentifier (o.symbol s).name = false := by
  obtain ⟨c, r, hr, hc⟩ := o.head_tail
  rw [← Bool.not_eq_true]
  intro h
  have := isIdentChar_of_identifier h c (by simp [toList_name, hr])
  rw [hc] at this
  cases this

theorem symbol_inj (s s' : TermSort) (o o' : Origin) (h : o.Valid) (h' : o'.Valid)
    (heq : o.symbol s = o'.symbol s') : o = o' :=
  eq_of_name h h' (congrArg Var.name heq)

end Origin

@[simp] theorem instant_inj {m n : Int} : instant m = instant n ↔ m = n := by
  simp [instant, Int.repr_inj]

@[simp] theorem tau_inj {m n : Int} : tau m = tau n ↔ m = n := by
  simp [tau, Int.repr_inj]

@[simp] theorem time_inj {m n : Int} : time m = time n ↔ m = n := by
  simp [time, Int.repr_inj]

@[simp] theorem witness_inj {m n : Int} : witness m = witness n ↔ m = n := by
  simp [witness, Int.repr_inj]

theorem offset_ne_instant (n : Int) : offset ≠ instant n := fun h =>
  nomatch Origin.symbol_inj .real .real .offset (.instant n) ⟨⟩ ⟨⟩ h

theorem tau_ne_witness (k n : Int) : tau k ≠ witness n := fun h =>
  nomatch Origin.symbol_inj .real .real (.tau k) (.witness n) ⟨⟩ ⟨⟩ h

theorem time_ne_witness (k n : Int) : time k ≠ witness n := fun h =>
  nomatch Origin.symbol_inj .real .real (.time k) (.witness n) ⟨⟩ ⟨⟩ h

theorem discrete_inj {id id' : String} {s s' : TermSort} {k k' : Int} (h : isIdentifier id = true)
    (h' : isIdentifier id' = true) :
    discrete id s k = discrete id' s' k' ↔ id = id' ∧ s = s' ∧ k = k' := by
  constructor
  · intro heq
    have same := Origin.symbol_inj s s' (.discrete id k) (.discrete id' k') h h' heq
    cases same
    exact ⟨rfl, congrArg Var.sort heq, rfl⟩
  · rintro ⟨rfl, rfl, rfl⟩
    rfl

theorem state_inj {id id' : String} {s s' : TermSort} {k k' : Int} {p p' : Phase}
    (h : isIdentifier id = true) (h' : isIdentifier id' = true) :
    state id s k p = state id' s' k' p' ↔ id = id' ∧ s = s' ∧ k = k' ∧ p = p' := by
  constructor
  · intro heq
    have same := Origin.symbol_inj s s' (.state id k p) (.state id' k' p') h h' heq
    cases same
    exact ⟨rfl, congrArg Var.sort heq, rfl, rfl⟩
  · rintro ⟨rfl, rfl, rfl, rfl⟩
    rfl

end Symbol

end HybridCheck
