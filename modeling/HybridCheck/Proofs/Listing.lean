import HybridCheck.Proofs.Layout
import HybridCheck.Proofs.Lookup
import HybridCheck.Proofs.Names
import HybridCheck.Search.Counterexample

/-!
# Listing a counterexample

The step of a symbol is read back from its name, whatever the identifier is called: a name that
begins with `tau#` or `time#` is that of an instant or a duration, and the step of any other symbol
stands behind its only `@`. Therefore each value of a counterexample is listed once: in the heading
of its step, below it or, if it belongs to no step that is listed, at the end.
-/

namespace HybridCheck

/-! ## Numbers in names -/

namespace Text

theorem readDigits?_digits {cs : List Char} (h : ∀ c ∈ cs, c.isDigit = true) (acc : Nat) :
    readDigits? acc cs = some (Nat.ofDigitChars 10 cs acc) := by
  induction cs generalizing acc with
  | nil => rfl
  | cons c cs ih =>
    obtain ⟨hc, hcs⟩ := List.forall_mem_cons.1 h
    have digit : digit? c = some (c.toNat - '0'.toNat) := if_pos (bounds_of_isDigit hc)
    rw [readDigits?, digit, Nat.ofDigitChars_cons, Nat.mul_comm]
    exact ih hcs _

theorem readNat?_repr (n : Nat) : readNat? n.repr.toList = some n := by
  have digits : ∀ c ∈ n.repr.toList, c.isDigit = true := fun c => isDigit_of_mem_repr
  rw [Nat.toList_repr] at digits ⊢
  obtain ⟨c, cs, hcs⟩ := List.exists_cons_of_ne_nil (Nat.toDigits_ne_nil : Nat.toDigits 10 n ≠ [])
  have value := readDigits?_digits digits 0
  rw [Nat.ofDigitChars_ten_toDigits] at value
  rw [hcs] at value ⊢
  exact value

def IsInt64 (k : Int) : Prop := -int64Limit ≤ k ∧ k < int64Limit

theorem int64?_of_isInt64 {k : Int} (h : IsInt64 k) : int64? k = some k := by
  unfold int64?
  exact if_pos h

theorem readInt?_toString {k : Int} (h : IsInt64 k) : readInt? (toString k).toList = some k := by
  cases k with
  | ofNat n =>
    have digits : ∀ c ∈ n.repr.toList, c.isDigit = true := fun c => isDigit_of_mem_repr
    change readInt? n.repr.toList = _
    unfold readInt?
    split
    · next hn => cases digits '-' (by simp [hn])
    · next hn => cases digits '+' (by simp [hn])
    · rw [readNat?_repr, Option.bind_some]
      exact int64?_of_isInt64 h
  | negSucc n =>
    have : (toString (Int.negSucc n)).toList = '-' :: (n + 1).repr.toList := by
      change ("-" ++ (n + 1).repr).toList = _
      rw [String.toList_append]
      rfl
    rw [this, readInt?, readNat?_repr, Option.bind_some]
    exact int64?_of_isInt64 h

end Text

namespace Symbol.Origin

/-! ## Steps of symbols -/

def index? : Origin → Option Int
  | discrete _ k | state _ k _ | time k | tau k => some k
  | witness _ | instant _ | offset => none

/-- Whether a symbol is the duration of a step or the instant at which it ends. -/
def IsTime : Origin → Prop
  | time _ | tau _ => True
  | _ => False

/-- A symbol that a counterexample gives a value to. Steps are integers of 64 bits. -/
structure Assigned (o : Origin) : Prop where
  valid : o.Valid
  unbound : ∀ n, o ≠ instant n
  present : o ≠ offset
  step : ∀ k, o.index? = some k → Text.IsInt64 k

end Symbol.Origin

namespace Counterexample

open Symbol.Origin

variable {o : Symbol.Origin} {s : TermSort}

/-- A name begins with a word and `#` exactly if these are its stem and the beginning of its
tail. -/
theorem isPrefixOf_name (valid : o.Valid) {p : String} {w : List Char} (hp : p.toList = w ++ ['#'])
    (hw : ∀ c ∈ w, isIdentChar c = true) :
    p.isPrefixOf (o.symbol s).name = true ↔ o.stem = w ∧ o.tail.head? = some '#' := by
  rw [String.isPrefixOf, String.startsWith_string_iff, toList_name, hp]
  constructor
  · rintro ⟨r, hr⟩
    rw [List.append_assoc] at hr
    obtain ⟨hs, ht⟩ := cut_unique hw (isIdentChar_stem valid) (by rintro c ⟨⟩; rfl) o.stop_tail hr
    exact ⟨hs.symm, by rw [← ht]; rfl⟩
  · rintro ⟨hs, ht⟩
    obtain ⟨r, hr⟩ := List.head?_eq_some_iff.1 ht
    exact ⟨r, by rw [hs, hr, List.append_assoc]; rfl⟩

theorem isPrefixOf_tau (valid : o.Valid) :
    "tau#".isPrefixOf (o.symbol s).name = true ↔ ∃ k, o = .tau k := by
  rw [isPrefixOf_name (w := ['t', 'a', 'u']) valid (by simp) (List.all_eq_true.1 rfl)]
  cases o <;> simp [stem, tail]

theorem isPrefixOf_time (valid : o.Valid) :
    "time#".isPrefixOf (o.symbol s).name = true ↔ ∃ k, o = .time k := by
  rw [isPrefixOf_name (w := ['t', 'i', 'm', 'e']) valid (by simp) (List.all_eq_true.1 rfl)]
  cases o <;> simp [stem, tail]

theorem isTime_name (valid : o.Valid) : isTime (o.symbol s).name = true ↔ o.IsTime := by
  rw [isTime, Bool.or_eq_true, isPrefixOf_tau valid, isPrefixOf_time valid]
  cases o <;> simp [IsTime]

theorem after?_append {c : Char} {l r : List Char} (h : c ∉ l) :
    after? c (l ++ r) = after? c r := by
  induction l with
  | nil => rfl
  | cons x l ih =>
    rw [List.mem_cons, not_or] at h
    rw [List.cons_append, after?, if_neg (Ne.symm h.1), ih h.2]

/-- The step of a symbol that is neither an instant nor a duration. -/
theorem stepOf_of_not_isTime (valid : o.Valid) (other : ¬o.IsTime) :
    stepOf (o.symbol s).name =
      (((after? '@' o.tail).map (·.takeWhile (· != '.'))).bind Text.readInt?).getD (-1) := by
  have tau : ¬"tau#".isPrefixOf (o.symbol s).name = true := by
    rw [isPrefixOf_tau valid]
    rintro ⟨k, rfl⟩
    exact other trivial
  have time : ¬"time#".isPrefixOf (o.symbol s).name = true := by
    rw [isPrefixOf_time valid]
    rintro ⟨k, rfl⟩
    exact other trivial
  have at_sign : '@' ∉ o.stem := fun h => by cases isIdentChar_stem valid _ h
  rw [stepOf, if_neg tau, if_neg time, toList_name, after?_append at_sign]

theorem after?_eq_none {c : Char} {l : List Char} (h : c ∉ l) : after? c l = none := by
  rw [← List.append_nil l, after?_append h]
  rfl

/-- The step behind the `@` of a name, up to the end of the step if there is one. -/
theorem readInt?_takeWhile {k : Int} (hk : Text.IsInt64 k) {r : List Char}
    (hr : ∀ c ∈ r.head?, c = '.') :
    Text.readInt? (((toString k).toList ++ r).takeWhile (· != '.')) = some k := by
  have stop : r.takeWhile (· != '.') = [] := by
    cases r with
    | nil => rfl
    | cons c r => simp [hr c rfl]
  rw [List.takeWhile_append_of_pos (ne_dot_of_int k), stop, List.append_nil,
    Text.readInt?_toString hk]

/-- The step of a symbol is read back from its name. -/
theorem stepOf_name (h : o.Assigned) : stepOf (o.symbol s).name = o.index?.getD (-1) := by
  cases o with
  | discrete id k =>
    have number := readInt?_takeWhile (h.step k rfl) (r := []) (by simp)
    rw [List.append_nil] at number
    have at_step : after? '@' (discrete id k).tail = some (toString k).toList := rfl
    rw [stepOf_of_not_isTime h.valid not_false, at_step, Option.map_some, Option.bind_some, number]
    rfl
  | state id k p =>
    have number := readInt?_takeWhile (h.step k rfl) (r := '.' :: p.text.toList) (by simp)
    have at_step : after? '@' (state id k p).tail =
      some ((toString k).toList ++ '.' :: p.text.toList) := rfl
    rw [stepOf_of_not_isTime h.valid not_false, at_step, Option.map_some, Option.bind_some, number]
    rfl
  | time k =>
    have first := (isPrefixOf_tau (s := s) h.valid).not.2 nofun
    have second := (isPrefixOf_time (s := s) h.valid).2 ⟨k, rfl⟩
    rw [stepOf, if_neg first, if_pos second, toList_name]
    change (Text.readInt? (toString k).toList).getD (-1) = k
    rw [Text.readInt?_toString (h.step k rfl)]
    rfl
  | tau k =>
    have first := (isPrefixOf_tau (s := s) h.valid).2 ⟨k, rfl⟩
    rw [stepOf, if_pos first, toList_name]
    change (Text.readInt? (toString k).toList).getD (-1) = k
    rw [Text.readInt?_toString (h.step k rfl)]
    rfl
  | witness n =>
    have digits : '@' ∉ (witness n).tail := by
      rintro h
      rcases List.mem_cons.1 h with h | h
      · cases h
      · rcases mem_toList_int h with h | h <;> cases h
    rw [stepOf_of_not_isTime h.valid not_false, after?_eq_none digits]
    rfl
  | instant n => exact absurd rfl (h.unbound n)
  | offset => exact absurd rfl h.present

/-- A symbol belongs to none of the steps up to a bound. -/
theorem outside_iff (index? : Option Int) (bound : Nat) :
    (index?.getD (-1) < 0 ∨ (bound : Int) < index?.getD (-1)) ↔
      ∀ k ≤ bound, index? ≠ some (k : Int) := by
  cases index? with
  | none => simp
  | some j =>
    rw [Option.getD_some]
    constructor
    · rintro out k hk ⟨⟩
      omega
    · intro out
      by_contra within
      exact out j.toNat (by omega) (by rw [Int.toNat_of_nonneg (by omega)])

/-! ## The parts of a listing -/

variable {a : Assignment} {bound k : Nat} {v : String}

/-- What is listed below the heading of a step. -/
def below (a : Assignment) (k : Nat) : Assignment :=
  a.filter fun e => stepOf e.1 = k && !isTime e.1

def outside (a : Assignment) (bound : Nat) : Assignment :=
  a.filter fun e => stepOf e.1 < 0 || (bound : Int) < stepOf e.1

def headed (a : Assignment) (bound : Nat) : Assignment :=
  a.filter fun e => isTime e.1 && !(stepOf e.1 < 0 || (bound : Int) < stepOf e.1)

theorem mem_below (ho : o.Assigned) : ((o.symbol s).name, v) ∈ below a k ↔
    ((o.symbol s).name, v) ∈ a ∧ o.index? = some (k : Int) ∧ ¬o.IsTime := by
  rw [below, List.mem_filter, Bool.and_eq_true, decide_eq_true_eq, Bool.not_eq_true',
    ← Bool.not_eq_true, isTime_name ho.valid, stepOf_name ho]
  cases o.index? <;> simp

theorem mem_outside (ho : o.Assigned) : ((o.symbol s).name, v) ∈ outside a bound ↔
    ((o.symbol s).name, v) ∈ a ∧ ∀ k ≤ bound, o.index? ≠ some (k : Int) := by
  rw [outside, List.mem_filter, Bool.or_eq_true, decide_eq_true_eq, decide_eq_true_eq,
    stepOf_name ho, outside_iff]

theorem name_of_mem_headed (ho : o.Assigned) (h : ((o.symbol s).name, v) ∈ headed a bound) :
    ∃ k ≤ bound, (o.symbol s).name = (Symbol.tau k).name ∨
      (o.symbol s).name = (Symbol.time k).name := by
  obtain ⟨time, within⟩ := Bool.and_eq_true_iff.1 (List.mem_filter.1 h).2
  rw [isTime_name ho.valid] at time
  rw [Bool.not_eq_true', ← Bool.not_eq_true, Bool.or_eq_true, decide_eq_true_eq,
    decide_eq_true_eq, stepOf_name ho, outside_iff] at within
  push Not at within
  obtain ⟨k, hk, hstep⟩ := within
  cases o with
  | time j =>
    cases hstep
    exact ⟨k, hk, Or.inr rfl⟩
  | tau j =>
    cases hstep
    exact ⟨k, hk, Or.inl rfl⟩
  | discrete | state | witness | instant | offset => exact time.elim

/-- The elements with keys below a bound, one key after the other, and then the other ones. -/
theorem perm_buckets {α : Type} (key : α → Int) (xs : List α) (n : Nat) :
    ((List.range n).flatMap (fun k : Nat => xs.filter fun x => key x = k) ++
      xs.filter fun x => key x < 0 || n ≤ key x).Perm xs := by
  induction n with
  | zero =>
    have all : xs.filter (fun x => key x < 0 || ((0 : Nat) : Int) ≤ key x) = xs := by
      rw [List.filter_eq_self]
      intro x _
      have := lt_or_ge (key x) 0
      simpa using this
    rw [List.range_zero, List.flatMap_nil, List.nil_append, all]
  | succ n ih =>
    refine List.Perm.trans ?_ ih
    rw [List.range_succ, List.flatMap_append, List.flatMap_singleton, List.append_assoc]
    refine List.Perm.append_left _ ?_
    have cut := List.filter_append_perm (fun x => decide (key x = n))
      (xs.filter fun x => key x < 0 || n ≤ key x)
    rw [List.filter_filter, List.filter_filter] at cut
    refine (List.Perm.of_eq ?_).trans cut
    congr 1
    · refine List.filter_congr fun x _ => ?_
      rw [Bool.eq_iff_iff]
      simp
      omega
    · refine List.filter_congr fun x _ => ?_
      rw [Bool.eq_iff_iff]
      simp
      omega

/-- Everything is listed, and nothing twice. -/
theorem perm_listing (a : Assignment) (bound : Nat) :
    (headed a bound ++ ((List.range (bound + 1)).flatMap (below a) ++ outside a bound)).Perm a := by
  let inHeading (e : String × String) : Bool :=
    isTime e.1 && !(stepOf e.1 < 0 || (bound : Int) < stepOf e.1)
  have cut := List.filter_append_perm inHeading a
  have buckets := perm_buckets (fun e => stepOf e.1) (a.filter fun e => !inHeading e) (bound + 1)
  refine List.Perm.trans (List.Perm.append_left _ ?_) cut
  refine (List.Perm.of_eq ?_).trans buckets
  congr 1
  · refine List.flatMap_congr fun k hk => ?_
    have := List.mem_range.1 hk
    rw [below, List.filter_filter]
    refine List.filter_congr fun e _ => ?_
    cases time : isTime e.1 with
    | false => simp [inHeading, time]
    | true =>
      simp [inHeading, time]
      omega
  · rw [outside, List.filter_filter]
    refine List.filter_congr fun e _ => ?_
    cases time : isTime e.1 <;> simp [inHeading, time]

/-! ## Completeness -/

def entryLine (indent : String) (e : String × String) : String :=
  indent ++ e.1 ++ "\t" ++ e.2 ++ "\n"

/-- The text shown for a symbol: its value, or a question mark if it has none. -/
inductive Shows (a : Assignment) (name : String) : String → Prop
  | value {v : String} (h : (name, v) ∈ a) : Shows a name v
  | unassigned (h : ∀ v, (name, v) ∉ a) : Shows a name "?"

theorem shows_valueOf (a : Assignment) (name : String) : Shows a name (valueOf a name) := by
  unfold valueOf
  cases h : a.get? name with
  | some v => exact .value (Table.mem_of_get? h)
  | none =>
    refine .unassigned fun v hv => ?_
    exact Table.get?_eq_none.1 h (List.mem_map_of_mem hv)

/-- The lines of the steps up to a bound in order, each with what belongs below its heading, and
those of everything else at the end. -/
structure Listing (a : Assignment) (bound : Nat) (below : Nat → Assignment) (rest : Assignment) :
    Prop where
  lines_eq : lines a bound = (List.range (bound + 1)).flatMap (fun k =>
    heading a k :: (below k).map (entryLine "    ")) ++ rest.map (entryLine "  ")
  heading_eq : ∀ k, ∃ instant duration, heading a k = "  step " ++ toString k ++
    "\ttau = " ++ instant ++ "\tduration = " ++ duration ++ "\n" ∧
    Shows a (Symbol.tau k).name instant ∧ Shows a (Symbol.time k).name duration
  below_sorted : ∀ k, (below k).Pairwise fun e e' => e.1 < e'.1
  rest_sorted : rest.Pairwise fun e e' => e.1 < e'.1
  mem_below : ∀ (k : Nat) (o : Symbol.Origin) (s : TermSort) (v : String), o.Assigned →
    (((o.symbol s).name, v) ∈ below k ↔
      ((o.symbol s).name, v) ∈ a ∧ o.index? = some (k : Int) ∧ ¬o.IsTime)
  mem_rest : ∀ (o : Symbol.Origin) (s : TermSort) (v : String), o.Assigned →
    (((o.symbol s).name, v) ∈ rest ↔
      ((o.symbol s).name, v) ∈ a ∧ ∀ k ≤ bound, o.index? ≠ some (k : Int))
  /-- What is left out is shown in the headings. -/
  perm : ∃ times, (times ++ ((List.range (bound + 1)).flatMap below ++ rest)).Perm a ∧
    ∀ e ∈ times, ∃ k ≤ bound, e.1 = (Symbol.tau k).name ∨ e.1 = (Symbol.time k).name

theorem exists_listing (sorted : a.Pairwise fun e e' => e.1 < e'.1)
    (generated : ∀ e ∈ a, ∃ (o : Symbol.Origin) (s : TermSort),
      o.Assigned ∧ e.1 = (o.symbol s).name) (bound : Nat) :
    ∃ below rest, Listing a bound below rest :=
  ⟨below a, outside a bound, {
    lines_eq := rfl
    heading_eq k := ⟨_, _, rfl, shows_valueOf a _, shows_valueOf a _⟩
    below_sorted k := sorted.filter _
    rest_sorted := sorted.filter _
    mem_below k o s v ho := mem_below ho
    mem_rest o s v ho := mem_outside ho
    perm := by
      refine ⟨headed a bound, perm_listing a bound, fun e he => ?_⟩
      obtain ⟨o, s, ho, hname⟩ := generated e (List.mem_of_mem_filter he)
      have named : ((o.symbol s).name, e.2) ∈ headed a bound := hname ▸ he
      rw [hname]
      exact name_of_mem_headed ho named }⟩

theorem assigned_of_step {k : Int} (hk : Text.IsInt64 k) {o : Symbol.Origin} (valid : o.Valid)
    (hstep : o.index? = some k) : o.Assigned where
  valid := valid
  unbound n := by
    rintro rfl
    cases hstep
  present := by
    rintro rfl
    cases hstep
  step j hj := by
    obtain rfl : j = k := Option.some.inj (hj.symm.trans hstep)
    exact hk

/-- The step of every symbol but a guessed instant is read back from its name. Therefore the listing
of an assignment is complete, and layout changes nothing of it but blanks, tabs and the way in which
lines end. -/
theorem listing_complete :
    (∀ (id : String) (s : TermSort) (k : Int) (p : Phase), isIdentifier id = true →
      Text.IsInt64 k → stepOf (Symbol.discrete id s k).name = k ∧
        stepOf (Symbol.state id s k p).name = k ∧ stepOf (Symbol.time k).name = k ∧
        stepOf (Symbol.tau k).name = k) ∧
    (∀ n, stepOf (Symbol.witness n).name = -1) ∧
    ∀ (a : Assignment) (bound : Nat), a.Pairwise (fun e e' => e.1 < e'.1) →
      (∀ e ∈ a, ∃ (o : Symbol.Origin) (s : TermSort), o.Assigned ∧ e.1 = (o.symbol s).name) →
      (∃ below rest, Listing a bound below rest) ∧
      ∃ text, write a bound = .ok text ∧
        Text.solid text.toList = Text.solid (String.join (lines a bound)).toList := by
  refine ⟨fun id s k p hid hk => ?_, fun n => ?_, fun a bound sorted generated =>
    ⟨exists_listing sorted generated bound, Text.layout (String.join (lines a bound)),
      if_neg (by omega), Text.solid_layout _⟩⟩
  · have step {o : Symbol.Origin} (valid : o.Valid) (hstep : o.index? = some k) :
        stepOf (o.symbol s).name = k := by
      rw [stepOf_name (assigned_of_step hk valid hstep), hstep]
      rfl
    exact ⟨step (o := .discrete id k) hid rfl, step (o := .state id k p) hid rfl,
      step (o := .time k) trivial rfl, step (o := .tau k) trivial rfl⟩
  · exact stepOf_name (o := .witness n) (s := .real) ⟨trivial, nofun, nofun, nofun⟩

/-- Values of variables called `tau` and `time`, the ends of two steps and a guessed instant. -/
def clocks : Assignment :=
  [("tau#0", "2"), ("tau#2", "7"), ("tau@0", "true"), ("time@1.t", "5"), ("w#0", "3/2")]

theorem assigned_clocks : ∀ e ∈ clocks, ∃ (o : Symbol.Origin) (s : TermSort),
    o.Assigned ∧ e.1 = (o.symbol s).name := by
  have small {k : Int} (low : 0 ≤ k) (high : k < 3) : Text.IsInt64 k := by
    unfold Text.IsInt64 Text.int64Limit
    omega
  intro e he
  simp only [clocks, List.mem_cons, List.not_mem_nil, or_false] at he
  rcases he with rfl | rfl | rfl | rfl | rfl
  · exact ⟨.tau 0, .real, assigned_of_step (small (by decide) (by decide)) trivial rfl, rfl⟩
  · exact ⟨.tau 2, .real, assigned_of_step (small (by decide) (by decide)) trivial rfl, rfl⟩
  · have valid : isIdentifier "tau" = true := by decide
    exact ⟨.discrete "tau" 0, .bool,
      assigned_of_step (small (by decide) (by decide)) valid rfl, rfl⟩
  · have valid : isIdentifier "time" = true := by decide
    exact ⟨.state "time" 1 .exit, .real,
      assigned_of_step (small (by decide) (by decide)) valid rfl, rfl⟩
  · exact ⟨.witness 0, .real, ⟨trivial, nofun, nofun, nofun⟩, rfl⟩

theorem listing_complete_clocks :
    isIdentifier "tau" = true ∧ Text.IsInt64 2 ∧
    stepOf (Symbol.state "tau" .real 2 .entry).name = 2 ∧
    (clocks.Pairwise fun e e' => e.1 < e'.1) ∧
    (∀ e ∈ clocks, ∃ (o : Symbol.Origin) (s : TermSort),
      o.Assigned ∧ e.1 = (o.symbol s).name) ∧
    (∃ below rest, Listing clocks 1 below rest) ∧
    ∃ text, write clocks 1 = .ok text ∧
      Text.solid text.toList = Text.solid (String.join (lines clocks 1)).toList := by
  obtain ⟨steps, -, complete⟩ := listing_complete
  have valid : isIdentifier "tau" = true := by decide
  have int64 : Text.IsInt64 2 := by
    unfold Text.IsInt64 Text.int64Limit
    omega
  have sorted : clocks.Pairwise fun e e' => e.1 < e'.1 := by decide
  obtain ⟨listed, written⟩ := complete clocks 1 sorted assigned_clocks
  exact ⟨valid, int64, (steps "tau" .real 2 .entry valid int64).2.1, sorted, assigned_clocks,
    listed, written⟩

example : lines clocks 1 = [
    "  step 0\ttau = 2\tduration = ?\n",
    "    tau@0\ttrue\n",
    "  step 1\ttau = ?\tduration = ?\n",
    "    time@1.t\t5\n",
    "  tau#2\t7\n",
    "  w#0\t3/2\n"] := by decide +kernel

end Counterexample

end HybridCheck
