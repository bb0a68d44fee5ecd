import HybridCheck.Proofs.Runs

/-!
# Assignments for runs

Every run whose steps have values of the right sorts is the run in some assignment, whatever truth
values the propositions are to have in each step. The symbols of an accepted automaton are all
different, so each can be given its value apart from the others.
-/

namespace HybridCheck

/-- Values that fill a table of distinct names can be read off by name. -/
theorem Table.Fills.map_get? {sorts : Table TermSort} {t : Table Value} (h : sorts.Fills t)
    (distinct : sorts.names.Nodup) (other : Value) :
    (sorts.map fun e => (e.1, (t.get? e.1).getD other)) = t := by
  induction h with
  | nil => rfl
  | @cons x e t sorts hxe _ ih =>
    obtain ⟨fresh, distinct⟩ := List.nodup_cons.1 distinct
    obtain ⟨hname, -⟩ := hxe
    rw [List.map_cons, Table.get?, if_pos hname]
    refine congrArg₂ List.cons (Prod.ext hname.symm rfl) ?_
    refine (List.map_congr_left fun e' he' => ?_).trans (ih distinct)
    have hne : x.1 ≠ e'.1 := by
      rintro heq
      exact fresh (hname ▸ heq ▸ List.mem_map_of_mem he')
    rw [Table.get?, if_neg hne]

/-- What a symbol of a trace stands for. -/
inductive Slot where
  | time (k : Nat)
  | tau (k : Nat)
  | mode (e : String × TermSort) (k : Nat)
  | prop (name : String) (k : Nat)
  | state (e : String × TermSort) (k : Nat) (p : Phase)

namespace Slot

def symbol : Slot → Var
  | time k => Symbol.time k
  | tau k => Symbol.tau k
  | mode e k => Symbol.discrete e.1 e.2 k
  | prop name k => Symbol.discrete name .bool k
  | state e k p => Symbol.state e.1 e.2 k p

def Of (m : Automaton) (N : Nat) : Slot → Prop
  | time k | tau k => k ≤ N
  | mode e k => e ∈ m.modeVars ∧ k ≤ N
  | prop name k => name ∈ Table.names m.props ∧ k ≤ N
  | state e k _ => e ∈ m.stateVars ∧ k ≤ N

/-- The value of a slot in a run, given the truth values of propositions in each step. -/
def value (r : Trajectory) (truth : String → Nat → Prop) : Slot → Value
  | time k => .number (r k).duration
  | tau k => .number (r k).stop
  | mode e k => ((r k).mode.get? e.1).getD (.number 0)
  | prop name k => .truth (truth name k)
  | state e k .entry => ((r k).entry.get? e.1).getD (.number 0)
  | state e k .exit => ((r k).exit.get? e.1).getD (.number 0)

variable {m : Automaton} {N : Nat}

/-- Different slots have different symbols. -/
theorem symbol_inj (accepted : m.Accepted) {s s' : Slot} (hs : s.Of m N) (hs' : s'.Of m N)
    (h : s.symbol = s'.symbol) : s = s' := by
  have identifier {name : String}
      (hn : name ∈ Table.names m.stateVars ∨ name ∈ Table.names m.modeVars ∨
        name ∈ Table.names m.props) : isIdentifier name = true := by
    refine accepted.identifier name ?_
    simpa [Automaton.declaredNames] using hn
  have role := congrArg Var.role h
  cases s with
  | time k =>
    cases s' with
    | time k' => simpa [symbol] using h
    | tau k' =>
      have := congrArg (fun v => v.name.toList.take 2) h
      simp [symbol, Symbol.time, Symbol.tau] at this
    | mode | prop | state => cases role
  | tau k =>
    cases s' with
    | tau k' => simpa [symbol] using h
    | time k' =>
      have := congrArg (fun v => v.name.toList.take 2) h
      simp [symbol, Symbol.time, Symbol.tau] at this
    | mode | prop | state => cases role
  | mode e k =>
    have he := List.mem_map_of_mem (f := Prod.fst) hs.1
    cases s' with
    | mode e' k' =>
      obtain ⟨h1, h2, h3⟩ := (Symbol.discrete_inj (identifier (Or.inr (Or.inl he)))
        (identifier (Or.inr (Or.inl (List.mem_map_of_mem hs'.1))))).1 h
      rw [Prod.ext h1 h2, Int.ofNat_inj.1 h3]
    | prop name k' =>
      obtain ⟨h1, -, -⟩ := (Symbol.discrete_inj (identifier (Or.inr (Or.inl he)))
        (identifier (Or.inr (Or.inr hs'.1)))).1 h
      exact (accepted.ne_prop (Or.inr he) hs'.1 h1).elim
    | time | tau | state => cases role
  | prop name k =>
    cases s' with
    | mode e' k' =>
      have he := List.mem_map_of_mem (f := Prod.fst) hs'.1
      obtain ⟨h1, -, -⟩ := (Symbol.discrete_inj (identifier (Or.inr (Or.inr hs.1)))
        (identifier (Or.inr (Or.inl he)))).1 h
      exact (accepted.ne_prop (Or.inr he) hs.1 h1.symm).elim
    | prop name' k' =>
      obtain ⟨h1, -, h3⟩ := (Symbol.discrete_inj (identifier (Or.inr (Or.inr hs.1)))
        (identifier (Or.inr (Or.inr hs'.1)))).1 h
      rw [h1, Int.ofNat_inj.1 h3]
    | time | tau | state => cases role
  | state e k p =>
    cases s' with
    | state e' k' p' =>
      obtain ⟨h1, h2, h3, h4⟩ := (Symbol.state_inj
        (identifier (Or.inl (List.mem_map_of_mem hs.1)))
        (identifier (Or.inl (List.mem_map_of_mem hs'.1)))).1 h
      rw [Prod.ext h1 h2, Int.ofNat_inj.1 h3, h4]
    | time | tau | mode | prop => cases role

/-- The value of a slot is of the sort of its symbol. -/
theorem isOf_value (accepted : m.Accepted) {r : Trajectory} (sorted : ∀ k ≤ N, (r k).Sorted m)
    (truth : String → Nat → Prop) {s : Slot} (hs : s.Of m N) :
    Value.IsOf s.symbol.sort (s.value r truth) := by
  have found {sorts : Table TermSort} {t : Table Value} (h : sorts.Fills t)
      (distinct : sorts.names.Nodup) {e : String × TermSort} (he : e ∈ sorts) :
      Value.IsOf e.2 ((t.get? e.1).getD (.number 0)) := by
    obtain ⟨x, hx, value⟩ := h.get? (Table.get?_of_mem distinct he)
    rw [hx]
    exact value
  cases s with
  | time k => exact ⟨_, rfl⟩
  | tau k => exact ⟨_, rfl⟩
  | mode e k => exact found (sorted k hs.2).mode accepted.distinct_mode hs.1
  | prop name k => exact ⟨_, rfl⟩
  | state e k p =>
    cases p with
    | entry => exact found (sorted k hs.2).entry accepted.distinct_state hs.1
    | exit => exact found (sorted k hs.2).exit accepted.distinct_state hs.1

end Slot

namespace Trajectory

variable {m : Automaton} {N : Nat}

open scoped Classical in
/-- An assignment that gives every slot of a run its value. -/
noncomputable def assignment (m : Automaton) (N : Nat) (r : Trajectory)
    (truth : String → Nat → Prop) : Env :=
  { Env.blank with
    now := fun v =>
      if h : ∃ s : Slot, s.Of m N ∧ s.symbol = v then h.choose.value r truth
      else Env.blank.now v }

variable (accepted : m.Accepted) {r : Trajectory} (truth : String → Nat → Prop)
include accepted

theorem assignment_slot {s : Slot} (hs : s.Of m N) :
    (assignment m N r truth).now s.symbol = s.value r truth := by
  have exists_slot : ∃ s' : Slot, s'.Of m N ∧ s'.symbol = s.symbol := ⟨s, hs, rfl⟩
  simp only [assignment, dif_pos exists_slot]
  obtain ⟨of, same⟩ := exists_slot.choose_spec
  rw [Slot.symbol_inj accepted of hs same]

variable (sorted : ∀ k ≤ N, (r k).Sorted m)
include sorted

theorem assignment_sorted : (assignment m N r truth).Sorted := by
  refine ⟨fun v => ?_, Env.blank_sorted.2⟩
  by_cases h : ∃ s : Slot, s.Of m N ∧ s.symbol = v
  · obtain ⟨s, hs, rfl⟩ := h
    rw [assignment_slot accepted truth hs]
    exact Slot.isOf_value accepted sorted truth hs
  · simp only [assignment, dif_neg h]
    exact Env.blank_sorted.1 v

/-- The run in the assignment for a run is that run. -/
theorem ofEnv_assignment {k : Nat} (hk : k ≤ N) :
    ofEnv m (assignment m N r truth) k = r k := by
  have table {sorts : Table TermSort} {t : Table Value} (h : sorts.Fills t)
      (distinct : sorts.names.Nodup) (slot : String × TermSort → Slot)
      (hslot : ∀ e ∈ sorts, (slot e).Of m N ∧
        (slot e).value r truth = (t.get? e.1).getD (.number 0)) :
      (sorts.map fun e => (e.1, (assignment m N r truth).now (slot e).symbol)) = t := by
    refine (List.map_congr_left fun e he => ?_).trans (h.map_get? distinct (.number 0))
    rw [assignment_slot accepted truth (hslot e he).1, (hslot e he).2]
  have duration := assignment_slot accepted truth (r := r) (s := .time k) hk
  have stop := assignment_slot accepted truth (r := r) (s := .tau k) hk
  simp only [Slot.symbol, Slot.value] at duration stop
  have mode := table (sorted k hk).mode accepted.distinct_mode (Slot.mode · k)
    fun e he => ⟨⟨he, hk⟩, rfl⟩
  have entry := table (sorted k hk).entry accepted.distinct_state (Slot.state · k .entry)
    fun e he => ⟨⟨he, hk⟩, rfl⟩
  have exit := table (sorted k hk).exit accepted.distinct_state (Slot.state · k .exit)
    fun e he => ⟨⟨he, hk⟩, rfl⟩
  simp only [Slot.symbol] at mode entry exit
  simp only [ofEnv, Step.ofEnv, duration, stop, mode, entry, exit, Value.toReal_number]

end Trajectory

end HybridCheck
