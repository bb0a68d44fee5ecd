import HybridCheck.Proofs.Names
import HybridCheck.Proofs.Reachability

/-!
# The symbols of an accepted automaton

In every step an accepted automaton renames its identifiers three times: mode variables and
propositions to the symbols of the step, and state variables to the symbols at the start of the step
and at its end. All these symbols are different, and none of them is a point in time.
-/

namespace HybridCheck

namespace Automaton

/-- The symbols of a step come in three banks. -/
inductive Bank where
  /-- Mode variables and propositions, which do not change during a step. -/
  | discrete
  /-- State variables at one end of the step. -/
  | state (p : Phase)
  deriving DecidableEq

/-- The renaming of identifiers to the symbols of one bank of step `k`. -/
def bank (m : Automaton) (k : Int) : Bank → Subst
  | .discrete => m.discreteSubst k
  | .state p => m.stateSubst k p

/-- The origin of the symbol that an identifier is renamed to. -/
def Bank.origin (id : String) (k : Int) : Bank → Symbol.Origin
  | .discrete => .discrete id k
  | .state p => .state id k p

def symbolNames (σ : Subst) : Set String := {name | ∃ id v, (id, Term.var v) ∈ σ ∧ v.name = name}

variable {m : Automaton}

theorem Bank.origin_inj {b b' : Bank} {id id' : String} {k k' : Int}
    (h : b.origin id k = b'.origin id' k') : b = b' ∧ id = id' ∧ k = k' := by
  cases b <;> cases b' <;> cases h <;> exact ⟨rfl, rfl, rfl⟩

/-- A bank maps declared identifiers to generated symbols. -/
theorem mem_bank {k : Int} {b : Bank} {e : String × Term} (h : e ∈ m.bank k b) :
    e.1 ∈ m.declaredNames ∧ ∃ s, e.2 = .var ((b.origin e.1 k).symbol s) := by
  cases b with
  | discrete =>
    obtain ⟨d, hd, rfl⟩ | ⟨d, hd, rfl⟩ := mem_discreteSubst h
    · refine ⟨?_, d.2, rfl⟩
      simp [declaredNames, Table.names, List.mem_map_of_mem hd]
    · refine ⟨?_, .bool, rfl⟩
      simp [declaredNames, Table.names, List.mem_map_of_mem hd]
  | state p =>
    obtain ⟨d, hd, rfl⟩ := List.mem_map.1 h
    refine ⟨?_, d.2, rfl⟩
    simp [declaredNames, Table.names, List.mem_map_of_mem hd]

/-- The symbols that an accepted automaton brings in have valid origins. -/
theorem Accepted.exists_origin (accepted : m.Accepted) {k : Int} {b : Bank} {name : String}
    (h : name ∈ symbolNames (m.bank k b)) :
    ∃ id s, (b.origin id k).Valid ∧ ((b.origin id k).symbol s).name = name := by
  obtain ⟨id, v, hv, rfl⟩ := h
  obtain ⟨hid, s, heq⟩ := mem_bank hv
  refine ⟨id, s, ?_, congrArg Var.name (Term.var.inj heq).symm⟩
  cases b <;> exact accepted.identifier id hid

/-- Different banks have no symbol in common. -/
theorem Accepted.disjoint_banks (accepted : m.Accepted) {k k' : Int} {b b' : Bank}
    (h : (k, b) ≠ (k', b')) : Disjoint (symbolNames (m.bank k b)) (symbolNames (m.bank k' b')) := by
  rw [Set.disjoint_left]
  intro name hname hname'
  obtain ⟨id, s, valid, hs⟩ := accepted.exists_origin hname
  obtain ⟨id', s', valid', hs'⟩ := accepted.exists_origin hname'
  have same := Symbol.Origin.eq_of_name valid valid' (hs.trans hs'.symm)
  obtain ⟨rfl, -, rfl⟩ := Bank.origin_inj same
  exact h rfl

/-- No bank has a point in time in it. -/
theorem Accepted.not_mem_bank (accepted : m.Accepted) {k : Int} {b : Bank} {o : Symbol.Origin}
    {s : TermSort} (valid : o.Valid) (h : ∀ id, b.origin id k ≠ o) :
    (o.symbol s).name ∉ symbolNames (m.bank k b) := by
  intro hname
  obtain ⟨id, s', valid', hs'⟩ := accepted.exists_origin hname
  exact h id (Symbol.Origin.eq_of_name valid' valid hs')

/-- The name of a generated symbol tells its kind, identifier, step or count, and end of the step,
and it is no identifier. So the banks of an accepted automaton, which hold nothing but symbols, have
no symbol in common with each other and no point in time. -/
theorem symbols_never_alias :
    (∀ o o' : Symbol.Origin, o.Valid → o'.Valid → ∀ s s',
      (o.symbol s).name = (o'.symbol s').name → o = o') ∧
    (∀ (o : Symbol.Origin) s, isIdentifier (o.symbol s).name = false) ∧
    ∀ d m, ofDefinition d = .ok m →
      (∀ k b, ∀ e ∈ m.bank k b, ∃ v, e.2 = .var v) ∧
      (Pairwise fun i j : Int × Bank =>
        Disjoint (symbolNames (m.bank i.1 i.2)) (symbolNames (m.bank j.1 j.2))) ∧
      ∀ k b, ∀ name ∈ symbolNames (m.bank k b), name ≠ Symbol.offset.name ∧
        ∀ n : Int, name ≠ (Symbol.time n).name ∧ name ≠ (Symbol.tau n).name ∧
          name ≠ (Symbol.witness n).name ∧ name ≠ (Symbol.instant n).name := by
  refine ⟨fun o o' h h' s s' => Symbol.Origin.eq_of_name h h', Symbol.Origin.not_identifier, ?_⟩
  intro d m h
  have accepted := accepted_of_ofDefinition h
  refine ⟨?_, fun i j hij => accepted.disjoint_banks hij, ?_⟩
  · intro k b e he
    obtain ⟨-, s, hs⟩ := mem_bank he
    exact ⟨_, hs⟩
  · intro k b name hname
    have apart (o : Symbol.Origin) (valid : o.Valid) (ho : ∀ id, b.origin id k ≠ o) :
        name ≠ (o.symbol .real).name := by
      rintro rfl
      exact accepted.not_mem_bank valid ho hname
    refine ⟨apart .offset ⟨⟩ ?_, fun n => ⟨apart (.time n) ⟨⟩ ?_, apart (.tau n) ⟨⟩ ?_,
      apart (.witness n) ⟨⟩ ?_, apart (.instant n) ⟨⟩ ?_⟩⟩
    all_goals cases b <;> exact fun _ h => nomatch h

theorem thermostat_never_aliases :
    (Symbol.Origin.discrete "tau" 1).Valid ∧ (Symbol.Origin.state "tau" 1 .entry).Valid ∧
    (Symbol.discrete "tau" .bool 1).name ≠ (Symbol.state "tau" .real 1 .entry).name ∧
    isIdentifier (Symbol.discrete "tau" .bool 1).name = false ∧
    ofDefinition heater = .ok thermostat ∧
    Disjoint (symbolNames (thermostat.bank 1 .discrete))
      (symbolNames (thermostat.bank 11 .discrete)) ∧
    "x@1.0" ∈ symbolNames (thermostat.bank 1 (.state .entry)) ∧
    ∀ n : Int, "x@1.0" ≠ (Symbol.tau n).name := by
  have hmem : "x@1.0" ∈ symbolNames (thermostat.bank 1 (.state .entry)) :=
    ⟨"x", Symbol.state "x" .real 1 .entry, List.mem_singleton.2 rfl, by decide⟩
  have valid : isIdentifier "tau" = true := by decide
  obtain ⟨unique, outside, banks⟩ := symbols_never_alias
  obtain ⟨-, disjoint, apart⟩ := banks heater thermostat ofDefinition_heater
  have steps : ((1, .discrete) : Int × Bank) ≠ (11, .discrete) := by decide
  refine ⟨valid, valid, fun h => ?_, outside (.discrete "tau" 1) .bool, ofDefinition_heater,
    disjoint steps, hmem, fun n => ((apart 1 _ _ hmem).2 n).2.1⟩
  exact nomatch unique (.discrete "tau" 1) (.state "tau" 1 .entry) valid valid _ _ h

end Automaton

end HybridCheck
