import HybridCheck.Proofs.Provenance

/-!
# The bound on time

The bound on time is put on the points in time that occur in the constraints before their flow
primitives are expanded. They are the durations and the ends of the steps and the guessed instants,
whatever the model and the formula, and expansion neither brings in another one nor loses one. So
the bound misses no point in time that the solver sees.
-/

namespace HybridCheck

open Term

namespace Automaton

/-- A point in time of the traces with `N` jumps and of a formula: the duration or the end of a
step, or an instant that was guessed. -/
def IsPoint (N : Nat) (guesses : Guesses) (v : Var) : Prop :=
  (∃ k : Nat, k ≤ N ∧ (v = Symbol.time k ∨ v = Symbol.tau k)) ∨ ∃ key, guesses.get? key = some v

def upTo (b : Rat) (v : Var) : Term := mkAnd [mkGe (.var v) .zero, mkLe (.var v) (.real b)]

variable {m : Automaton} {N : Nat} {g : Formula.Guessed} {v : Var}

/-! ## No other point in time -/

theorem sights_points (m : Automaton) (guesses : Guesses) {k : Int} (hk : Visits N k) :
    m.Sights (fun v => v.role = .timestamp → IsPoint N guesses v) k where
  symbol p e he := by
    rcases List.mem_append.1 he with he | he
    · obtain ⟨d, -, rfl⟩ | ⟨d, -, rfl⟩ := mem_discreteSubst he
      · exact ⟨_, rfl, nofun⟩
      · exact ⟨_, rfl, nofun⟩
    · obtain ⟨d, -, rfl⟩ := List.mem_map.1 he
      exact ⟨_, rfl, nofun⟩
  prop _ _ := nofun
  time _ := by
    unfold Visits at hk
    lift k to Nat using by omega
    exact Or.inl ⟨k, by omega, Or.inl rfl⟩

theorem knowsPoints (N : Nat) (guesses : Guesses) :
    KnowsPoints (fun v => v.role = .timestamp → IsPoint N guesses v) anyBinder ⟨N⟩ where
  horizon := Int.natCast_nonneg N
  tau k h0 hk _ := by
    lift k to Nat using h0
    have hk : (k : Int) ≤ N := hk
    exact Or.inl ⟨k, by omega, Or.inr rfl⟩
  instant _ := ⟨nofun, trivial⟩
  offset := nofun

section

variable {d : Definition} (h : ofDefinition d = .ok m) {s : String} {f : Formula}
  (read : Formula.ofText m.scope s = .ok f) (guessed : f.guess ⟨N⟩ = .ok g) {T : Option Rat}
  {q : Search.Query} (encoded : Search.encode m m.encoder T f N = .ok q) {t : Term}
  (ht : t ∈ q.constraints)
include h read guessed encoded ht

theorem pending_points :
    t.Pending (fun v => v.role = .timestamp → IsPoint N g.guesses v) anyBinder
      m.PostJumpMode := by
  have referring :
      m.Referring (fun v => v.role = .timestamp → IsPoint N g.guesses v) anyBinder :=
    (built_of_ofDefinition h).referring fun v bound role => by
      rw [bound] at role
      cases role
  refine referring.encode (accepted_of_ofDefinition h) read
    (fun k hk => sights_points m g.guesses hk) (knowsPoints N g.guesses)
    (fun g' hg' key w hw _ => ?_) encoded t ht
  cases guessed.symm.trans hg'
  exact Or.inr ⟨key, hw⟩

theorem isPoint_of_mentions (hv : t.mentions v = true) (role : v.role = .timestamp) :
    IsPoint N g.guesses v :=
  pending_points h read guessed encoded ht _ (mem_subterms_of_mentions hv) role

theorem isPoint_of_expand {e : Term} (he : t.expand = .ok e) (hv : e.mentions v = true)
    (role : v.role = .timestamp) : IsPoint N g.guesses v :=
  ((pending_points h read guessed encoded ht).expand he) _ (mem_subterms_of_mentions hv) role

end

/-! ## Every point in time -/

/-- A term mentions a variable, and no expansion changes that. -/
structure Shows (v : Var) (t : Term) : Prop where
  mentions : t.mentions v = true
  expand : t.expand = .ok t

theorem shows_cmp {r : Relation} {a b : Term} (ha : a.flowFree = true) (hb : b.flowFree = true)
    (h : a.mentions v = true ∨ b.mentions v = true) : Shows v (cmp r a b) where
  mentions := (mentions_operator (o := .cmp r) rfl).2 (by simpa [operands] using h)
  expand := expand_of_flowFree
    ((hereditary_flowFree _ (.cmp r) rfl).2 (by simpa [operands] using ⟨ha, hb⟩))

/-- The timestamps show the duration and the end of every step. -/
theorem shows_timestamps {ts : List Term} (h : timestamps N = .ok ts) {k : Nat} (hk : k ≤ N) :
    (∃ t ∈ ts, Shows (Symbol.time k) t) ∧ ∃ t ∈ ts, Shows (Symbol.tau k) t := by
  obtain ⟨later, hlater, h⟩ := Attempt.bind_eq_ok.1 h
  cases h
  cases k with
  | zero =>
    have first : mkEq (.var (Symbol.time 0)) (.var (Symbol.tau 0)) =
      cmp .eq (.var (Symbol.time 0)) (.var (Symbol.tau 0)) := rfl
    exact ⟨⟨_, by simp, first ▸ shows_cmp rfl rfl (Or.inl (mentions_var.2 rfl))⟩,
      ⟨_, by simp, first ▸ shows_cmp rfl rfl (Or.inr (mentions_var.2 rfl))⟩⟩
  | succ k =>
    obtain ⟨us, hmem, hus⟩ := Attempt.exists_of_mapM hlater (mem_steps.2 ⟨k, hk, rfl⟩)
    have length : mkSub (.var (Symbol.tau (k + 1))) (.var (Symbol.tau k)) =
      .ok (sub (.var (Symbol.tau (k + 1))) (.var (Symbol.tau k))) := rfl
    rw [length] at hus
    cases hus
    have stamp {t : Term} (ht : t ∈ [
        cmp .eq (.var (Symbol.time (k + 1)))
          (sub (.var (Symbol.tau (k + 1))) (.var (Symbol.tau k))),
        cmp .lt (.var (Symbol.tau k)) (.var (Symbol.tau (k + 1)))]) :
        t ∈ [mkGe (.var (Symbol.tau 0)) .zero, mkEq (.var (Symbol.time 0)) (.var (Symbol.tau 0))] ++
          later.flatten :=
      List.mem_append_right _ (List.mem_flatten.2 ⟨_, hmem, ht⟩)
    push_cast
    exact ⟨⟨_, stamp List.mem_cons_self, shows_cmp rfl rfl (Or.inl (mentions_var.2 rfl))⟩,
      ⟨_, stamp (List.mem_cons_of_mem _ List.mem_cons_self),
        shows_cmp rfl rfl (Or.inr (mentions_var.2 rfl))⟩⟩

/-- A guessed instant is placed inside the trace. -/
theorem shows_domain {b : Timeline} : Shows v (b.domain (.var v)) where
  mentions := (mentions_operator (t := .and _) (o := .and) rfl).2
    ⟨_, List.mem_cons_self, (mentions_operator (t := cmp .ge _ _) (o := .cmp .ge) rfl).2
      ⟨_, List.mem_cons_self, mentions_var.2 rfl⟩⟩
  expand := expand_of_flowFree rfl

/-- A trace has the timestamps in it, and the bound on time comes last. -/
theorem exists_trace {T : Option Rat} {props : List String} {placement formula ts : List Term}
    (h : m.constraints N T props placement formula = .ok ts) : ∃ trace times,
      m.constraints N none props placement formula = .ok trace ∧
      ts = trace ++ T.elim [] (timeBoundConstraints (trace ++ placement ++ formula)) ∧
      timestamps N = .ok times ∧ ∀ t ∈ times, t ∈ trace := by
  obtain ⟨unrolled, hunrolled, h⟩ := Attempt.bind_eq_ok.1 h
  obtain ⟨times, htimes, h⟩ := Attempt.bind_eq_ok.1 h
  obtain ⟨signs, hsigns, h⟩ := Attempt.bind_eq_ok.1 h
  refine ⟨unrolled ++ times ++ signs.flatten, times, ?_, ?_, htimes, fun t ht => by simp [ht]⟩
  · rw [constraints, hunrolled, Attempt.bind_ok, htimes, Attempt.bind_ok, hsigns]
    rfl
  · cases T <;> cases h
    · simp
    · rfl

theorem role_of_isPoint {f : Formula} (guessed : f.guess ⟨N⟩ = .ok g)
    (h : IsPoint N g.guesses v) : v.role = .timestamp := by
  obtain ⟨k, -, rfl | rfl⟩ | ⟨key, hkey⟩ := h
  · rfl
  · rfl
  · obtain ⟨i, -, rfl⟩ := (Formula.numbered_of_guess guessed).witness _ _ hkey
    rfl

/-- Every point in time is shown by the timestamps or by the placement of the guesses. -/
theorem exists_shows {f : Formula} (guessed : f.guess ⟨N⟩ = .ok g) {times : List Term}
    (ht : timestamps N = .ok times) (h : IsPoint N g.guesses v) :
    ∃ t ∈ times ++ g.constraints, Shows v t := by
  obtain ⟨k, hk, rfl | rfl⟩ | ⟨key, hkey⟩ := h
  · obtain ⟨t, ht, shown⟩ := (shows_timestamps ht hk).1
    exact ⟨t, by simp [ht], shown⟩
  · obtain ⟨t, ht, shown⟩ := (shows_timestamps ht hk).2
    exact ⟨t, by simp [ht], shown⟩
  · have placed := (Formula.placed_of_guess guessed).domain key v hkey
    exact ⟨_, List.mem_append_right _ placed, shows_domain⟩

end Automaton

/-! ## The bound -/

namespace Automaton

variable {m : Automaton} {N : Nat}

/-- The bound on time is put on the points in time, once on each, whatever the model and the
formula. They are the points in time that are free in the expanded constraints, so every assignment
that satisfies these keeps all of them within the bound. -/
theorem time_bound_exact {d : Definition} (h : ofDefinition d = .ok m) {s : String} {f : Formula}
    (read : Formula.ofText m.scope s = .ok f) {T : Option Rat} {q : Search.Query}
    (encoded : Search.encode m m.encoder T f N = .ok q) {es : List Term}
    (expanded : Solver.expandAll 0 q.constraints = .ok es) :
    ∃ g trace u, f.guess ⟨N⟩ = .ok g ∧
      m.constraints N none g.partition.propositions g.constraints [u] = .ok trace ∧
      (∀ v, v ∈ freeVarsOf es ∧ v.role = .timestamp ↔ IsPoint N g.guesses v) ∧
      ∃ points : List Var, points.Nodup ∧ (∀ v, v ∈ points ↔ IsPoint N g.guesses v) ∧
        (∀ b, timeBoundConstraints (trace ++ g.constraints ++ [u]) b = points.map (upTo b)) ∧
        q.constraints = trace ++ T.elim [] (fun b => points.map (upTo b)) ++ g.constraints ++ [u] ∧
        ∀ b ∈ T, ∀ ρ : Env, (∀ e ∈ es, e.Holds ρ) →
          ∀ v ∈ points, 0 ≤ (ρ.now v).toReal ∧ (ρ.now v).toReal ≤ b := by
  obtain ⟨g, bv, u, ts, guessed, -, -, hts, split⟩ := exists_of_encode encoded
  obtain ⟨trace, times, htrace, rfl, htimes, timed⟩ := exists_trace hts
  have shown {v : Var} (hv : IsPoint N g.guesses v) : ∃ t ∈ trace ++ g.constraints, Shows v t := by
    obtain ⟨t, ht, shown⟩ := exists_shows guessed htimes hv
    exact ⟨t, List.mem_append.2 ((List.mem_append.1 ht).imp_left (timed t)), shown⟩
  have kept {t : Term} (ht : t ∈ trace ++ g.constraints ++ [u]) : t ∈ q.constraints := by
    rw [split]
    simp only [List.mem_append] at ht ⊢
    tauto
  have free (v : Var) : v ∈ freeVarsOf es ∧ v.role = .timestamp ↔ IsPoint N g.guesses v := by
    rw [mem_freeVarsOf]
    constructor
    · rintro ⟨⟨e, he, hv⟩, role⟩
      obtain ⟨t, ht, expands⟩ := exists_of_expandAll expanded e he
      exact isPoint_of_expand h read guessed encoded ht expands hv role
    · intro hv
      obtain ⟨t, ht, shown⟩ := shown hv
      obtain ⟨e, he, expands⟩ :=
        exists_of_mem_expandAll expanded t (kept (List.mem_append_left _ ht))
      cases shown.expand.symm.trans expands
      exact ⟨⟨t, he, shown.mentions⟩, role_of_isPoint guessed hv⟩
  refine ⟨g, trace, u, guessed, htrace, free,
    (freeVarsOf (trace ++ g.constraints ++ [u])).filter fun v => v.role = .timestamp,
    (nodup_freeVarsOf _).filter _, fun v => ?_, fun b => rfl, split, fun b hb ρ holds v hv => ?_⟩
  · rw [List.mem_filter, mem_freeVarsOf, decide_eq_true_iff]
    constructor
    · rintro ⟨⟨t, ht, hv⟩, role⟩
      exact isPoint_of_mentions h read guessed encoded (kept ht) hv role
    · intro hv
      obtain ⟨t, ht, shown⟩ := shown hv
      exact ⟨⟨t, List.mem_append_left _ ht, shown.mentions⟩, role_of_isPoint guessed hv⟩
  · have bound : upTo b v ∈ q.constraints := by
      obtain rfl : T = some b := hb
      rw [split]
      exact List.mem_append_left _ (List.mem_append_left _
        (List.mem_append_right _ (List.mem_map_of_mem hv)))
    obtain ⟨e, he, expands⟩ := exists_of_mem_expandAll expanded _ bound
    cases (expand_of_flowFree rfl).symm.trans expands
    exact holds_timeBound.1 (holds _ he)

def warmLater : Formula :=
  .eventually ⟨some 2, some 3, false, false⟩ (.atom (.cmp .ge temperature (.num .real 21)))

theorem guesses_warmer {g : Formula.Guessed} (h : warmer.guess ⟨1⟩ = .ok g) :
    g.guesses = [(warmLater.text, Symbol.witness 0)] := by
  obtain ⟨_, -, h⟩ := Attempt.bind_eq_ok.1 h
  cases h
  rfl

theorem warmer_time_bounded :
    ofDefinition heater = .ok thermostat ∧
    Formula.ofText thermostat.scope "~hot /\\ <>_[2,3] (x >= 21)" = .ok warmer ∧
    ∃ q es, Search.encode thermostat thermostat.encoder (some 3) warmer 1 = .ok q ∧
      Solver.expandAll 0 q.constraints = .ok es ∧
      Symbol.tau 1 ∈ freeVarsOf es ∧ Symbol.witness 0 ∈ freeVarsOf es ∧
      Symbol.witness 1 ∉ freeVarsOf es ∧ (∃ ρ : Env, ρ.Sorted ∧ ∀ e ∈ es, e.Holds ρ) ∧
      ∀ ρ : Env, (∀ e ∈ es, e.Holds ρ) → ∀ v ∈ [Symbol.tau 1, Symbol.witness 0],
        0 ≤ (ρ.now v).toReal ∧ (ρ.now v).toReal ≤ (3 : Rat) := by
  obtain ⟨q, es, encoded, expanded, ρ, hρ, -, holds⟩ := warmer_satisfied
  obtain ⟨g, _, _, guessed, -, free, points, -, mem, -, -, bound⟩ :=
    time_bound_exact ofDefinition_heater ofText_warmer encoded expanded
  have guesses := guesses_warmer guessed
  have origin {o : Symbol.Origin} (valid : o.Valid)
      (same : (Symbol.Origin.witness 1).symbol .real = o.symbol .real) : .witness 1 = o :=
    Symbol.Origin.eq_of_name trivial valid (congrArg Var.name same)
  have stop : IsPoint 1 g.guesses (Symbol.tau 1) := Or.inl ⟨1, le_rfl, Or.inr rfl⟩
  have soon : IsPoint 1 g.guesses (Symbol.witness 0) :=
    Or.inr ⟨warmLater.text, by rw [guesses]; exact Table.get?_put_self [] _ _⟩
  refine ⟨ofDefinition_heater, ofText_warmer, q, es, encoded, expanded, ((free _).2 stop).1,
    ((free _).2 soon).1, fun second => ?_, ⟨ρ, hρ, holds⟩, fun ρ holds v hv => ?_⟩
  · obtain ⟨k, -, same | same⟩ | ⟨key, hkey⟩ := (free _).1 ⟨second, rfl⟩
    · exact nomatch origin (o := .time k) trivial same
    · exact nomatch origin (o := .tau k) trivial same
    · rw [guesses] at hkey
      have same := congrArg Prod.snd (List.mem_singleton.1 (Table.mem_of_get? hkey))
      exact absurd (origin (o := .witness 0) trivial same) (by decide)
  · refine bound 3 rfl ρ holds v ((mem v).2 ?_)
    rcases List.mem_pair.1 hv with rfl | rfl
    · exact stop
    · exact soon

end Automaton

end HybridCheck
