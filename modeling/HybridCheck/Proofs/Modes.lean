import HybridCheck.Proofs.Reachability

/-!
# The order of modes

Modes may be defined in any order. They are checked one by one, and none of the checks looks at
another mode but for its number, which must be a different one. An accepted automaton lists its
modes by increasing number, so there is only one list that it can have, however the modes were
given and however they were sorted. Therefore the order has no effect on any encoding, and halving
the list finds the mode with a given number.
-/

namespace HybridCheck

/-! ## Halving -/

/-- Up to `n` a test fails on what lies before `lo` and passes on what does not lie before `hi`. -/
structure Narrows (test : Nat → Bool) (n lo hi : Nat) : Prop where
  le : lo ≤ hi
  inside : hi ≤ n
  before : ∀ i < lo, test i = false
  behind : ∀ i, hi ≤ i → i < n → test i = true

variable {test : Nat → Bool} {n lo hi : Nat}

/-- Halving narrows the range in which a test starts to pass to a single position. -/
theorem Narrows.bisect (mono : ∀ i j, i ≤ j → j < n → test i = true → test j = true)
    (h : Narrows test n lo hi) :
    Narrows test n (bisect test lo hi) (bisect test lo hi) := by
  fun_induction HybridCheck.bisect test lo hi with
  | case1 lo hi hlt passes ih =>
    have := h.inside
    refine ih ⟨by omega, by omega, h.before, fun i hi' hn => ?_⟩
    exact mono _ i hi' hn passes
  | case2 lo hi hlt fails ih =>
    have := h.inside
    refine ih ⟨by omega, h.inside, fun i hi' => ?_, h.behind⟩
    rw [← Bool.not_eq_true]
    intro passes
    exact fails (mono i _ (by omega) (by omega) passes)
  | case3 lo hi stop =>
    obtain rfl : lo = hi := by
      have := h.le
      omega
    exact h

theorem narrows_bisect (mono : ∀ i j, i ≤ j → j < n → test i = true → test j = true) :
    Narrows test n (bisect test 0 n) (bisect test 0 n) :=
  Narrows.bisect mono ⟨Nat.zero_le n, le_rfl, fun i hi => absurd hi (Nat.not_lt_zero i),
    fun _ hi hn => absurd hn (Nat.not_lt.2 hi)⟩

namespace Automaton

variable {m : Automaton}

/-- In a list by increasing number, halving finds the mode with a number. -/
theorem mode_of_mem (increasing : m.modes.Pairwise fun a b => a.id < b.id) {md : Mode}
    (h : md ∈ m.modes) : m.mode md.id = .ok md := by
  obtain ⟨k, hk, rfl⟩ := List.mem_iff_getElem.1 h
  have order := List.pairwise_iff_getElem.1 increasing
  have test {i : Nat} (hi : i < m.modes.length) :
      m.modes[i]?.any (m.modes[k].id ≤ ·.id) = true ↔ m.modes[k].id ≤ m.modes[i].id := by
    simp [hi]
  have found : bisect (fun i => m.modes[i]?.any (m.modes[k].id ≤ ·.id)) 0 m.modes.length = k := by
    have narrow := narrows_bisect fun i j hij (hj : j < m.modes.length) passes => by
      have hi : i < m.modes.length := by omega
      rw [test hi] at passes
      rw [test hj]
      rcases Nat.lt_or_eq_of_le hij with hlt | rfl
      · exact passes.trans (order i j hi hj hlt).le
      · exact passes
    apply le_antisymm
    · by_contra hlt
      have fails := narrow.before k (by omega)
      rw [← Bool.not_eq_true, test hk] at fails
      exact fails le_rfl
    · by_contra hlt
      have passes := narrow.behind _ le_rfl (by omega)
      rw [test (by omega)] at passes
      exact absurd (order _ k (by omega) hk (by omega)) (not_lt.2 passes)
  rw [mode, found, List.getElem?_eq_getElem hk]
  exact if_pos rfl

theorem mode_of_notMem {id : Int} (h : ∀ md ∈ m.modes, md.id ≠ id) :
    m.mode id = .error (.unknownMode id) := by
  unfold mode
  split
  · next md hmd => exact if_neg (h md (List.mem_of_getElem? hmd))
  · rfl

end Automaton

namespace Definition

variable {d : Definition}

/-- Modes pass the checks one by one, if their numbers are new and different from each other. -/
theorem checkModes_eq_ok {seen : List Int} {ms : List ModeDef} {mds : List Mode} :
    d.checkModes seen ms = .ok mds ↔ (ms.map (·.id)).Nodup ∧ (∀ x ∈ ms, x.id ∉ seen) ∧
      (∀ x ∈ ms, d.checkMode x = .ok x.complete) ∧ ms.map ModeDef.complete = mds := by
  induction ms generalizing seen mds with
  | nil => simp [checkModes]
  | cons m ms ih =>
    rw [checkModes]
    split
    · next hm => simp [hm]
    · next hm =>
      rw [Attempt.bind_eq_ok]
      constructor
      · rintro ⟨md, hmd, h⟩
        obtain ⟨rest, hrest, h⟩ := Attempt.bind_eq_ok.1 h
        obtain ⟨distinct, fresh, checked, rfl⟩ := ih.1 hrest
        obtain rfl := complete_of_checkMode hmd
        obtain rfl := Except.ok.inj h
        simp only [List.mem_cons, not_or] at fresh
        refine ⟨?_, ?_, ?_, rfl⟩
        · rw [List.map_cons, List.nodup_cons]
          refine ⟨fun hmem => ?_, distinct⟩
          obtain ⟨x, hx, same⟩ := List.mem_map.1 hmem
          exact (fresh x hx).1 same
        · exact List.forall_mem_cons.2 ⟨hm, fun x hx => (fresh x hx).2⟩
        · exact List.forall_mem_cons.2 ⟨hmd, checked⟩
      · rintro ⟨distinct, fresh, checked, rfl⟩
        rw [List.map_cons, List.nodup_cons] at distinct
        obtain ⟨new, distinct⟩ := distinct
        obtain ⟨-, fresh⟩ := List.forall_mem_cons.1 fresh
        obtain ⟨hmd, checked⟩ := List.forall_mem_cons.1 checked
        have apart (x : ModeDef) (hx : x ∈ ms) : x.id ∉ m.id :: seen := by
          rw [List.mem_cons, not_or]
          exact ⟨fun same => new (List.mem_map.2 ⟨x, hx, same⟩), fresh x hx⟩
        exact ⟨_, hmd, Attempt.bind_eq_ok.2 ⟨_, ih.2 ⟨distinct, apart, checked, rfl⟩, rfl⟩⟩

/-! ### Checks that do not look at other modes -/

section

variable (ms : List ModeDef)

theorem checkProps_modes (props : Table Term) :
    { d with modes := ms }.checkProps props = d.checkProps props := by
  induction props with
  | nil => rfl
  | cons e props ih =>
    rw [checkProps, checkProps, ih]
    rfl

theorem checkFlowTerms_modes (place : String) (flow : Flow) (ids : List String) :
    { d with modes := ms }.checkFlowTerms place flow ids = d.checkFlowTerms place flow ids := by
  induction ids with
  | nil => rfl
  | cons id ids ih =>
    rw [checkFlowTerms, checkFlowTerms, ih]
    rfl

theorem checkMode_modes (x : ModeDef) : { d with modes := ms }.checkMode x = d.checkMode x := by
  simp only [checkMode, checkFlowTerms_modes]
  rfl

theorem checkJumps_modes (i : Nat) (js : List JumpDef) :
    { d with modes := ms }.checkJumps i js = d.checkJumps i js := by
  induction js generalizing i with
  | nil => rfl
  | cons j js ih =>
    rw [checkJumps, checkJumps, ih]
    rfl

end

end Definition

namespace Automaton

/-! ## The list of modes -/

variable {d : Definition} {m : Automaton}

theorem nodup_complete {ms : List ModeDef} (distinct : (ms.map (·.id)).Nodup) :
    ((ms.map ModeDef.complete).map (·.id)).Nodup := by
  rw [List.map_map]
  exact distinct

/-- Of modes with different numbers there is only one list by increasing number. -/
theorem eq_of_sorted {xs ys : List Mode} (same : xs.Perm ys) (distinct : (xs.map (·.id)).Nodup)
    (hx : xs.Pairwise fun a b => a.id ≤ b.id) (hy : ys.Pairwise fun a b => a.id ≤ b.id) :
    xs = ys := by
  refine same.eq_of_pairwise (fun a b ha hb hab hba => ?_) hx hy
  exact List.inj_on_of_nodup_map distinct ha (same.mem_iff.2 hb) (le_antisymm hab hba)

theorem sorted_mergeSort (xs : List Mode) :
    (xs.mergeSort fun a b => a.id ≤ b.id).Pairwise fun a b => a.id ≤ b.id := by
  have sorted : (xs.mergeSort fun a b => a.id ≤ b.id).Pairwise fun a b =>
      decide (a.id ≤ b.id) = true :=
    List.pairwise_mergeSort (fun a b c => by simpa using le_trans)
      (fun a b => by simpa using le_total a.id b.id) xs
  simpa using sorted

/-- The modes of an accepted definition have different numbers, and the automaton sorts them. -/
theorem modes_of_ofDefinition (h : ofDefinition d = .ok m) : (d.modes.map (·.id)).Nodup ∧
    m.modes = (d.modes.map ModeDef.complete).mergeSort fun a b => a.id ≤ b.id := by
  obtain ⟨_, -, h⟩ := Attempt.bind_eq_ok.1 h
  obtain ⟨_, -, h⟩ := Attempt.bind_eq_ok.1 h
  obtain ⟨_, -, h⟩ := Attempt.bind_eq_ok.1 h
  split at h
  · cases h
  · obtain ⟨modes, hmodes, h⟩ := Attempt.bind_eq_ok.1 h
    obtain ⟨jumps, -, h⟩ := Attempt.bind_eq_ok.1 h
    obtain ⟨distinct, -, -, rfl⟩ := Definition.checkModes_eq_ok.1 hmodes
    obtain rfl := Except.ok.inj h
    exact ⟨distinct, rfl⟩

/-- A definition with its modes in another order makes the same automaton. -/
theorem ofDefinition_of_perm {ms : List ModeDef} (same : ms.Perm d.modes)
    (h : ofDefinition d = .ok m) : ofDefinition { d with modes := ms } = .ok m := by
  obtain ⟨_, names, h⟩ := Attempt.bind_eq_ok.1 h
  obtain ⟨_, init, h⟩ := Attempt.bind_eq_ok.1 h
  obtain ⟨_, props, h⟩ := Attempt.bind_eq_ok.1 h
  refine Attempt.bind_eq_ok.2 ⟨_, names, Attempt.bind_eq_ok.2 ⟨_, init,
    Attempt.bind_eq_ok.2 ⟨_, (Definition.checkProps_modes ms d.props).trans props, ?_⟩⟩⟩
  split at h
  · cases h
  · next some_mode =>
    obtain ⟨modes, hmodes, h⟩ := Attempt.bind_eq_ok.1 h
    obtain ⟨jumps, hjumps, h⟩ := Attempt.bind_eq_ok.1 h
    obtain ⟨distinct, fresh, checked, rfl⟩ := Definition.checkModes_eq_ok.1 hmodes
    obtain rfl := Except.ok.inj h
    have distinct' : (ms.map (·.id)).Nodup := (same.map _).nodup_iff.2 distinct
    have hmodes' : { d with modes := ms }.checkModes [] ms = .ok (ms.map ModeDef.complete) := by
      refine Definition.checkModes_eq_ok.2 ⟨distinct', fun _ _ => List.not_mem_nil, ?_, rfl⟩
      intro x hx
      rw [Definition.checkMode_modes]
      exact checked x (same.mem_iff.1 hx)
    have sorted : (ms.map ModeDef.complete).mergeSort (fun a b => a.id ≤ b.id) =
        (d.modes.map ModeDef.complete).mergeSort fun a b => a.id ≤ b.id := by
      refine eq_of_sorted ?_ ?_ (sorted_mergeSort _) (sorted_mergeSort _)
      · exact (List.mergeSort_perm ..).trans ((same.map _).trans (List.mergeSort_perm ..).symm)
      · exact ((List.mergeSort_perm ..).map _).nodup_iff.2 (nodup_complete distinct')
    have nonempty : ms.isEmpty = d.modes.isEmpty := by
      rw [Bool.eq_iff_iff, List.isEmpty_iff, List.isEmpty_iff]
      exact ⟨fun h => by rw [h] at same; exact same.nil_eq.symm,
        fun h => by rw [h] at same; exact same.eq_nil⟩
    rw [if_neg (by rw [nonempty]; exact some_mode)]
    refine Attempt.bind_eq_ok.2 ⟨_, hmodes', Attempt.bind_eq_ok.2
      ⟨_, (Definition.checkJumps_modes ms 0 d.jumps).trans hjumps, ?_⟩⟩
    rw [sorted]
    rfl

/-- Definitions with the same modes in different orders are both refused, or they make the same
automaton, with the same constraints. It lists the modes by increasing number, as any sorting of
them does, and each mode is found by its number. -/
theorem modes_order_irrelevant {ms : List ModeDef} (same : ms.Perm d.modes) :
    (∀ m, ofDefinition { d with modes := ms } = .ok m ↔ ofDefinition d = .ok m) ∧
    (∀ m m', ofDefinition d = .ok m → ofDefinition { d with modes := ms } = .ok m' →
      (∀ bound, m'.unroll bound = m.unroll bound) ∧
      (∀ time k props, m'.propConstraint time k props = m.propConstraint time k props) ∧
      ∀ c k offset, m'.constraintAt c k offset = m.constraintAt c k offset) ∧
    ∀ m, ofDefinition d = .ok m →
      m.modes.Pairwise (fun a b => a.id < b.id) ∧
      (∀ xs, xs.Perm (ms.map ModeDef.complete) → xs.Pairwise (fun a b => a.id ≤ b.id) →
        xs = m.modes) ∧
      (∀ x ∈ d.modes, m.mode x.id = .ok x.complete) ∧
      ∀ id, (∀ x ∈ d.modes, x.id ≠ id) → m.mode id = .error (.unknownMode id) := by
  have both (m : Automaton) :
      ofDefinition { d with modes := ms } = .ok m ↔ ofDefinition d = .ok m :=
    ⟨ofDefinition_of_perm same.symm, ofDefinition_of_perm same⟩
  refine ⟨both, fun m m' h h' => ?_, fun m h => ?_⟩
  · obtain rfl : m = m' := Except.ok.inj (h.symm.trans ((both m').1 h'))
    exact ⟨fun _ => rfl, fun _ _ _ => rfl, fun _ _ _ => rfl⟩
  · obtain ⟨distinct, hmodes⟩ := modes_of_ofDefinition h
    have perm : m.modes.Perm (d.modes.map ModeDef.complete) := by
      rw [hmodes]
      exact List.mergeSort_perm ..
    have sorted : m.modes.Pairwise fun a b => a.id ≤ b.id := by
      rw [hmodes]
      exact sorted_mergeSort _
    have distinct' : (m.modes.map (·.id)).Nodup :=
      (perm.map _).nodup_iff.2 (nodup_complete distinct)
    have increasing : m.modes.Pairwise fun a b => a.id < b.id :=
      sorted.imp₂ (fun _ _ => lt_of_le_of_ne) (List.pairwise_map.1 distinct')
    refine ⟨increasing, fun xs hxs order => ?_, fun x hx => ?_, fun id fresh => ?_⟩
    · have perm' := hxs.trans ((same.map _).trans perm.symm)
      exact eq_of_sorted perm' ((perm'.map _).nodup_iff.2 distinct') order sorted
    · exact mode_of_mem increasing (perm.mem_iff.2 (List.mem_map_of_mem hx))
    · refine mode_of_notMem fun md hmd => ?_
      obtain ⟨x, hx, rfl⟩ := List.mem_map.1 (perm.mem_iff.1 hmd)
      exact fresh x hx

theorem heater_modes_reversed :
    heater.modes.reverse.Perm heater.modes ∧
    ofDefinition { heater with modes := heater.modes.reverse } = .ok thermostat ∧
    thermostat.modes.map (·.id) = [0, 1] ∧
    (thermostat.mode 1).map (·.name) = .ok "mode1" ∧
    thermostat.mode 2 = .error (.unknownMode 2) := by
  have same : heater.modes.reverse.Perm heater.modes := List.reverse_perm _
  obtain ⟨both, -, lookup⟩ := modes_order_irrelevant same
  obtain ⟨-, -, found, missing⟩ := lookup thermostat ofDefinition_heater
  refine ⟨same, (both thermostat).2 ofDefinition_heater, rfl, ?_, missing 2 (by decide)⟩
  have first : thermostat.mode 1 = .ok _ := found _ List.mem_cons_self
  rw [first]
  rfl

end Automaton

end HybridCheck
