import HybridCheck.Proofs.TraceConstraints
import HybridCheck.Proofs.Valuation
import Mathlib.Algebra.BigOperators.Intervals

/-!
# The order of time

The timestamps of a trace order it: every step but the first takes some time, and a step ends when
the durations up to it have passed. So the segments of the timeline cut the trace into parts: an
instant lies in the trace exactly if it lies in one segment and in no other. All segments but the
last are open on the right, which gives the instant of a jump to the later one, and leaves the first
segment empty if it takes no time.
-/

namespace HybridCheck

open Term HybridCheck.Symbol

namespace Trajectory

variable {N k : Nat} {r : Trajectory}

theorem Elapses.stop_lt (h : r.Elapses N) {j : Nat} (hjk : j < k) (hk : k ≤ N) :
    (r j).stop < (r k).stop := by
  obtain ⟨k, rfl⟩ : ∃ i, k = i + 1 := ⟨k - 1, by omega⟩
  exact (h.stop_le (Nat.lt_succ_iff.1 hjk) (by omega)).trans_lt (h.increasing k hk)

/-- A step after the first ends later than the step before by its duration, which is positive. -/
theorem Elapses.lasts (h : r.Elapses N) (hk : k + 1 ≤ N) :
    (r (k + 1)).duration = (r (k + 1)).stop - (r k).stop ∧ 0 < (r (k + 1)).duration := by
  have duration : (r (k + 1)).duration = (r (k + 1)).stop - (r k).stop := h.duration (k + 1) hk
  exact ⟨duration, duration ▸ sub_pos.2 (h.increasing k hk)⟩

/-- A step ends when the durations up to it have passed. -/
theorem Elapses.stop_eq_sum (h : r.Elapses N) (hk : k ≤ N) :
    (r k).stop = ∑ i ∈ Finset.range (k + 1), (r i).duration := by
  induction k with
  | zero =>
    have duration : (r 0).duration = (r 0).stop - 0 := h.duration 0 hk
    rw [Finset.sum_range_one, duration, sub_zero]
  | succ k ih =>
    rw [Finset.sum_range_succ, ← ih (by omega), (h.lasts hk).1]
    ring

end Trajectory

namespace Timeline

variable {ρ : Env} {N k : Nat} {u : ℝ}

/-- Every segment lies inside the trace. -/
theorem Increasing.inside (h : Increasing ρ N) (hk : k ≤ N) (hu : Contains ρ N k u) :
    0 ≤ u ∧ u ≤ (stop N).amount ρ := by
  have ends (j : Nat) (hj : j ≤ N) : (stop j).amount ρ ≤ (stop N).amount ρ := by
    rcases hj.eq_or_lt with rfl | hlt
    · exact le_rfl
    · exact (h.stop_lt hlt le_rfl).le
  have begins : 0 ≤ (start k).amount ρ := by
    cases k with
    | zero => simp [start]
    | succ k =>
      rw [start_succ]
      rcases k.eq_zero_or_pos with rfl | hpos
      · exact h.1
      · exact h.1.trans (h.stop_lt hpos (by omega)).le
  refine ⟨begins.trans hu.1, le_trans ?_ (ends k hk)⟩
  have below := hu.2
  split at below
  · exact below
  · exact below.le

/-- An instant lies in the trace exactly if it lies in one segment only. -/
theorem Increasing.existsUnique_contains (h : Increasing ρ N) :
    (0 ≤ u ∧ u ≤ (stop N).amount ρ) ↔ ∃! k : Nat, k ≤ N ∧ Contains ρ N k u := by
  constructor
  · rintro ⟨h0, hu⟩
    obtain ⟨k, hk, contains⟩ := exists_contains h0 hu
    exact ⟨k, ⟨hk, contains⟩, fun j hj => h.contains_unique hj.1 hk hj.2 contains⟩
  · rintro ⟨k, ⟨hk, contains⟩, -⟩
    exact h.inside hk contains

end Timeline

/-- Where the timestamps of a trace hold, time starts at zero at the earliest and moves on from jump
to jump, the instants are the sums of the durations, and an instant lies in the trace exactly if it
lies in one of the segments and in no other. -/
theorem timestamps_partition (N : Nat) : ∃ ts, Automaton.timestamps N = .ok ts ∧
    ∀ ρ : Env, ρ.Sorted → (∀ t ∈ ts, t.Holds ρ) →
      (0 ≤ (var (tau 0)).amount ρ ∧ ∀ j k : Nat, j < k → k ≤ N →
        (var (tau j)).amount ρ < (var (tau k)).amount ρ) ∧
      (var (time 0)).amount ρ = (var (tau 0)).amount ρ ∧
      (∀ k : Nat, k + 1 ≤ N → (var (time (k + 1 : Nat))).amount ρ =
          (var (tau (k + 1 : Nat))).amount ρ - (var (tau k)).amount ρ ∧
        0 < (var (time (k + 1 : Nat))).amount ρ) ∧
      (∀ k ≤ N, (var (tau k)).amount ρ =
        ∑ i ∈ Finset.range (k + 1), (var (time i)).amount ρ) ∧
      ∀ (u : ℝ) (t : Term), t.Amount noFlow → t.amount ρ = u →
        ((Timeline.domain ⟨N⟩ t).Holds ρ ↔
          ∃! k : Nat, k ≤ N ∧ (Timeline.within ⟨N⟩ k t).Holds ρ) ∧
        ∀ k : Nat, k ≤ N → (Timeline.within ⟨N⟩ k t).Holds ρ →
          0 ≤ u ∧ u ≤ (var (tau N)).amount ρ := by
  -- any automaton will do, since time is read alike in the runs of all of them
  obtain ⟨ts, hts, -, meaning⟩ := Automaton.timestamps_spec ⟨[], [], [], .top, [], [], ""⟩ N
  refine ⟨ts, hts, fun ρ hρ holds => ?_⟩
  have elapses := (meaning.holds ρ hρ).1 holds
  have increasing := elapses.timeline
  refine ⟨⟨elapses.first, fun j k hjk hk => elapses.stop_lt hjk hk⟩, ?_,
    fun k hk => elapses.lasts hk, fun k hk => elapses.stop_eq_sum hk, ?_⟩
  · exact (elapses.duration 0 N.zero_le).trans (sub_zero _)
  · rintro u t amount rfl
    have inside (k : Nat) : (Timeline.within ⟨N⟩ k t).Holds ρ ↔
        Timeline.Contains ρ N k (t.amount ρ) :=
      holds_within amount (Near.refl hρ.typed) k
    simp only [inside]
    exact ⟨((domain_spec amount).2 ρ hρ.typed).trans increasing.existsUnique_contains,
      fun k hk contains => increasing.inside hk contains⟩

noncomputable def twoSteps : Env := (Env.blank.set (tau 1) (.number 1)).set (time 1) (.number 1)

theorem twoSteps_sorted : twoSteps.Sorted :=
  (Env.blank_sorted.set (v := tau 1) ⟨1, rfl⟩).set (v := time 1) ⟨1, rfl⟩

theorem amount_twoSteps {v : Var} (hv : v.sort = .real) :
    (var v).amount twoSteps = if v = time 1 ∨ v = tau 1 then 1 else 0 := by
  by_cases htime : v = time 1
  · simp [htime, amount, eval, twoSteps]
  · by_cases htau : v = tau 1
    · simp [htau, amount, eval, twoSteps, Env.set, time, tau]
    · simp [htime, htau, amount, eval, twoSteps, Env.set, Env.blank, hv]

/-- The instant of the jump lies in the second segment alone, although the first ends there. -/
theorem timestamps_partition_jump : twoSteps.Sorted ∧
    ∃ ts, Automaton.timestamps 1 = .ok ts ∧ (∀ t ∈ ts, t.Holds twoSteps) ∧
      (var (tau 0)).amount twoSteps < (var (tau 1)).amount twoSteps ∧
      (var (instant 0)).amount twoSteps = (var (tau 0)).amount twoSteps ∧
      ((Timeline.domain ⟨1⟩ (var (instant 0))).Holds twoSteps ↔
        ∃! k : Nat, k ≤ 1 ∧ (Timeline.within ⟨1⟩ k (var (instant 0))).Holds twoSteps) := by
  obtain ⟨ts, hts, partition⟩ := timestamps_partition 1
  obtain ⟨ts', hts', -, meaning⟩ := Automaton.timestamps_spec ⟨[], [], [], .top, [], [], ""⟩ 1
  cases hts.symm.trans hts'
  have nothing {v : Var} (hv : v.sort = .real) (h : ¬(v = time 1 ∨ v = tau 1)) :
      (twoSteps.now v).toReal = 0 := (amount_twoSteps hv).trans (if_neg h)
  have one {v : Var} (hv : v.sort = .real) (h : v = time 1 ∨ v = tau 1) :
      (twoSteps.now v).toReal = 1 := (amount_twoSteps hv).trans (if_pos h)
  have first : (twoSteps.now (tau 0)).toReal = 0 := nothing rfl (by decide)
  have last : (twoSteps.now (tau 1)).toReal = 1 := one rfl (Or.inr rfl)
  have holds : ∀ t ∈ ts, t.Holds twoSteps := by
    refine (meaning.holds twoSteps twoSteps_sorted).2 ⟨fun k hk => ?_, first.ge, fun k hk => ?_⟩
    · obtain rfl | rfl := Nat.le_one_iff_eq_zero_or_eq_one.1 hk
      · have duration : (twoSteps.now (time 0)).toReal = 0 := nothing rfl (by decide)
        exact duration.trans ((sub_zero _).trans first).symm
      · have duration : (twoSteps.now (time 1)).toReal = 1 := one rfl (Or.inl rfl)
        exact duration.trans ((congrArg₂ _ last first).trans (sub_zero 1)).symm
    · obtain rfl := Nat.lt_one_iff.1 hk
      exact first.trans_lt (one_pos.trans_eq last.symm)
  obtain ⟨⟨-, advances⟩, -, -, -, segments⟩ := partition twoSteps twoSteps_sorted holds
  refine ⟨twoSteps_sorted, ts, hts, holds, advances 0 1 one_pos le_rfl, ?_,
    (segments _ (var (instant 0)) (amount_var rfl) rfl).1⟩
  rw [amount_twoSteps rfl, amount_twoSteps rfl]
  rfl

end HybridCheck
