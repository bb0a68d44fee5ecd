import HybridCheck.Formula.Timeline
import HybridCheck.Proofs.Constraint
import Mathlib.Tactic.Linarith

/-!
# Segments of a timeline

The segments of a trace cover it, and if time moves on from segment to segment then no instant lies
in two of them: all but the last are open on the right.
-/

namespace HybridCheck.Timeline

def Contains (ρ : Env) (N k : Nat) (u : ℝ) : Prop :=
  (start k).amount ρ ≤ u ∧ if k = N then u ≤ (stop k).amount ρ else u < (stop k).amount ρ

/-- Time starts at zero at the earliest and moves on from segment to segment. -/
def Increasing (ρ : Env) (N : Nat) : Prop :=
  0 ≤ (stop 0).amount ρ ∧ ∀ k : Nat, k < N → (stop k).amount ρ < (stop (k + 1)).amount ρ

theorem amount_start {judge : Term.Judge} (k : Int) : (start k).Amount judge := by
  unfold start
  split
  · exact Term.amount_zero
  · exact Term.amount_var rfl

theorem amount_stop {judge : Term.Judge} (k : Int) : (stop k).Amount judge := Term.amount_var rfl

variable {ρ : Env} {N : Nat}

theorem start_succ (k : Nat) : start ((k + 1 : Nat) : Int) = stop k := by
  rw [start, if_neg (by omega), stop]
  congr 2
  omega

theorem Increasing.stop_lt (h : Increasing ρ N) {j k : Nat} (hjk : j < k) (hk : k ≤ N) :
    (stop j).amount ρ < (stop k).amount ρ := by
  induction k, hjk using Nat.le_induction with
  | base => exact h.2 j hk
  | succ k hjk ih => exact (ih (by omega)).trans (h.2 k hk)

theorem exists_contains {u : ℝ} (h0 : 0 ≤ u)
    (hu : u ≤ (stop N).amount ρ) : ∃ k ≤ N, Contains ρ N k u := by
  classical
  have last : ∃ k : Nat, N ≤ k ∨ u < (stop k).amount ρ := ⟨N, Or.inl le_rfl⟩
  have least : Nat.find last ≤ N := Nat.find_min' last (Or.inl le_rfl)
  refine ⟨Nat.find last, least, ?_, ?_⟩
  · cases hk : Nat.find last with
    | zero =>
      have : (start 0).amount ρ = 0 := by simp [start, Term.zero, Term.amount_real_eq]
      exact this.trans_le h0
    | succ j =>
      have before := Nat.find_min last (m := j) (by omega)
      rw [start_succ]
      exact not_lt.1 fun hj => before (Or.inr hj)
  · split
    · next hN =>
      rw [hN]
      exact hu
    · next hN => exact (Nat.find_spec last).resolve_left (by omega)

theorem Increasing.contains_le (h : Increasing ρ N) {j k : Nat} {u : ℝ} (hk : k ≤ N)
    (hj : Contains ρ N j u) (hu : Contains ρ N k u) : k ≤ j := by
  by_contra! hjk
  obtain ⟨k, rfl⟩ : ∃ i, k = i + 1 := ⟨k - 1, by omega⟩
  have below := hj.2
  rw [if_neg (by omega)] at below
  have above := hu.1
  rw [start_succ] at above
  have between : (stop j).amount ρ ≤ (stop k).amount ρ := by
    rcases Nat.lt_or_ge j k with hlt | hge
    · exact (h.stop_lt hlt (by omega)).le
    · rw [show j = k by omega]
  linarith

/-- Every instant of a trace lies in exactly one segment. -/
theorem Increasing.contains_unique (h : Increasing ρ N) {j k : Nat} {u : ℝ} (hj : j ≤ N)
    (hk : k ≤ N) (hju : Contains ρ N j u) (hku : Contains ρ N k u) : j = k :=
  le_antisymm (h.contains_le hj hku hju) (h.contains_le hk hju hku)

end HybridCheck.Timeline
