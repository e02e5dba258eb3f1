import Mathlib.Algebra.Order.BigOperators.Group.Finset

/-!
Where the partial sums of a sequence pass a threshold.

With elements that are not negative there is at most one such index, and one if the
whole sum is above the threshold.
-/

namespace NjuOs.Lib

variable {K : Type} [AddCommMonoid K] [LinearOrder K]

/-- The elements in front of `i` do not pass `c`, with element `i` they do. -/
def Crosses (p : Nat → K) (c : K) (i : Nat) : Prop :=
  ∑ j ∈ Finset.range i, p j ≤ c ∧ c < ∑ j ∈ Finset.range (i + 1), p j

variable {p : Nat → K} {c : K} {n i j : Nat}

theorem exists_crosses (hc : 0 ≤ c) (h : c < ∑ j ∈ Finset.range n, p j) :
    ∃ i < n, Crosses p c i := by
  induction n with
  | zero => exact absurd h (not_lt.mpr hc)
  | succ n ih =>
      rcases lt_or_ge c (∑ j ∈ Finset.range n, p j) with hbefore | hle
      · obtain ⟨i, hi, hcross⟩ := ih hbefore
        exact ⟨i, Nat.lt_succ_of_lt hi, hcross⟩
      · exact ⟨n, Nat.lt_succ_self n, hle, h⟩

variable [IsOrderedAddMonoid K]

theorem sum_range_mono (hp : ∀ k < n, 0 ≤ p k) (hij : i ≤ j) (hj : j ≤ n) :
    ∑ k ∈ Finset.range i, p k ≤ ∑ k ∈ Finset.range j, p k :=
  Finset.sum_le_sum_of_subset_of_nonneg (Finset.range_mono hij) fun k hk _ =>
    hp k (Nat.lt_of_lt_of_le (Finset.mem_range.mp hk) hj)

/-- The sums stay below the threshold up to the index. -/
theorem Crosses.sum_le (hp : ∀ k < n, 0 ≤ p k) (h : Crosses p c j) (hj : j < n) (hij : i ≤ j) :
    ∑ k ∈ Finset.range i, p k ≤ c := (sum_range_mono hp hij hj.le).trans h.1

theorem Crosses.unique (hp : ∀ k < n, 0 ≤ p k) (hi : i < n) (hj : j < n) (h : Crosses p c i)
    (h' : Crosses p c j) : i = j := by
  rcases Nat.lt_trichotomy i j with hlt | heq | hlt
  · exact absurd h.2 (not_lt.mpr (h'.sum_le hp hj hlt))
  · exact heq
  · exact absurd h'.2 (not_lt.mpr (h.sum_le hp hi hlt))

end NjuOs.Lib
