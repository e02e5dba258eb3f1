import Mathlib.Algebra.BigOperators.Group.List.Basic
import Mathlib.Data.List.Dedup
import Mathlib.Data.Finset.Card
import Mathlib.Data.Finset.Image

/-!
Totals by key.

`tally rs k` is the sum of the amounts that a list of records gives under the
key `k`, and `none` when it gives none. `tally_concat` says what one more record
changes, which is what a table that is kept as the records arrive has to do.
-/

namespace NjuOs.Lib

variable {K M : Type} [DecidableEq K] [AddCommMonoid M]

/-- The sum of the amounts under a key. -/
def totalOf (rs : List (K × M)) (k : K) : M := ((rs.filter fun r => r.1 = k).map Prod.snd).sum

def tally (rs : List (K × M)) (k : K) : Option M :=
  if k ∈ rs.map Prod.fst then some (totalOf rs k) else none

@[simp] theorem tally_nil (k : K) : tally ([] : List (K × M)) k = none := rfl

theorem tally_eq_none {rs : List (K × M)} {k : K} : tally rs k = none ↔ k ∉ rs.map Prod.fst := by
  rw [tally]
  split <;> simp_all

theorem tally_of_mem {rs : List (K × M)} {k : K} (h : k ∈ rs.map Prod.fst) :
    tally rs k = some (totalOf rs k) := if_pos h

theorem totalOf_of_notMem {rs : List (K × M)} {k : K} (h : k ∉ rs.map Prod.fst) :
    totalOf rs k = 0 := by
  have hnone : rs.filter (fun r => r.1 = k) = [] := by
    rw [List.filter_eq_nil_iff]
    intro r hr
    have : r.1 ≠ k := fun heq => h (heq ▸ List.mem_map_of_mem hr)
    simpa using this
  rw [totalOf, hnone, List.map_nil, List.sum_nil]

theorem tally_getD (rs : List (K × M)) (k : K) : (tally rs k).getD 0 = totalOf rs k := by
  by_cases h : k ∈ rs.map Prod.fst
  · rw [tally_of_mem h, Option.getD_some]
  · rw [tally_eq_none.mpr h, Option.getD_none, totalOf_of_notMem h]

theorem totalOf_concat (rs : List (K × M)) (r : K × M) (k : K) :
    totalOf (rs ++ [r]) k = totalOf rs k + if r.1 = k then r.2 else 0 := by
  rw [totalOf, List.filter_append, List.map_append, List.sum_append, totalOf]
  by_cases h : r.1 = k
  · simp [h]
  · simp [h]

/-- One more record. -/
theorem tally_concat (rs : List (K × M)) (r : K × M) (k : K) :
    tally (rs ++ [r]) k = if r.1 = k then some ((tally rs k).getD 0 + r.2) else tally rs k := by
  have hmem : k ∈ (rs ++ [r]).map Prod.fst ↔ k ∈ rs.map Prod.fst ∨ r.1 = k := by
    rw [List.map_append, List.mem_append, List.map_singleton, List.mem_singleton, eq_comm (a := k)]
  rw [tally_getD, tally, tally, totalOf_concat]
  by_cases h : r.1 = k
  · rw [if_pos h, if_pos h, if_pos (hmem.mpr (.inr h))]
  · simp only [hmem, h, or_false, if_false, add_zero]

end NjuOs.Lib
