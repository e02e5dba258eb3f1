import Mathlib.Data.List.Sort

/-!
Sorting with a comparison function that answers with an integer.

A sorting function owes a sorted array only to comparison functions that are
consistent on its elements (`LawfulCompar`); for others it can return anything.
`ConformingQsort` says no more than that, so what follows from it holds of every
implementation. `mergeQsort` is one that asks for negative answers only, and
`fallbackQsort` one that does a given thing to comparison functions that are not
consistent.
-/

namespace NjuOs.Lib

variable {α : Type} {compar : α → α → Int} {xs : List α}

/-- The comparison function is consistent on the elements of a list. -/
structure LawfulCompar (compar : α → α → Int) (xs : List α) : Prop where
  antisymm : ∀ a ∈ xs, ∀ b ∈ xs, (compar a b).sign = -(compar b a).sign
  less_trans : ∀ a ∈ xs, ∀ b ∈ xs, ∀ c ∈ xs, compar a b < 0 → compar b c < 0 → compar a c < 0
  equal_trans : ∀ a ∈ xs, ∀ b ∈ xs, ∀ c ∈ xs, compar a b = 0 → compar b c = 0 → compar a c = 0

/-- What `qsort` promises. -/
structure ConformingQsort (qsort : (α → α → Int) → List α → List α) : Prop where
  perm {compar : α → α → Int} {xs : List α} : LawfulCompar compar xs → (qsort compar xs).Perm xs
  sorted {compar : α → α → Int} {xs : List α} : LawfulCompar compar xs →
    (qsort compar xs).Pairwise fun a b => compar a b ≤ 0

/-! ### Consistent comparisons -/

section Lawful

variable (h : LawfulCompar compar xs) {a b c : α}
include h

theorem LawfulCompar.neg_iff (ha : a ∈ xs) (hb : b ∈ xs) : compar a b < 0 ↔ 0 < compar b a := by
  have hsign := h.antisymm a ha b hb
  rw [← Int.sign_eq_neg_one_iff_neg, ← Int.sign_eq_one_iff_pos, hsign, Int.neg_inj]

theorem LawfulCompar.eq_zero_iff (ha : a ∈ xs) (hb : b ∈ xs) :
    compar a b = 0 ↔ compar b a = 0 := by
  have hsign := h.antisymm a ha b hb
  rw [← Int.sign_eq_zero_iff_zero, ← Int.sign_eq_zero_iff_zero (a := compar b a), hsign,
    Int.neg_eq_zero]

theorem LawfulCompar.total (ha : a ∈ xs) (hb : b ∈ xs) : compar a b ≤ 0 ∨ compar b a ≤ 0 := by
  by_cases hle : compar a b ≤ 0
  · exact .inl hle
  · exact .inr ((h.neg_iff hb ha).mpr (by omega)).le

theorem LawfulCompar.le_trans (ha : a ∈ xs) (hb : b ∈ xs) (hc : c ∈ xs)
    (hab : compar a b ≤ 0) (hbc : compar b c ≤ 0) : compar a c ≤ 0 := by
  by_contra hac
  have hca : compar c a < 0 := (h.neg_iff hc ha).mpr (by omega)
  rcases hab.lt_or_eq with hlt | heq
  · have hcb := h.less_trans c hc a ha b hb hca hlt
    have := (h.neg_iff hc hb).mp hcb
    omega
  · rcases hbc.lt_or_eq with hlt | heq'
    · have hba := h.less_trans b hb c hc a ha hlt hca
      have := (h.eq_zero_iff ha hb).mp heq
      omega
    · exact hac (h.equal_trans a ha b hb c hc heq heq').le

end Lawful

/-! ### Some implementations -/

/-- Merging, where two elements change places on a negative answer only. -/
def mergeQsort (compar : α → α → Int) (xs : List α) : List α :=
  xs.mergeSort fun a b => !decide (compar b a < 0)

theorem conforming_mergeQsort : ConformingQsort (@mergeQsort α) where
  perm _ := List.mergeSort_perm _ _
  sorted {compar xs} h := by
    -- the laws hold for the elements of the list only
    have hattach : mergeQsort compar xs =
        (xs.attach.mergeSort fun a b => !decide (compar b.1 a.1 < 0)).map Subtype.val := by
      rw [List.map_mergeSort (s := fun a b => !decide (compar b a < 0)) fun _ _ _ _ => rfl,
        List.attach_map_subtype_val]
      rfl
    have hle : ∀ a b : {a // a ∈ xs}, ¬ compar b.1 a.1 < 0 ↔ compar a.1 b.1 ≤ 0 := by
      intro a b
      rw [h.neg_iff b.2 a.2, not_lt]
    rw [hattach, List.pairwise_map]
    refine (List.pairwise_mergeSort ?_ ?_ xs.attach).imp fun {a b} hab => ?_
    · intro a b c hab hbc
      simp only [Bool.not_eq_true', decide_eq_false_iff_not, hle] at hab hbc ⊢
      exact h.le_trans a.2 b.2 c.2 hab hbc
    · intro a b
      simp only [Bool.or_eq_true, Bool.not_eq_true', decide_eq_false_iff_not, hle]
      exact h.total a.2 b.2
    · simpa only [Bool.not_eq_true', decide_eq_false_iff_not, hle] using hab

/-- It does nothing when there is no negative answer. -/
theorem mergeQsort_eq_self (h : ∀ a b, 0 ≤ compar a b) (xs : List α) :
    mergeQsort compar xs = xs := by
  refine List.mergeSort_of_pairwise (List.pairwise_iff_forall_sublist.mpr fun {a b} _ => ?_)
  simpa using h b a

section Fallback

open Classical in
/-- A comparison function that is not consistent can have any effect. -/
noncomputable def fallbackQsort (fallback : List α → List α) (compar : α → α → Int)
    (xs : List α) : List α :=
  if LawfulCompar compar xs then mergeQsort compar xs else fallback xs

theorem conforming_fallbackQsort (fallback : List α → List α) :
    ConformingQsort (fallbackQsort fallback) where
  perm h := by
    rw [fallbackQsort, if_pos h]
    exact conforming_mergeQsort.perm h
  sorted h := by
    rw [fallbackQsort, if_pos h]
    exact conforming_mergeQsort.sorted h

theorem fallbackQsort_of_not_lawful {fallback : List α → List α} (h : ¬ LawfulCompar compar xs) :
    fallbackQsort fallback compar xs = fallback xs := by
  rw [fallbackQsort, if_neg h]

end Fallback

/-! ### The first elements -/

/-- What is in front of a place of a sorted list and what is behind it. -/
theorem pairwise_take_drop {r : α → α → Prop} (h : xs.Pairwise r) (n : Nat) :
    (xs.take n).Pairwise r ∧ ∀ a ∈ xs.take n, ∀ b ∈ xs.drop n, r a b := by
  rw [← List.take_append_drop n xs, List.pairwise_append] at h
  exact ⟨h.1, h.2.2⟩

end NjuOs.Lib
