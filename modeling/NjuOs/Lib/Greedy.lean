import Mathlib.Data.List.Nodup

/-!
A greedy choice: a list is gone through once, and the first item of every key
that passes a test is taken. An item that is taken uses its key up.
-/

namespace NjuOs.Lib

variable {α κ : Type} [DecidableEq κ]

/-- The items that are taken. The test of the rest knows which keys are used up. -/
def firsts (ok : α → Bool) (key : α → κ) : List α → List α
  | [] => []
  | a :: as =>
      if ok a then a :: firsts (fun b => ok b && key b ≠ key a) key as
      else firsts ok key as

variable {ok : α → Bool} {key : α → κ}

/-- What is taken of a key is the first item that passes. -/
theorem mem_firsts {b : α} (as : List α) :
    b ∈ firsts ok key as ↔ as.find? (fun a => ok a && key a = key b) = some b := by
  induction as generalizing ok with
  | nil => simp [firsts]
  | cons a as ih =>
      rw [firsts]
      by_cases hok : ok a = true
      · rw [if_pos hok, List.mem_cons, ih]
        by_cases hkey : key a = key b
        · -- the key is used up by `a`
          have hnone : as.find? (fun c => (ok c && key c ≠ key a) && key c = key b) = none := by
            rw [List.find?_eq_none]
            intro c _
            simp [hkey]
          rw [List.find?_cons_of_pos (by simp [hok, hkey]), hnone]
          simp [eq_comm]
        · have hother : ∀ c, ((ok c && key c ≠ key a) && key c = key b) =
              (ok c && key c = key b) := by
            intro c
            by_cases hc : key c = key b
            · simp [hc, Ne.symm hkey]
            · simp [hc]
          have hne : b ≠ a := fun h => hkey (congrArg key h.symm)
          rw [List.find?_cons_of_neg (by simp [hkey]), or_iff_right hne]
          simp only [hother]
      · rw [if_neg hok, List.find?_cons_of_neg (by simp [hok]), ih]

/-- No key is used twice. -/
theorem nodup_keys_firsts (as : List α) : ((firsts ok key as).map key).Nodup := by
  induction as generalizing ok with
  | nil => exact List.nodup_nil
  | cons a as ih =>
      rw [firsts]
      split
      case isTrue =>
        rw [List.map_cons, List.nodup_cons]
        refine ⟨fun hmem => ?_, ih⟩
        obtain ⟨b, hb, hkey⟩ := List.mem_map.mp hmem
        have hfound := List.find?_some ((mem_firsts as).mp hb)
        simp [hkey] at hfound
      case isFalse => exact ih

end NjuOs.Lib
