import Mathlib.Data.List.TakeWhile

/-!
`strtok` with one separator.

It returns the words of a string one at a time, and writes a 0 over the separator behind each of
them. `wordsOf` is all of the words; `wordsOf_of_strtok` is the step of a loop that asks for
one after another.
-/

namespace NjuOs.Lib

variable {α : Type} [DecidableEq α] {sep : α} {s word : List α} {rest : Option (List α)}

/-- The next word of a string, and what is behind the separator that is overwritten. -/
def strtok (sep : α) (s : List α) : Option (List α × Option (List α)) :=
  let s := s.dropWhile (· = sep)
  if s = [] then none else some (s.takeWhile (· ≠ sep), (s.dropWhile (· ≠ sep)).tail?)

/-- What is between the separators, as far as it is not empty. -/
def wordsOf (sep : α) (s : List α) : List (List α) := (s.splitOn sep).filter (· ≠ [])

theorem wordsOf_nil : wordsOf sep [] = [] := rfl

theorem wordsOf_cons_sep (s : List α) : wordsOf sep (sep :: s) = wordsOf sep s := by
  have hsplit : (sep :: s).splitOn sep = [] :: s.splitOn sep :=
    List.splitOn_append_cons_self_of_not_mem (List.not_mem_nil) s
  rw [wordsOf, hsplit, List.filter_cons_of_neg (by simp), wordsOf]

theorem wordsOf_word (hne : word ≠ []) (h : sep ∉ word) (s : List α) :
    wordsOf sep (word ++ sep :: s) = word :: wordsOf sep s := by
  rw [wordsOf, List.splitOn_append_cons_self_of_not_mem h, List.filter_cons_of_pos (by simpa),
    wordsOf]

theorem wordsOf_last (hne : word ≠ []) (h : sep ∉ word) : wordsOf sep word = [word] := by
  rw [wordsOf, List.splitOn_eq_singleton h, List.filter_cons_of_pos (by simpa), List.filter_nil]

theorem wordsOf_dropWhile (s : List α) : wordsOf sep (s.dropWhile (· = sep)) = wordsOf sep s := by
  induction s with
  | nil => rfl
  | cons c s ih =>
      rw [List.dropWhile_cons]
      split_ifs with hc
      · rw [ih, of_decide_eq_true hc, wordsOf_cons_sep]
      · rfl

theorem wordsOf_of_strtok_eq_none (h : strtok sep s = none) : wordsOf sep s = [] := by
  rw [strtok] at h
  split_ifs at h with hend
  rw [← wordsOf_dropWhile, hend, wordsOf_nil]

/-- The word is in front of what is left, with a separator between them unless it is the last. -/
theorem strtok_eq_some (h : strtok sep s = some (word, rest)) : word ≠ [] ∧ sep ∉ word ∧
    s.dropWhile (· = sep) = word ++ rest.elim [] fun behind => sep :: behind := by
  rw [strtok] at h
  split_ifs at h with hend
  obtain ⟨rfl, rfl⟩ := Prod.mk.inj (Option.some.inj h)
  refine ⟨fun hnil => ?_, fun hmem => by simpa using List.mem_takeWhile_imp hmem, ?_⟩
  · have hstart := List.head?_dropWhile_not (fun c => decide (c = sep)) s
    obtain ⟨c, t, ht⟩ := List.exists_cons_of_ne_nil hend
    rw [ht] at hstart hnil
    have hc : c ≠ sep := by simpa using hstart
    simp [hc] at hnil
  · generalize s.dropWhile (· = sep) = t
    have hsplit : t.takeWhile (· ≠ sep) ++ t.dropWhile (· ≠ sep) = t :=
      List.takeWhile_append_dropWhile
    cases hbehind : t.dropWhile (· ≠ sep) with
    | nil => rw [List.tail?_nil, Option.elim_none, ← hbehind, hsplit]
    | cons c behind =>
        have hstop := List.head?_dropWhile_not (fun c => decide (c ≠ sep)) t
        rw [hbehind] at hstop
        have hc : c = sep := by simpa using hstop
        rw [List.tail?_cons, Option.elim_some, ← hc, ← hbehind, hc, hsplit]

/-- A word is taken from the front, and the others are found behind it. -/
theorem wordsOf_of_strtok (h : strtok sep s = some (word, rest)) :
    wordsOf sep s = word :: wordsOf sep (rest.getD []) := by
  obtain ⟨hne, hsep, hsplit⟩ := strtok_eq_some h
  rw [← wordsOf_dropWhile, hsplit]
  cases rest with
  | none => rw [Option.elim_none, List.append_nil, wordsOf_last hne hsep]; rfl
  | some behind => exact wordsOf_word hne hsep behind

theorem length_lt_of_strtok (h : strtok sep s = some (word, rest)) :
    (rest.getD []).length < s.length := by
  obtain ⟨hne, -, hsplit⟩ := strtok_eq_some h
  have hword := List.length_pos_iff.mpr hne
  have hle := (List.dropWhile_suffix (l := s) fun c => decide (c = sep)).length_le
  rw [hsplit, List.length_append] at hle
  cases rest with
  | none => exact Nat.lt_of_lt_of_le hword (Nat.le_of_add_right_le hle)
  | some behind =>
      rw [Option.elim_some, List.length_cons] at hle
      show behind.length < s.length
      omega

end NjuOs.Lib
