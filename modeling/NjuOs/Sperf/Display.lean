import NjuOs.Lib.Qsort
import NjuOs.Sperf.Basic

/-!
What `display_trace` prints, whatever `qsort` does inside.

`trace_compar` answers 1 when the first time is smaller and 0 otherwise, so of two
times that differ it calls one smaller and the other one equal. `displays_top_iff`:
`qsort` is only obliged to anything when all times are equal, and otherwise the
display is not right under every implementation. It is under one that merges and
looks for positive answers (`Qsort.merge_descending`).
-/

namespace NjuOs.Sperf

open NjuOs.Lib

/-- The answer of `trace_compar` as a number. -/
def compar (a b : SysTrace) : Int := if traceCompar a b then 1 else 0

/-- The entries that `display_trace` prints. -/
def displayed (qsort : (SysTrace → SysTrace → Int) → List SysTrace → List SysTrace)
    (table : Table) : List SysTrace :=
  let nr := table.entries.length
  let maxLine := if nr < 5 then nr else 5
  (qsort compar table.entries).take maxLine

/-- Lines with the largest times, the largest ones first. -/
structure ShowsTop (entries lines : List SysTrace) : Prop where
  descending : lines.Pairwise fun a b => b.time ≤ a.time
  top : ∀ a ∈ entries, a ∉ lines → ∀ b ∈ lines, a.time ≤ b.time

/-- The comparison is what `qsort` requires, and what is printed does not depend on
how it sorts. -/
structure DisplaysTop (table : Table) : Prop where
  lawful : LawfulCompar compar table.entries
  shows : ∀ qsort, ConformingQsort qsort → ShowsTop table.entries (displayed qsort table)

/-- There is nothing to sort. -/
def SameTimes (table : Table) : Prop :=
  ∀ a ∈ table.entries, ∀ b ∈ table.entries, a.time = b.time

section Compar

variable {a b : SysTrace} {table : Table}

theorem compar_nonneg (a b : SysTrace) : 0 ≤ compar a b := by
  rw [compar]
  split_ifs <;> decide

theorem compar_nonpos_iff : compar a b ≤ 0 ↔ b.time ≤ a.time := by
  simp only [compar, traceCompar, decide_eq_true_eq]
  split_ifs with h
  · simpa using h
  · simpa using h

theorem compar_eq_zero_iff : compar a b = 0 ↔ b.time ≤ a.time := by
  rw [← compar_nonpos_iff, le_antisymm_iff, and_iff_left (compar_nonneg a b)]

/-- An order without negative answers is consistent when all elements are equal. -/
theorem lawful_compar_iff : LawfulCompar compar table.entries ↔ SameTimes table := by
  constructor
  · intro h a ha b hb
    have hle : ∀ a ∈ table.entries, ∀ b ∈ table.entries, b.time ≤ a.time := by
      intro a ha b hb
      have hneg := h.neg_iff hb ha
      rw [← compar_nonpos_iff, ← not_lt, ← hneg, not_lt]
      exact compar_nonneg b a
    exact le_antisymm (hle b hb a ha) (hle a ha b hb)
  · intro h
    have hzero : ∀ a ∈ table.entries, ∀ b ∈ table.entries, compar a b = 0 := fun a ha b hb =>
      compar_eq_zero_iff.mpr (h b hb a ha).le
    constructor
    · intro a ha b hb
      rw [hzero a ha b hb, hzero b hb a ha]
      rfl
    · intro a ha b hb c hc hab
      exact absurd hab (compar_nonneg a b).not_gt
    · exact fun a ha b hb c hc _ _ => hzero a ha c hc

end Compar

section Lines

variable {table : Table} {sorted : List SysTrace}

/-- The first entries of a sorted table are the top of it. -/
theorem showsTop_take (hperm : sorted.Perm table.entries)
    (hsorted : sorted.Pairwise fun a b => b.time ≤ a.time) (n : Nat) :
    ShowsTop table.entries (sorted.take n) := by
  obtain ⟨hlines, hrest⟩ := pairwise_take_drop hsorted n
  refine ⟨hlines, fun a ha hnot b hb => hrest b hb a ?_⟩
  rw [← hperm.mem_iff, ← List.take_append_drop n sorted, List.mem_append] at ha
  exact ha.resolve_left hnot

/-- The entries with the smallest times first. -/
def ascending (entries : List SysTrace) : List SysTrace :=
  entries.mergeSort fun a b => a.time ≤ b.time

theorem ascending_sorted (entries : List SysTrace) :
    (ascending entries).Pairwise fun a b => a.time ≤ b.time := by
  refine (List.pairwise_mergeSort ?_ ?_ entries).imp fun {a b} hab => of_decide_eq_true hab
  · intro a b c hab hbc
    rw [decide_eq_true_eq] at hab hbc ⊢
    exact hab.trans hbc
  · intro a b
    rw [Bool.or_eq_true, decide_eq_true_eq, decide_eq_true_eq]
    exact le_total a.time b.time

/-- When the top of the table is printed then, all of it is equal. -/
theorem sameTimes_of_ascending {n : Nat}
    (h : ShowsTop table.entries ((ascending table.entries).take (n + 1))) : SameTimes table := by
  have hperm : (ascending table.entries).Perm table.entries := List.mergeSort_perm _ _
  have hsorted := ascending_sorted table.entries
  cases hentries : ascending table.entries with
  | nil =>
      rw [hentries] at hperm
      intro a ha
      rw [← hperm.mem_iff] at ha
      cases ha
  | cons first rest =>
      rw [hentries] at h hperm hsorted
      rw [List.take_succ_cons] at h
      have hfirst : ∀ a ∈ table.entries, a.time = first.time := by
        intro a ha
        refine le_antisymm ?_ ?_
        · by_cases hline : a ∈ first :: rest.take n
          · rcases List.mem_cons.mp hline with rfl | hline
            · exact le_rfl
            · exact List.rel_of_pairwise_cons h.descending hline
          · exact h.top a ha hline first List.mem_cons_self
        · rcases List.mem_cons.mp (hperm.mem_iff.mpr ha) with rfl | ha
          · exact le_rfl
          · exact List.rel_of_pairwise_cons hsorted ha
      intro a ha b hb
      rw [hfirst a ha, hfirst b hb]

end Lines

/-! ### The display -/

section Display

variable {table : Table}

theorem displayed_eq (qsort : (SysTrace → SysTrace → Int) → List SysTrace → List SysTrace)
    (table : Table) :
    displayed qsort table = (qsort compar table.entries).take (min table.entries.length 5) := by
  rw [displayed]
  split_ifs with h
  · rw [min_eq_left h.le]
  · rw [min_eq_right (not_lt.mp h)]

/-- A consistent comparison is all it takes. -/
theorem showsTop_of_lawful {qsort : (SysTrace → SysTrace → Int) → List SysTrace → List SysTrace}
    (hqsort : ConformingQsort qsort) (h : LawfulCompar compar table.entries) :
    ShowsTop table.entries (displayed qsort table) := by
  rw [displayed_eq]
  exact showsTop_take (hqsort.perm h) ((hqsort.sorted h).imp compar_nonpos_iff.mp) _

/-- The display is right under every implementation when there is nothing to sort only. -/
theorem shows_iff :
    (∀ qsort, ConformingQsort qsort → ShowsTop table.entries (displayed qsort table)) ↔
      SameTimes table := by
  constructor
  · intro h
    by_cases hlawful : LawfulCompar compar table.entries
    · exact lawful_compar_iff.mp hlawful
    have hshows := h _ (conforming_fallbackQsort ascending)
    rw [displayed_eq, fallbackQsort_of_not_lawful hlawful] at hshows
    cases hlength : table.entries.length with
    | zero =>
        intro a ha
        rw [List.length_eq_zero_iff.mp hlength] at ha
        cases ha
    | succ n =>
        have hpos : min (n + 1) 5 = min n 4 + 1 := Nat.add_min_add_right n 4 1
        rw [hlength, hpos] at hshows
        exact sameTimes_of_ascending hshows
  · exact fun h qsort hqsort => showsTop_of_lawful hqsort (lawful_compar_iff.mpr h)

/-- **The display shows the top of a table** under every `qsort` exactly when all of
its times are equal. -/
theorem displays_top_iff (table : Table) : DisplaysTop table ↔ SameTimes table :=
  ⟨fun h => lawful_compar_iff.mp h.lawful, fun h => ⟨lawful_compar_iff.mpr h, shows_iff.mpr h⟩⟩

/-- Merging by the positive answers sorts the table nevertheless. -/
theorem Qsort.merge_descending (sysTrace : List SysTrace) :
    (Qsort.merge.sort sysTrace).Pairwise fun a b => b.time ≤ a.time := by
  refine (List.pairwise_mergeSort ?_ ?_ sysTrace).imp fun {a b} hab => ?_
  all_goals simp only [traceCompar, Bool.not_eq_true', decide_eq_false_iff_not, not_lt,
    Bool.or_eq_true] at *
  · exact fun a b c hab hbc => hbc.trans hab
  · exact fun a b => le_total b.time a.time
  · exact hab

/-- Two calls, the longer one behind the shorter one. -/
def twoTraces : Table where
  entries := [⟨readString [0x61], 1⟩, ⟨readString [0x62], 2⟩]
  distinct := by decide
  bounded := by decide

/-- Looking for negative answers, a sort leaves them so. -/
theorem two_traces_unsorted :
    (∃ qsort, ConformingQsort qsort ∧
      ¬ ShowsTop twoTraces.entries (displayed qsort twoTraces)) ∧
    ¬ DisplaysTop twoTraces := by
  have hnot : ¬ ShowsTop twoTraces.entries (displayed mergeQsort twoTraces) := by
    intro h
    have hdescending := h.descending
    rw [displayed_eq, mergeQsort_eq_self compar_nonneg] at hdescending
    have hle := List.rel_of_pairwise_cons hdescending List.mem_cons_self
    revert hle
    decide
  exact ⟨⟨mergeQsort, conforming_mergeQsort, hnot⟩,
    fun h => hnot (h.shows mergeQsort conforming_mergeQsort)⟩

end Display

end NjuOs.Sperf
