import NjuOs.Lib.Tally
import NjuOs.Sperf.Basic

/-!
What `sys_trace` holds after some records.

`Table.time` is the table as a function from names to times. Sorting does not
change it, and `update_trace` changes it as one more record changes a tally, so
the table is the tally of the records (`processParent_holds`); it overflows exactly
when there are more than `maxTraces` names.
-/

namespace NjuOs.Sperf

open NjuOs.Lib

section List

variable (sysTrace : List SysTrace)

/-- The time of the first entry under a name. -/
def timeOf (name : CString) : Option ℚ :=
  (sysTrace.find? fun t => t.name = name).map SysTrace.time

theorem timeOf_cons (t : SysTrace) (name : CString) :
    timeOf (t :: sysTrace) name = if t.name = name then some t.time else timeOf sysTrace name := by
  rw [timeOf, List.find?_cons]
  by_cases h : t.name = name
  · simp [h]
  · simp [h, timeOf]

theorem timeOf_append_new {name : CString} (h : findTrace sysTrace name = none) (n : CString) :
    timeOf (sysTrace ++ [⟨name, 0⟩]) n =
      if name = n then some 0 else timeOf sysTrace n := by
  rw [findTrace_eq_none] at h
  induction sysTrace with
  | nil => rw [List.nil_append, timeOf_cons]
  | cons t sysTrace ih =>
      rw [List.map_cons, List.mem_cons, not_or] at h
      rw [List.cons_append, timeOf_cons, ih h.2, timeOf_cons]
      by_cases hn : name = n
      · subst hn
        simp [Ne.symm h.1]
      · simp [hn]

/-- The time is added under the name that was found. -/
theorem timeOf_addTime {name : CString} {ptrace : Nat}
    (h : findTrace sysTrace name = some ptrace) (time : ℚ) (n : CString) :
    timeOf (addTime sysTrace ptrace time) n =
      if name = n then some ((timeOf sysTrace n).getD 0 + time) else timeOf sysTrace n := by
  induction sysTrace generalizing ptrace with
  | nil => cases h
  | cons t sysTrace ih =>
      rw [findTrace, List.findIdx?_cons] at h
      by_cases hname : t.name = name
      · rw [if_pos (by simpa using hname)] at h
        obtain rfl := Option.some.inj h
        rw [addTime, List.modify_zero_cons, timeOf_cons, timeOf_cons]
        by_cases hn : name = n
        · simp [hname, hn]
        · simp [hname, hn]
      · rw [if_neg (by simpa using hname)] at h
        obtain ⟨i, hi, rfl⟩ := Option.map_eq_some_iff.mp h
        rw [addTime, List.modify_succ_cons, timeOf_cons, timeOf_cons]
        by_cases hn : t.name = n
        · have hne : name ≠ n := fun heq => hname (hn.trans heq.symm)
          simp [hn, hne]
        · simp only [hn, if_false]
          exact ih hi

theorem findTrace_append_new {name : CString} (h : findTrace sysTrace name = none) :
    findTrace (sysTrace ++ [⟨name, 0⟩]) name = some sysTrace.length := by
  rw [findTrace] at h ⊢
  rw [List.findIdx?_append, h]
  simp

end List

theorem timeOf_eq_some {sysTrace : List SysTrace} (h : (sysTrace.map SysTrace.name).Nodup)
    {name : CString} {time : ℚ} :
    timeOf sysTrace name = some time ↔ ⟨name, time⟩ ∈ sysTrace := by
  induction sysTrace with
  | nil => simp [timeOf]
  | cons t sysTrace ih =>
      rw [List.map_cons, List.nodup_cons] at h
      rw [timeOf_cons, List.mem_cons]
      by_cases hname : t.name = name
      · have hnotMem : ⟨name, time⟩ ∉ sysTrace := fun hmem =>
          h.1 (hname ▸ List.mem_map_of_mem (f := SysTrace.name) hmem)
        simp only [hname, if_true, hnotMem, or_false, Option.some.injEq]
        cases t
        simp_all [eq_comm]
      · rw [if_neg hname, ih h.2]
        refine ⟨.inr, fun hmem => hmem.resolve_left fun heq => hname ?_⟩
        rw [← heq]

/-- The order of the entries does not matter. -/
theorem timeOf_perm {sysTrace sysTrace' : List SysTrace}
    (hdistinct : (sysTrace.map SysTrace.name).Nodup)
    (h : sysTrace'.Perm sysTrace) (n : CString) : timeOf sysTrace' n = timeOf sysTrace n := by
  have hdistinct' : (sysTrace'.map SysTrace.name).Nodup := (h.map _).nodup_iff.mpr hdistinct
  refine Option.ext fun time => ?_
  rw [timeOf_eq_some hdistinct', timeOf_eq_some hdistinct, h.mem_iff]

/-! ### The table -/

section Table

variable (table : Table)

/-- The table as a function. -/
def Table.time (name : CString) : Option ℚ := timeOf table.entries name

theorem Table.time_eq_none {name : CString} :
    table.time name = none ↔ name ∉ table.entries.map SysTrace.name := by
  simp [Table.time, timeOf]

theorem Table.time_sort (qsort : Qsort) (name : CString) :
    (table.sort qsort).time name = table.time name :=
  timeOf_perm table.distinct (qsort.perm table.entries) name

end Table

section Record

variable {traces traces' : Traces}

/-- `update_trace` when there is room for the name. -/
theorem updateTrace_spec {t : SysTrace}
    (hroom : t.name ∈ traces.table.entries.map SysTrace.name ∨
      traces.table.entries.length < maxTraces) :
    ∃ traces', updateTrace traces t = some traces' ∧
      (∀ n, traces'.table.time n =
        if t.name = n then some ((traces.table.time n).getD 0 + t.time)
        else traces.table.time n) ∧
      traces'.totalTime = traces.totalTime + t.time := by
  rw [updateTrace]
  split
  case h_1 ptrace hfind => exact ⟨_, rfl, timeOf_addTime _ hfind _, rfl⟩
  case h_2 hfind =>
    have hnew := findTrace_eq_none.mp hfind
    have hlt := hroom.resolve_left hnew
    rw [dif_pos hlt]
    refine ⟨_, rfl, fun n => ?_, rfl⟩
    have htime := timeOf_addTime _ (findTrace_append_new _ hfind) t.time n
    rw [timeOf_append_new _ hfind] at htime
    refine htime.trans ?_
    by_cases hn : t.name = n
    · subst hn
      have hzero : traces.table.time t.name = none := traces.table.time_eq_none.mpr hnew
      simp [hzero]
    · simp [hn, Table.time]

theorem updateTrace_full {t : SysTrace} (hnew : t.name ∉ traces.table.entries.map SysTrace.name)
    (hfull : ¬ traces.table.entries.length < maxTraces) : updateTrace traces t = none := by
  rw [updateTrace]
  split
  case h_1 ptrace hfind =>
    rw [findTrace_eq_none.mpr hnew] at hfind
    cases hfind
  case h_2 => rw [dif_neg hfull]

/-- Timer and `qsort` decide about the order of the table, not about what is in it. -/
theorem record_eq (host : Host) {t : SysTrace}
    (h : updateTrace traces t = some traces') :
    ∃ traces'', record host traces t = some traces'' ∧
      (∀ n, traces''.table.time n = traces'.table.time n) ∧
      traces''.totalTime = traces'.totalTime := by
  rw [record, h, Option.map_some]
  refine ⟨_, rfl, ?_⟩
  dsimp only
  split
  case isTrue => exact ⟨traces'.table.time_sort _, rfl⟩
  case isFalse => exact ⟨fun n => rfl, rfl⟩

end Record

/-- The records of a trace as amounts under names. -/
def amounts (records : List SysTrace) : List (CString × ℚ) := records.map fun t => (t.name, t.time)

/-- Fewer records have no more names. -/
theorem records_names_le {records : List SysTrace} {t : SysTrace} {more : List SysTrace}
    (hcard : ((records ++ t :: more).map SysTrace.name).toFinset.card ≤ maxTraces) :
    ((records ++ [t]).map SysTrace.name).toFinset.card ≤ maxTraces := by
  refine (Finset.card_le_card ?_).trans hcard
  intro n hn
  rw [List.mem_toFinset] at hn ⊢
  rw [List.append_cons, List.map_append]
  exact List.mem_append_left _ hn

/-- What the program has after some records. -/
structure Holds (records : List SysTrace) (traces : Traces) : Prop where
  time : ∀ n, traces.table.time n = tally (amounts records) n
  total : traces.totalTime = (records.map SysTrace.time).sum

section Holds

variable {host : Host} {records : List SysTrace} {traces traces' : Traces}

theorem names_amounts (records : List SysTrace) :
    (amounts records).map Prod.fst = records.map SysTrace.name := by
  rw [amounts, List.map_map]
  rfl

theorem amounts_concat (records : List SysTrace) (t : SysTrace) :
    amounts (records ++ [t]) = amounts records ++ [(t.name, t.time)] := List.map_append

theorem holds_start : Holds [] Traces.start := ⟨fun _ => rfl, rfl⟩

theorem Holds.mem_names (h : Holds records traces) {n : CString} :
    n ∈ traces.table.entries.map SysTrace.name ↔ n ∈ records.map SysTrace.name := by
  rw [← not_iff_not, ← traces.table.time_eq_none, h.time, tally_eq_none, names_amounts]

theorem Holds.length (h : Holds records traces) :
    traces.table.entries.length = (records.map SysTrace.name).toFinset.card := by
  have hlength : (traces.table.entries.map SysTrace.name).length = traces.table.entries.length :=
    List.length_map SysTrace.name
  rw [← hlength, ← List.toFinset_card_of_nodup traces.table.distinct]
  congr 1
  ext n
  rw [List.mem_toFinset, List.mem_toFinset, h.mem_names]

theorem Holds.sort (h : Holds records traces) (qsort : Qsort) :
    Holds records (displayTrace qsort traces) :=
  ⟨fun n => (traces.table.time_sort qsort n).trans (h.time n), h.total⟩

/-- One more name for a table that has an entry for each name of the records. -/
theorem card_names_concat {sysTrace : List SysTrace} {t : SysTrace}
    (hdistinct : (sysTrace.map SysTrace.name).Nodup)
    (hmem : ∀ n, n ∈ sysTrace.map SysTrace.name ↔ n ∈ records.map SysTrace.name)
    (hnew : t.name ∉ sysTrace.map SysTrace.name) :
    ((records ++ [t]).map SysTrace.name).toFinset.card = sysTrace.length + 1 := by
  have hsame : ((records ++ [t]).map SysTrace.name).toFinset =
      (t.name :: sysTrace.map SysTrace.name).toFinset := by
    ext n
    rw [List.mem_toFinset, List.mem_toFinset, List.mem_cons, hmem, List.map_append,
      List.mem_append, List.map_singleton, List.mem_singleton, or_comm]
  rw [hsame, List.toFinset_card_of_nodup (List.nodup_cons.mpr ⟨hnew, hdistinct⟩), List.length_cons,
    List.length_map]

/-- There is room for a name that has an entry, and for one more otherwise. -/
theorem Holds.room_iff (h : Holds records traces) (t : SysTrace) :
    ((records ++ [t]).map SysTrace.name).toFinset.card ≤ maxTraces ↔
      t.name ∈ traces.table.entries.map SysTrace.name ∨
        traces.table.entries.length < maxTraces := by
  by_cases ht : t.name ∈ traces.table.entries.map SysTrace.name
  · have hsame : ((records ++ [t]).map SysTrace.name).toFinset =
        (records.map SysTrace.name).toFinset := by
      rw [List.map_append, List.map_singleton, List.toFinset_append, List.toFinset_cons,
        List.toFinset_nil, insert_empty_eq, Finset.union_singleton,
        Finset.insert_eq_of_mem (List.mem_toFinset.mpr (h.mem_names.mp ht))]
    rw [hsame, ← h.length]
    exact iff_of_true traces.table.bounded (.inl ht)
  · rw [card_names_concat traces.table.distinct (fun n => h.mem_names) ht, or_iff_right ht]
    rfl

/-- One more record, if there is room for its name. -/
theorem Holds.record (host : Host) (h : Holds records traces) {t : SysTrace}
    (hroom : ((records ++ [t]).map SysTrace.name).toFinset.card ≤ maxTraces) :
    ∃ traces', record host traces t = some traces' ∧ Holds (records ++ [t]) traces' := by
  obtain ⟨traces', hupdate, htime, htotal⟩ := updateTrace_spec ((h.room_iff t).mp hroom)
  obtain ⟨traces'', hrecord, htime', htotal'⟩ := record_eq host hupdate
  refine ⟨traces'', hrecord, fun n => ?_, ?_⟩
  · rw [htime', htime, h.time, amounts_concat, tally_concat]
  · rw [htotal', htotal, h.total]
    simp

theorem Holds.record_full (h : Holds records traces) {t : SysTrace}
    (hfull : ¬ ((records ++ [t]).map SysTrace.name).toFinset.card ≤ maxTraces) :
    Sperf.record host traces t = none := by
  rw [h.room_iff, not_or] at hfull
  rw [Sperf.record, updateTrace_full hfull.1 hfull.2, Option.map_none]

/-- The records so far, and some more. -/
theorem Holds.foldlM (host : Host) (h : Holds records traces) (more : List SysTrace)
    (hroom : ((records ++ more).map SysTrace.name).toFinset.card ≤ maxTraces) :
    ∃ traces', more.foldlM (Sperf.record host) traces = some traces' ∧
      Holds (records ++ more) traces' := by
  induction more generalizing records traces with
  | nil => exact ⟨traces, rfl, by rwa [List.append_nil]⟩
  | cons t more ih =>
      obtain ⟨traces', hrecord, h'⟩ := h.record host (records_names_le hroom)
      rw [List.append_cons] at hroom ⊢
      rw [List.foldlM_cons, hrecord, Option.bind_eq_bind, Option.bind_some]
      exact ih h' hroom

theorem Holds.of_foldlM (h : Holds records traces) {more : List SysTrace}
    (hfold : more.foldlM (Sperf.record host) traces = some traces') :
    Holds (records ++ more) traces' := by
  induction more generalizing records traces with
  | nil =>
      obtain rfl := Option.some.inj hfold
      rwa [List.append_nil]
  | cons t more ih =>
      rw [List.foldlM_cons, Option.bind_eq_bind] at hfold
      obtain ⟨traces'', hrecord, hrest⟩ := Option.bind_eq_some_iff.mp hfold
      rw [List.append_cons]
      by_cases hle : ((records ++ [t]).map SysTrace.name).toFinset.card ≤ maxTraces
      · obtain ⟨next, hnext, h'⟩ := h.record host hle
        obtain rfl := Option.some.inj (hrecord.symm.trans hnext)
        exact ih h' hrest
      · rw [h.record_full hle] at hrecord
        cases hrecord

end Holds

/-! ### The whole input -/

section Input

variable {host : Host} {input : Bytes} {s : Parent} {records : List SysTrace}
  {traces : Traces}

/-- **The table is the tally of the records** when they have at most `maxTraces` names. -/
theorem processParent_holds (host : Host)
    (hscan : scan step Parent.start input = some (s, records))
    (hroom : (records.map SysTrace.name).toFinset.card ≤ maxTraces) :
    ∃ traces, processParent host input = some traces ∧ Holds records traces := by
  obtain ⟨traces, hfold, h⟩ := holds_start.foldlM host records hroom
  refine ⟨_, ?_, h.sort (host.qsort traces.updates)⟩
  rw [processParent, hscan, Option.bind_some, hfold, Option.map_some]

theorem holds_of_processParent (hscan : scan step Parent.start input = some (s, records))
    (h : processParent host input = some traces) : Holds records traces := by
  rw [processParent, hscan, Option.bind_some] at h
  obtain ⟨traces', hfold, rfl⟩ := Option.map_eq_some_iff.mp h
  exact (holds_start.of_foldlM hfold).sort _

theorem processParent_none (hscan : scan step Parent.start input = none) :
    processParent host input = none := by
  rw [processParent, hscan, Option.bind_none]

end Input

end NjuOs.Sperf
