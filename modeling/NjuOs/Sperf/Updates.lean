import NjuOs.Lib.Run
import NjuOs.Lib.Stdio
import NjuOs.Sperf.Table

/-!
The table between any updates and displays.

Here `sys_trace` is a plain list, and `qsort` any function that permutes it, which may be
another one at each call. `Grouped` is what the table owes to the records so far, and
`updates_grouped` that it holds behind every sequence of calls.
-/

namespace NjuOs.Sperf

open NjuOs.Lib

/-! ### Calls -/

/-- The used part of `sys_trace`, and `total_time`. -/
structure Globals where
  sysTrace : List SysTrace
  totalTime : ℚ

def Globals.start : Globals := ⟨[], 0⟩

/-- `update_trace`; `strncpy` copies 32 bytes at most. -/
def Globals.update (g : Globals) (t : SysTrace) : Option Globals :=
  match findTrace g.sysTrace t.name with
  | some ptrace => some ⟨addTime g.sysTrace ptrace t.time, g.totalTime + t.time⟩
  | none =>
      if g.sysTrace.length < maxTraces then
        let sysTrace := g.sysTrace ++ [⟨t.name.take 32, 0⟩]
        some ⟨addTime sysTrace g.sysTrace.length t.time, g.totalTime + t.time⟩
      else none

inductive Event where
  | update (t : SysTrace)
  /-- `display_trace`, with what `qsort` does in this call. -/
  | display (qsort : List SysTrace → List SysTrace)

def Globals.step (g : Globals) : Event → Option Globals
  | .update t => g.update t
  | .display qsort => some { g with sysTrace := qsort g.sysTrace }

/-- The records that are passed to `update_trace`. -/
def recordsOf : List Event → List SysTrace
  | [] => []
  | .update t :: events => t :: recordsOf events
  | .display _ :: events => recordsOf events

/-- The names are terminated in `sys_trace`, and `qsort` permutes. -/
def Event.Fair : Event → Prop
  | .update t => t.name.length ≤ 31
  | .display qsort => ∀ sysTrace, (qsort sysTrace).Perm sysTrace

/-! ### Lists -/

section Lists

variable {sysTrace : List SysTrace}

theorem sum_addTime {ptrace : Nat} (h : ptrace < sysTrace.length) (time : ℚ) :
    ((addTime sysTrace ptrace time).map SysTrace.time).sum =
      (sysTrace.map SysTrace.time).sum + time := by
  rw [addTime]
  induction sysTrace generalizing ptrace with
  | nil => cases h
  | cons t sysTrace ih =>
      cases ptrace with
      | zero =>
          rw [List.modify_zero_cons, List.map_cons, List.map_cons, List.sum_cons, List.sum_cons]
          ring
      | succ i =>
          rw [List.modify_succ_cons, List.map_cons, List.map_cons, List.sum_cons, List.sum_cons,
            ih (Nat.lt_of_succ_lt_succ h), add_assoc]

theorem findTrace_lt {name : CString} {ptrace : Nat} (h : findTrace sysTrace name = some ptrace) :
    ptrace < sysTrace.length := (List.findIdx?_eq_some_iff_getElem.mp h).1

theorem mem_names_iff {n : CString} :
    n ∈ sysTrace.map SysTrace.name ↔ timeOf sysTrace n ≠ none := by
  simp [timeOf]

end Lists

/-! ### What the table owes to the records -/

structure Grouped (records : List SysTrace) (g : Globals) : Prop where
  distinct : (g.sysTrace.map SysTrace.name).Nodup
  time : ∀ n, timeOf g.sysTrace n = tally (amounts records) n
  total : g.totalTime = (g.sysTrace.map SysTrace.time).sum

section Grouped

variable {records : List SysTrace} {g : Globals}

theorem grouped_start : Grouped [] .start := ⟨List.nodup_nil, fun _ => rfl, rfl⟩

theorem Grouped.display (h : Grouped records g) {qsort : List SysTrace → List SysTrace}
    (hperm : ∀ sysTrace, (qsort sysTrace).Perm sysTrace) :
    Grouped records { g with sysTrace := qsort g.sysTrace } where
  distinct := ((hperm g.sysTrace).map _).nodup_iff.mpr h.distinct
  time n := (timeOf_perm h.distinct (hperm g.sysTrace) n).trans (h.time n)
  total := h.total.trans ((hperm g.sysTrace).map _).sum_eq.symm

theorem Grouped.mem_names (h : Grouped records g) {n : CString} :
    n ∈ g.sysTrace.map SysTrace.name ↔ n ∈ records.map SysTrace.name := by
  rw [mem_names_iff, h.time, Ne, tally_eq_none, not_not, names_amounts]

/-- There is room for a new name when it is not the 401st. -/
theorem Grouped.room (h : Grouped records g) {t : SysTrace}
    (hcard : ((records ++ [t]).map SysTrace.name).toFinset.card ≤ maxTraces)
    (hnew : t.name ∉ g.sysTrace.map SysTrace.name) : g.sysTrace.length < maxTraces := by
  rw [card_names_concat h.distinct (fun n => h.mem_names) hnew] at hcard
  exact hcard

/-- The time is added to an entry under its name. -/
theorem Grouped.addTime {sysTrace : List SysTrace} {t : SysTrace} {ptrace : Nat}
    (hdistinct : (sysTrace.map SysTrace.name).Nodup)
    (htime : ∀ n, (timeOf sysTrace n).getD 0 = (tally (amounts records) n).getD 0)
    (hother : ∀ n, t.name ≠ n → timeOf sysTrace n = tally (amounts records) n)
    (hfind : findTrace sysTrace t.name = some ptrace) {total : ℚ}
    (htotal : total = (sysTrace.map SysTrace.time).sum) :
    Grouped (records ++ [t]) ⟨Sperf.addTime sysTrace ptrace t.time, total + t.time⟩ where
  distinct := names_addTime sysTrace ptrace t.time ▸ hdistinct
  time n := by
    rw [timeOf_addTime sysTrace hfind, amounts_concat, tally_concat, htime]
    split_ifs with hn
    · rfl
    · exact hother n hn
  total := by rw [sum_addTime (findTrace_lt hfind), htotal]

theorem Grouped.update (h : Grouped records g) {t : SysTrace} (hname : t.name.length ≤ 31)
    (hcard : ((records ++ [t]).map SysTrace.name).toFinset.card ≤ maxTraces) :
    ∃ g', g.update t = some g' ∧ Grouped (records ++ [t]) g' := by
  rw [Globals.update]
  cases hfind : findTrace g.sysTrace t.name with
  | some ptrace =>
      exact ⟨_, rfl, Grouped.addTime h.distinct (fun n => by rw [h.time]) (fun n _ => h.time n)
        hfind h.total⟩
  | none =>
      have hnew := findTrace_eq_none.mp hfind
      have hstored : t.name.take 32 = t.name := CString.take_eq_self (by omega)
      have hdistinct : ((g.sysTrace ++ [(⟨t.name, 0⟩ : SysTrace)]).map SysTrace.name).Nodup := by
        rw [List.map_append, List.map_singleton]
        exact List.nodup_append'.mpr ⟨h.distinct, List.nodup_singleton _, by simpa using hnew⟩
      have hzero : tally (amounts records) t.name = none := by
        rw [← h.time]
        exact not_not.mp (mt mem_names_iff.mpr hnew)
      have happend := timeOf_append_new g.sysTrace hfind
      simp only [if_pos (h.room hcard hnew), hstored]
      refine ⟨_, rfl, Grouped.addTime hdistinct (fun n => ?_) (fun n hn => ?_)
        (findTrace_append_new g.sysTrace hfind) ?_⟩
      · rw [happend]
        split_ifs with hn
        · rw [← hn, hzero]
          rfl
        · rw [h.time]
      · rw [happend, if_neg hn, h.time]
      · rw [h.total, List.map_append, List.sum_append]
        simp

/-- Any further calls. -/
theorem Grouped.exec (h : Grouped records g) (events : List Event)
    (hfair : ∀ e ∈ events, e.Fair)
    (hcard : ((records ++ recordsOf events).map SysTrace.name).toFinset.card ≤ maxTraces) :
    ∃ g', Lib.exec Globals.step g events = some g' ∧ Grouped (records ++ recordsOf events) g' := by
  induction events generalizing records g with
  | nil => exact ⟨g, rfl, by rwa [recordsOf, List.append_nil]⟩
  | cons e events ih =>
      rw [List.forall_mem_cons] at hfair
      cases e with
      | update t =>
          rw [recordsOf] at hcard ⊢
          obtain ⟨g', hupdate, h'⟩ := h.update hfair.1 (records_names_le hcard)
          have hstep : g.step (.update t) = some g' := hupdate
          rw [List.append_cons] at hcard ⊢
          obtain ⟨g'', hexec, h''⟩ := ih h' hfair.2 hcard
          exact ⟨g'', (exec_cons hstep events).trans hexec, h''⟩
      | display qsort =>
          have hstep : g.step (.display qsort) =
              some { g with sysTrace := qsort g.sysTrace } := rfl
          obtain ⟨g', hexec, h'⟩ := ih (h.display hfair.1) hfair.2 hcard
          exact ⟨g', (exec_cons hstep events).trans hexec, h'⟩

/-- **The table groups and sums**, behind every sequence of updates and displays. -/
theorem updates_grouped (events : List Event) (hfair : ∀ e ∈ events, e.Fair)
    (hcard : ((recordsOf events).map SysTrace.name).toFinset.card ≤ 400) :
    ∃ g, Lib.exec Globals.step .start events = some g ∧
      (g.sysTrace.map SysTrace.name).Nodup ∧
      (∀ n, n ∈ g.sysTrace.map SysTrace.name ↔ n ∈ (recordsOf events).map SysTrace.name) ∧
      (∀ entry ∈ g.sysTrace, entry.time = totalOf (amounts (recordsOf events)) entry.name) ∧
      g.totalTime = (g.sysTrace.map SysTrace.time).sum := by
  obtain ⟨g, hexec, h⟩ := grouped_start.exec events hfair hcard
  rw [List.nil_append] at h
  refine ⟨g, hexec, h.distinct, fun n => h.mem_names, fun entry hentry => ?_, h.total⟩
  have htime : timeOf g.sysTrace entry.name = some entry.time :=
    (timeOf_eq_some h.distinct).mpr hentry
  rw [← tally_getD, ← h.time, htime, Option.getD_some]

/-- Two names, sorted in reverse in between. -/
theorem updates_grouped_two :
    let read : CString := ⟨ascii "read", by decide⟩
    let write : CString := ⟨ascii "write", by decide⟩
    let events : List Event := [.update ⟨read, 1⟩, .update ⟨write, 2⟩, .display List.reverse,
      .update ⟨read, 3⟩]
    ∃ g, Lib.exec Globals.step .start events = some g ∧
      (g.sysTrace.map SysTrace.name).Nodup ∧
      (∀ n, n ∈ g.sysTrace.map SysTrace.name ↔ n ∈ (recordsOf events).map SysTrace.name) ∧
      (∀ entry ∈ g.sysTrace, entry.time = totalOf (amounts (recordsOf events)) entry.name) ∧
      g.totalTime = (g.sysTrace.map SysTrace.time).sum := by
  intro read write events
  refine updates_grouped events ?_ ((List.toFinset_card_le _).trans (by decide))
  simp only [events, List.forall_mem_cons, Event.Fair]
  exact ⟨by decide, by decide, fun sysTrace => List.reverse_perm sysTrace, by decide, nofun⟩

end Grouped

/-! ### The program -/

section Program

variable {traces : Traces} {t : SysTrace}

def Traces.globals (traces : Traces) : Globals := ⟨traces.table.entries, traces.totalTime⟩

theorem globals_updateTrace (hname : t.name.length ≤ 31) :
    (updateTrace traces t).map Traces.globals = traces.globals.update t := by
  have hstored : t.name.take 32 = t.name := CString.take_eq_self (by omega)
  rw [updateTrace, Globals.update]
  split
  case h_1 ptrace hfind =>
    rw [show findTrace traces.globals.sysTrace t.name = some ptrace from hfind]
    rfl
  case h_2 hfind =>
    rw [show findTrace traces.globals.sysTrace t.name = none from hfind, hstored]
    by_cases hroom : traces.table.entries.length < maxTraces
    · rw [dif_pos hroom]
      exact (if_pos hroom).symm
    · rw [dif_neg hroom]
      exact (if_neg hroom).symm

theorem updates_updateTrace {traces' : Traces} (h : updateTrace traces t = some traces') :
    traces'.updates = traces.updates := by
  rw [updateTrace] at h
  split at h
  · obtain rfl := Option.some.inj h
    rfl
  · split at h
    · obtain rfl := Option.some.inj h
      rfl
    · cases h

/-- A record of the program is an update, and a display if the timer says so. -/
theorem globals_record (host : Host) (hname : t.name.length ≤ 31) :
    (record host traces t).map Traces.globals =
      Lib.exec Globals.step traces.globals
        (.update t :: if host.updateTime traces.updates then
          [.display (host.qsort traces.updates).sort] else []) := by
  have hupdate := @globals_updateTrace traces t hname
  rw [record, Lib.exec, Globals.step, ← hupdate]
  cases h : updateTrace traces t with
  | none => rfl
  | some traces' =>
      rw [← updates_updateTrace h]
      simp only [Option.map_some, Option.bind_some]
      split <;> rfl

end Program

end NjuOs.Sperf
