import Mathlib.Algebra.Order.BigOperators.Group.List
import Mathlib.Data.Rat.Floor
import NjuOs.Lib.Scanf
import NjuOs.Sperf.Display
import NjuOs.Sperf.Resync
import NjuOs.Sperf.Updates

/-!
What `sperf` prints while it runs.

A screen is printed whenever the timer says so, and once more at the end. As long as the lines of
the trace are read as they are meant, each of them shows calls of the records so far, their times
and their shares of the whole time (`screens_show_top`). Shares are rounded down, so they never
add up to more than 100. Which calls these are is up to `qsort`; where it happens to put larger
times first, they are the ones with the largest times.
-/

namespace NjuOs.Sperf

open NjuOs.Lib

/-! ### Screens -/

/-- The conversion to `int`, which rounds towards zero. -/
def truncate (q : ℚ) : Int := q.num.tdiv q.den

/-- `(int)(sys_trace[i].time * 100.0 / total_time)` -/
def percent (totalTime : ℚ) (t : SysTrace) : Int := truncate (t.time * 100 / totalTime)

/-- The frame of a screen, with a line for each of these entries. -/
def screenText (totalTime : ℚ) (shown : List SysTrace) : Bytes :=
  ascii "====================\n" ++
    (shown.flatMap fun t =>
      t.name.bytes ++ ascii " (" ++ decimalInt (percent totalTime t) ++ ascii "%)\n") ++
    List.replicate 80 0 ++ [newline]

/-- `display_trace` behind the sorting; `none` if it converts a quotient by zero. -/
def screen (traces : Traces) : Option Bytes :=
  let nr := traces.table.entries.length
  let maxLine := if nr < 5 then nr else 5
  if maxLine > 0 ∧ traces.totalTime = 0 then none
  else some (screenText traces.totalTime (traces.table.entries.take maxLine))

/-- The records one after another, with the screens that are printed behind them. -/
def recordAll (host : Host) : Traces → List SysTrace → Option (Traces × List Bytes)
  | traces, [] => some (traces, [])
  | traces, t :: records =>
      (record host traces t).bind fun traces' =>
        (if host.updateTime traces.updates then (screen traces').map fun text => [text]
          else some []).bind fun shown =>
            (recordAll host traces' records).map fun out => (out.1, shown ++ out.2)

/-- The screens of `process_parent`. -/
def screens (host : Host) (input : Bytes) : Option (List Bytes) :=
  (scan step Parent.start input).bind fun out =>
    (recordAll host Traces.start out.2).bind fun traces =>
      (screen (displayTrace (host.qsort traces.1.updates) traces.1)).map fun last =>
        traces.2 ++ [last]

/-- After how many records the screens are printed. -/
def shownAfter (updateTime : Nat → Bool) (first : Nat) : Nat → List Nat
  | 0 => []
  | n + 1 =>
      (if updateTime first then [first + 1] else []) ++ shownAfter updateTime (first + 1) n

/-- `qsort` puts larger times first, which the comparison does not oblige it to. -/
def Host.Sorts (host : Host) : Prop :=
  ∀ n sysTrace, ((host.qsort n).sort sysTrace).Pairwise fun a b => b.time ≤ a.time

/-- What a screen owes to the records so far. -/
structure Shows (records shown : List SysTrace) : Prop where
  time : ∀ t ∈ shown, t.name ∈ records.map SysTrace.name ∧
    t.time = totalOf (amounts records) t.name
  distinct : (shown.map SysTrace.name).Nodup
  count : shown.length = min (records.map SysTrace.name).toFinset.card 5
  shares : (∀ t ∈ shown, 0 ≤ percent (records.map SysTrace.time).sum t) ∧
    (shown.map (percent (records.map SysTrace.time).sum)).sum ≤ 100

/-- The largest times are shown, the largest ones first. -/
structure Top (records shown : List SysTrace) : Prop where
  descending : shown.Pairwise fun a b => b.time ≤ a.time
  top : ∀ n ∈ records.map SysTrace.name, n ∉ shown.map SysTrace.name →
    ∀ t ∈ shown, totalOf (amounts records) n ≤ t.time

/-- A screen that shows them. -/
def ScreenOf (host : Host) (records : List SysTrace) (text : Bytes) : Prop :=
  ∃ shown, text = screenText (records.map SysTrace.time).sum shown ∧ Shows records shown ∧
    (host.Sorts → Top records shown)

/-! ### Shares -/

section Shares

theorem truncate_nonneg {q : ℚ} (h : 0 ≤ q) : 0 ≤ truncate q :=
  Int.tdiv_nonneg (Rat.num_nonneg.mpr h) (Int.natCast_nonneg _)

theorem truncate_le {q : ℚ} (h : 0 ≤ q) : (truncate q : ℚ) ≤ q := by
  rw [truncate, Int.tdiv_eq_ediv_of_nonneg (Rat.num_nonneg.mpr h), ← Rat.floor_def']
  exact Int.floor_le q

/-- What is rounded down does not add up to more. -/
theorem sum_percent_le {total : ℚ} (htotal : 0 < total) {shown : List SysTrace}
    (hnonneg : ∀ t ∈ shown, 0 ≤ t.time) (hsum : (shown.map SysTrace.time).sum ≤ total) :
    (shown.map (percent total)).sum ≤ 100 := by
  have hle : ((shown.map (percent total)).sum : ℚ) ≤
      (shown.map SysTrace.time).sum * 100 / total := by
    clear hsum
    induction shown with
    | nil => simp
    | cons t shown ih =>
        rw [List.forall_mem_cons] at hnonneg
        have hshare : 0 ≤ t.time * 100 / total :=
          div_nonneg (mul_nonneg hnonneg.1 (by norm_num)) htotal.le
        have hfirst := truncate_le hshare
        rw [List.map_cons, List.sum_cons, List.map_cons, List.sum_cons, Int.cast_add, add_mul,
          add_div]
        exact add_le_add hfirst (ih hnonneg.2)
  have hhundred : (shown.map SysTrace.time).sum * 100 / total ≤ 100 := by
    rw [div_le_iff₀ htotal]
    linarith
  exact_mod_cast hle.trans hhundred

end Shares

/-! ### A screen -/

section Screen

variable {records : List SysTrace} {traces : Traces}

/-- What the table and the total are at any time. -/
structure Keeps (records : List SysTrace) (traces : Traces) : Prop where
  holds : Holds records traces
  grouped : Grouped records traces.globals

theorem keeps_start : Keeps [] Traces.start := ⟨holds_start, grouped_start⟩

theorem Keeps.display (h : Keeps records traces) (qsort : Qsort) :
    Keeps records (displayTrace qsort traces) :=
  ⟨h.holds.sort qsort, h.grouped.display qsort.perm⟩

theorem Keeps.name_mem (h : Keeps records traces) {t : SysTrace}
    (ht : t ∈ traces.table.entries) : t.name ∈ records.map SysTrace.name :=
  h.holds.mem_names.mp (List.mem_map_of_mem ht)

theorem Keeps.entry_time (h : Keeps records traces) {t : SysTrace}
    (ht : t ∈ traces.table.entries) : t.time = totalOf (amounts records) t.name := by
  have htime := h.holds.time t.name
  rw [Table.time, (timeOf_eq_some traces.table.distinct).mpr ht] at htime
  rw [← tally_getD, ← htime, Option.getD_some]

theorem totalOf_nonneg (hnonneg : ∀ t ∈ records, 0 ≤ t.time) (n : CString) :
    0 ≤ totalOf (amounts records) n := by
  rw [totalOf]
  refine List.sum_nonneg fun q hq => ?_
  obtain ⟨r, hr, rfl⟩ := List.mem_map.mp hq
  obtain ⟨t, ht, rfl⟩ := List.mem_map.mp (List.mem_of_mem_filter hr)
  exact hnonneg t ht

/-- The first entries of the table, whatever their order is. -/
theorem Keeps.shows (h : Keeps records traces) (hnonneg : ∀ t ∈ records, 0 ≤ t.time)
    (hpos : records ≠ [] → 0 < (records.map SysTrace.time).sum) :
    Shows records (traces.table.entries.take (min traces.table.entries.length 5)) := by
  set shown := traces.table.entries.take (min traces.table.entries.length 5) with hshown
  have hmem : ∀ t ∈ shown, t ∈ traces.table.entries := fun t ht => List.mem_of_mem_take ht
  have htimes : ∀ t ∈ traces.table.entries, 0 ≤ t.time := fun t ht =>
    h.entry_time ht ▸ totalOf_nonneg hnonneg t.name
  refine ⟨fun t ht => ⟨h.name_mem (hmem t ht), h.entry_time (hmem t ht)⟩, ?_, ?_, ?_⟩
  · exact ((List.take_sublist _ _).map SysTrace.name).nodup traces.table.distinct
  · rw [hshown, List.length_take_of_le (min_le_left _ _), h.holds.length]
  · rcases eq_or_ne records [] with rfl | hne
    · have hnil : shown = [] := List.eq_nil_iff_forall_not_mem.mpr fun t ht =>
        absurd (h.name_mem (hmem t ht)) List.not_mem_nil
      rw [hnil]
      exact ⟨fun t ht => absurd ht List.not_mem_nil, by decide⟩
    · have hsum : (shown.map SysTrace.time).sum ≤ (records.map SysTrace.time).sum := by
        have htotal := h.holds.total.symm.trans h.grouped.total
        rw [htotal, hshown]
        exact ((List.take_sublist _ _).map SysTrace.time).sum_le_sum fun q hq => by
          obtain ⟨t, ht, rfl⟩ := List.mem_map.mp hq
          exact htimes t ht
      refine ⟨fun t ht => truncate_nonneg ?_,
        sum_percent_le (hpos hne) (fun t ht => htimes t (hmem t ht)) hsum⟩
      exact div_nonneg (mul_nonneg (htimes t (hmem t ht)) (by norm_num)) (hpos hne).le

theorem Keeps.top (h : Keeps records traces)
    (hsorted : traces.table.entries.Pairwise fun a b => b.time ≤ a.time) (n : Nat) :
    Top records (traces.table.entries.take n) := by
  have htop := showsTop_take (List.Perm.refl traces.table.entries) hsorted n
  refine ⟨htop.descending, fun n hn hnot t ht => ?_⟩
  obtain ⟨a, ha, rfl⟩ := List.mem_map.mp (h.holds.mem_names.mpr hn)
  rw [← h.entry_time ha]
  exact htop.top a ha (fun hshown => hnot (List.mem_map_of_mem hshown)) t ht

/-- A screen is printed, and it is one of the records. -/
theorem Keeps.screen {host : Host} (h : Keeps records traces)
    (hsorted : host.Sorts → traces.table.entries.Pairwise fun a b => b.time ≤ a.time)
    (hnonneg : ∀ t ∈ records, 0 ≤ t.time)
    (hpos : records ≠ [] → 0 < (records.map SysTrace.time).sum) :
    ∃ text, screen traces = some text ∧ ScreenOf host records text := by
  have hlines : (if traces.table.entries.length < 5 then traces.table.entries.length else 5) =
      min traces.table.entries.length 5 := by
    split_ifs with hlt
    · exact (min_eq_left hlt.le).symm
    · exact (min_eq_right (not_lt.mp hlt)).symm
  have hdefined : ¬ (min traces.table.entries.length 5 > 0 ∧ traces.totalTime = 0) := by
    rintro ⟨hsome, hzero⟩
    rcases eq_or_ne records [] with rfl | hne
    · rw [h.holds.length] at hsome
      exact absurd hsome (by decide)
    · exact absurd (h.holds.total.symm.trans hzero) (hpos hne).ne'
  refine ⟨_, ?_, _, rfl, h.shows hnonneg hpos, fun hsorts => h.top (hsorted hsorts) _⟩
  rw [Sperf.screen]
  simp only [hlines]
  rw [if_neg hdefined, h.holds.total]

end Screen

/-! ### All screens -/

section Run

variable {host : Host} {records : List SysTrace} {traces : Traces}

/-- What a record leaves of the timer, and of the order of the table. -/
theorem record_displays {t : SysTrace} {traces' : Traces}
    (h : record host traces t = some traces') :
    traces'.updates = traces.updates + 1 ∧
      (host.updateTime traces.updates = true → host.Sorts →
        traces'.table.entries.Pairwise fun a b => b.time ≤ a.time) := by
  rw [record] at h
  obtain ⟨base, hbase, rfl⟩ := Option.map_eq_some_iff.mp h
  rw [updates_updateTrace hbase]
  dsimp only
  cases host.updateTime traces.updates with
  | false => exact ⟨rfl, fun hdisplay => absurd hdisplay Bool.false_ne_true⟩
  | true => exact ⟨rfl, fun _ hsorts => hsorts _ _⟩

/-- One more record; it is an update and perhaps a display of the table. -/
theorem Keeps.record (h : Keeps records traces) {t : SysTrace} (hname : t.name.length ≤ 31)
    (hcard : ((records ++ [t]).map SysTrace.name).toFinset.card ≤ maxTraces) :
    ∃ traces', record host traces t = some traces' ∧ Keeps (records ++ [t]) traces' := by
  obtain ⟨traces', hrecord, hholds⟩ := h.holds.record host hcard
  have hglobals := @globals_record traces t host hname
  rw [hrecord, Option.map_some] at hglobals
  refine ⟨traces', hrecord, hholds, ?_⟩
  cases htimer : host.updateTime traces.updates with
  | false =>
      rw [htimer, if_neg Bool.false_ne_true] at hglobals
      obtain ⟨g, hexec, hgrouped⟩ := h.grouped.exec [.update t]
        (List.forall_mem_singleton.mpr hname) hcard
      rwa [Option.some.inj (hglobals.trans hexec)]
  | true =>
      rw [htimer, if_pos rfl] at hglobals
      obtain ⟨g, hexec, hgrouped⟩ := h.grouped.exec
        [.update t, .display (host.qsort traces.updates).sort]
        (List.forall_mem_cons.mpr ⟨hname,
          List.forall_mem_singleton.mpr (host.qsort traces.updates).perm⟩) hcard
      rwa [Option.some.inj (hglobals.trans hexec)]

/-- Names and times that make a screen of every part of the records. -/
structure Printable (records : List SysTrace) : Prop where
  name : ∀ t ∈ records, t.name.length ≤ 31
  card : (records.map SysTrace.name).toFinset.card ≤ maxTraces
  nonneg : ∀ t ∈ records, 0 ≤ t.time
  first : ∀ t ∈ records.head?, 0 < t.time

theorem Printable.sum_pos (h : Printable records) (hne : records ≠ []) :
    0 < (records.map SysTrace.time).sum := by
  obtain ⟨t, rest, rfl⟩ := List.exists_cons_of_ne_nil hne
  have hrest : 0 ≤ (rest.map SysTrace.time).sum := by
    refine List.sum_nonneg fun q hq => ?_
    obtain ⟨t', ht', rfl⟩ := List.mem_map.mp hq
    exact h.nonneg t' (List.mem_cons_of_mem t ht')
  rw [List.map_cons, List.sum_cons]
  exact add_pos_of_pos_of_nonneg (h.first t rfl) hrest

theorem Printable.take (h : Printable records) (n : Nat) : Printable (records.take n) where
  name t ht := h.name t (List.mem_of_mem_take ht)
  card := by
    refine (Finset.card_le_card fun n hn => ?_).trans h.card
    rw [List.mem_toFinset] at hn ⊢
    exact ((List.take_sublist _ records).map SysTrace.name).subset hn
  nonneg t ht := h.nonneg t (List.mem_of_mem_take ht)
  first t ht := by
    cases n with
    | zero => cases ht
    | succ n =>
        rw [List.head?_take, if_neg (Nat.succ_ne_zero n)] at ht
        exact h.first t ht

/-- The records behind the first ones, with the screens that are printed behind them. -/
theorem recordAll_screens {more : List SysTrace} :
    ∀ {before : List SysTrace} {traces : Traces}, Printable (before ++ more) →
      Keeps before traces → traces.updates = before.length →
        ∃ traces' shown, recordAll host traces more = some (traces', shown) ∧
          Keeps (before ++ more) traces' ∧
            List.Forall₂ (fun n text => ScreenOf host ((before ++ more).take n) text)
              (shownAfter host.updateTime before.length more.length) shown := by
  induction more with
  | nil =>
      intro before traces _ hkeeps _
      exact ⟨traces, [], rfl, by rwa [List.append_nil], .nil⟩
  | cons t more ih =>
      intro before traces hprintable hkeeps hupdates
      have hsoFar : (before ++ t :: more).take (before.length + 1) = before ++ [t] := by
        rw [List.append_cons, List.take_left' (by rw [List.length_append]; rfl)]
      have hpart : Printable (before ++ [t]) := hsoFar ▸ hprintable.take (before.length + 1)
      obtain ⟨traces', hrecord, hkeeps'⟩ :=
        @Keeps.record host _ _ hkeeps t (hpart.name t (by simp)) hpart.card
      obtain ⟨hnext, hsorted⟩ := record_displays hrecord
      rw [List.append_cons] at hprintable
      obtain ⟨traces'', shown, hall, hkeeps'', hshown⟩ := ih hprintable hkeeps'
        (by rw [hnext, hupdates, List.length_append]; rfl)
      rw [← List.append_cons] at hkeeps'' hshown
      rw [List.length_append, List.length_singleton] at hshown
      rw [recordAll, hrecord, Option.bind_some, List.length_cons, shownAfter, hupdates]
      rw [hupdates] at hsorted
      cases htimer : host.updateTime before.length with
      | false =>
          rw [if_neg Bool.false_ne_true, if_neg Bool.false_ne_true, Option.bind_some, hall]
          exact ⟨traces'', shown, rfl, hkeeps'', hshown⟩
      | true =>
          obtain ⟨text, hscreen, htext⟩ :=
            hkeeps'.screen (hsorted htimer) hpart.nonneg fun hne => hpart.sum_pos hne
          rw [if_pos rfl, if_pos rfl, hscreen, Option.map_some, Option.bind_some, hall]
          exact ⟨traces'', text :: shown, rfl, hkeeps'', .cons (hsoFar.symm ▸ htext) hshown⟩

/-- The table is the one of the program. -/
theorem recordAll_foldlM {more : List SysTrace} : ∀ {traces : Traces} {out : Traces × List Bytes},
    recordAll host traces more = some out →
      more.foldlM (record host) traces = some out.1 := by
  induction more with
  | nil =>
      intro traces out h
      obtain rfl := Option.some.inj h
      rfl
  | cons t more ih =>
      intro traces out h
      rw [recordAll] at h
      obtain ⟨traces', hrecord, h⟩ := Option.bind_eq_some_iff.mp h
      obtain ⟨shown, -, h⟩ := Option.bind_eq_some_iff.mp h
      obtain ⟨rest, hrest, rfl⟩ := Option.map_eq_some_iff.mp h
      rw [List.foldlM_cons, hrecord]
      exact @ih traces' rest hrest

/-- The last screen is that of the table with which `process_parent` returns. -/
theorem processParent_of_screens {input : Bytes} {shown : List Bytes}
    (h : screens host input = some shown) :
    ∃ traces, processParent host input = some traces ∧ shown.getLast? = screen traces := by
  rw [screens] at h
  obtain ⟨out, hscan, h⟩ := Option.bind_eq_some_iff.mp h
  obtain ⟨all, hall, h⟩ := Option.bind_eq_some_iff.mp h
  obtain ⟨last, hlast, rfl⟩ := Option.map_eq_some_iff.mp h
  refine ⟨_, ?_, by rw [hlast, List.getLast?_concat]⟩
  rw [processParent, hscan, Option.bind_some, recordAll_foldlM hall, Option.map_some]

theorem atof_nonneg (time : Bytes) : 0 ≤ atof time := by
  rw [atof]
  positivity

/-- **Every screen is right.** Where the lines of a trace are read as they are meant, the screens
that the timer asks for and the last one show calls of the records up to them, with shares that
add up to at most 100, and the last one is that of the table that remains. They are the top of the
records where `qsort` puts larger times first. -/
theorem screens_show_top (host : Host) {lines : List Line}
    (hvalid : ∀ l ∈ lines, l.Valid) (hread : ∀ l ∈ lines, l.Read)
    (htime : ∀ l ∈ lines, ValidTime l.time)
    (hnames : ((lines.map Line.toShape).map Shape.name).toFinset.card ≤ maxTraces)
    (hfirst : ∀ l ∈ lines.head?, 0 < atof l.time) :
    ∃ traces shown, processParent host (lines.flatMap Line.text) = some traces ∧
      screens host (lines.flatMap Line.text) = some shown ∧ shown.getLast? = screen traces ∧
      List.Forall₂ (fun n text => ScreenOf host ((lines.map Line.trace).take n) text)
        (shownAfter host.updateTime 0 lines.length ++ [lines.length]) shown := by
  obtain ⟨name, hscan⟩ := scan_lines hvalid hread htime default
  have hprintable : Printable (lines.map Line.trace) := by
    refine ⟨fun t ht => ?_, (card_names_le lines).trans hnames, fun t ht => ?_, fun t ht => ?_⟩
    · obtain ⟨l, hl, rfl⟩ := List.mem_map.mp ht
      exact ((List.takeWhile_sublist _).length_le).trans (hvalid l hl).length.2
    · obtain ⟨l, -, rfl⟩ := List.mem_map.mp ht
      exact atof_nonneg l.time
    · rw [List.head?_map] at ht
      obtain ⟨l, hl, rfl⟩ := Option.map_eq_some_iff.mp ht
      exact hfirst l hl
  obtain ⟨traces, shown, hall, hkeeps, hshown⟩ :=
    @recordAll_screens host _ [] _ hprintable keeps_start rfl
  rw [List.nil_append] at hkeeps hshown
  rw [List.length_nil, List.length_map] at hshown
  obtain ⟨text, hscreen, htext⟩ := (hkeeps.display (host.qsort traces.updates)).screen
    (fun hsorts => hsorts traces.updates _) hprintable.nonneg fun hne => hprintable.sum_pos hne
  have hall' : (lines.map Line.trace).take lines.length = lines.map Line.trace :=
    List.take_of_length_le (List.length_map _).le
  have hstart : scan step Parent.start (lines.flatMap Line.text) =
      some (.clean name, lines.map Line.trace) := hscan
  have hscreens : screens host (lines.flatMap Line.text) = some (shown ++ [text]) := by
    rw [screens, hstart, Option.bind_some, hall, Option.bind_some, hscreen, Option.map_some]
  obtain ⟨last, hparent, hlast⟩ := processParent_of_screens hscreens
  exact ⟨last, shown ++ [text], hparent, hscreens, hlast,
    List.rel_append hshown (.cons (hall'.symm ▸ htext) .nil)⟩

/-- One record, with the timer behind it. -/
theorem screens_show_top_read :
    ∃ traces shown,
      processParent (.merging fun _ => true) ([readLine].flatMap Line.text) = some traces ∧
      screens (.merging fun _ => true) ([readLine].flatMap Line.text) = some shown ∧
      shown.getLast? = screen traces ∧
      List.Forall₂ (fun n text =>
        ScreenOf (.merging fun _ => true) ([readLine.trace].take n) text) [1, 1] shown := by
  have hread : readLine.Read :=
    Line.IsRecord.read ⟨by decide, by decide, by decide⟩ (by simp only [Line.Plain]; decide)
  exact @screens_show_top (.merging fun _ => true) [readLine] (by decide) (by simpa using hread)
    (by decide) (by decide) (by decide +kernel)

end Run

end NjuOs.Sperf
