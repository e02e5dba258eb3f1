import NjuOs.Sperf.Steps
import NjuOs.Sperf.Table

/-!
The arrays of `sperf`.

`buffer_pos` wraps while a name is read and does not while a time is. It is set to
zero behind a name and behind a record and nowhere else, so the digits of numbers
that are given up stay counted, and 32 of them fill `buffer`. The table has room
for 400 names. `within_arrays_iff`: no index is out of bounds exactly when the
input has, between a name and the end of its record, at most 31 characters that are
read as parts of times (32, if the record has no end), and at most 400 names.
-/

namespace NjuOs.Sperf

open NjuOs.Lib

/-! ### Where the program is -/

/-- Where the program is behind a text. -/
def controlAt (text : Bytes) : Control := text.foldl next (.loop .initial)

/-- The characters of a text that are read as parts of times. -/
def timeChars (control : Control) : Bytes → Nat
  | [] => 0
  | c :: text =>
      (if control = .time ∧ isTimeChar c = true then 1 else 0) + timeChars (next control c) text

/-- No record ends in a text that is read from behind the `(` of a name. -/
def Open (text : Bytes) : Prop :=
  ∀ front, front <+: text → front.foldl next (.loop .processing) ≠ .loop .initial

/-- The names under which records are counted; `name` is what was read of the next one. -/
def namesFrom (control : Control) (name : Bytes) : Bytes → List CString
  | [] => []
  | c :: text =>
      match control, next control c with
      | .loop .initial, .loop .initial => namesFrom (.loop .initial) (name ++ [c]) text
      | .newline, .loop .initial => readString (wrapped name) :: namesFrom (.loop .initial) [] text
      | _, control => namesFrom control name text

/-! ### Indices -/

/-- The index of `buffer` at which the program stores something for a character. -/
def bufferIndex (s : Parent) (c : UInt8) : Option Nat :=
  match s.control with
  | .loop .initial => if c = eof then none else some s.buffer.length
  | .time => if isTimeChar c then some s.buffer.length else none
  | .newline => if c = newline then some s.buffer.length else none
  | _ => none

/-- The index of the entry of `sys_trace` that `update_trace` changes. -/
def tableIndex (traces : Traces) (t : SysTrace) : Nat :=
  (findTrace traces.table.entries t.name).getD traces.table.entries.length

/-- The length of a name in a `sys_trace_t`. -/
def nameSize : Nat := 32

/-- Whatever is read next, the indices are in bounds, and names fit with their terminator. -/
structure WithinArrays (host : Host) (input : Bytes) : Prop where
  buffer : ∀ text c, text ++ [c] <+: input → ∀ s out,
    scan step Parent.start text = some (s, out) → ∀ i ∈ bufferIndex s c, i < bufferSize
  names : ∀ text, text <+: input → ∀ s out, scan step Parent.start text = some (s, out) →
    s.name.length < nameSize ∧ ∀ t ∈ out, t.name.length < nameSize
  table : ∀ text, text <+: input → ∀ s out, scan step Parent.start text = some (s, out) →
    ∀ records t, records ++ [t] <+: out → ∀ traces,
      records.foldlM (record host) Traces.start = some traces →
        tableIndex traces t < maxTraces

/-- The characters that are read as parts of times, from a name on, fit into `buffer`. -/
structure TimesFit (input : Bytes) : Prop where
  read : ∀ front text, front ++ lparen :: text <+: input → controlAt front = .loop .initial →
    Open text → timeChars (.loop .processing) text ≤ bufferSize
  ended : ∀ front text, front ++ lparen :: (text ++ [newline]) <+: input →
    controlAt front = .loop .initial → Open text →
      text.foldl next (.loop .processing) = .newline →
        timeChars (.loop .processing) text < bufferSize

/-! ### One character -/

/-- A name ends with `(`. -/
theorem eq_lparen_of_next {c : UInt8} (hrecord : next (.loop .initial) c ≠ .loop .initial)
    (hdone : next (.loop .initial) c ≠ .done) : c = lparen := by
  by_contra hc
  dsimp only [next] at hrecord hdone
  split_ifs at hrecord hdone
  · exact hdone rfl
  · exact hrecord rfl

theorem ne_done_of_next {control : Control} {c : UInt8} (h : next control c ≠ .done) :
    control ≠ .done := by
  rintro rfl
  exact h rfl

section Step

variable {s : Parent} {c : UInt8}

/-- A step fails at the end of `buffer` only. -/
theorem step_total (h : ∀ i ∈ bufferIndex s c, i < bufferSize) : step s c ≠ none := by
  obtain ⟨control, buffer, name⟩ := s
  intro hnone
  rw [step] at hnone
  rcases control with (_ | _ | _) | _ | _ | _ | _ <;>
    dsimp only [bufferIndex] at h hnone <;> try split_ifs at h hnone
  all_goals simp_all

end Step

/-! ### A text -/

section Text

variable {text pre : Bytes} {c : UInt8}

theorem controlAt_concat (text : Bytes) (c : UInt8) :
    controlAt (text ++ [c]) = next (controlAt text) c := by
  rw [controlAt, List.foldl_append]
  rfl

theorem controlAt_name {front : Bytes} (hfront : controlAt front = .loop .initial) (text : Bytes) :
    controlAt (front ++ lparen :: text) = text.foldl next (.loop .processing) := by
  rw [controlAt, List.foldl_append, ← controlAt, hfront]
  rfl

theorem timeChars_concat (control : Control) (text : Bytes) (c : UInt8) :
    timeChars control (text ++ [c]) = timeChars control text +
      if text.foldl next control = .time ∧ isTimeChar c = true then 1 else 0 := by
  induction text generalizing control with
  | nil => rw [List.nil_append, timeChars, timeChars, timeChars, Nat.add_comm, List.foldl_nil]
  | cons d text ih =>
      rw [List.cons_append, timeChars, timeChars, ih, List.foldl_cons, Nat.add_assoc]

theorem open_nil : Open [] := by
  intro front hfront
  rw [List.prefix_nil.mp hfront]
  simp

theorem open_concat :
    Open (text ++ [c]) ↔
      Open text ∧ (text ++ [c]).foldl next (.loop .processing) ≠ .loop .initial := by
  constructor
  · intro h
    exact ⟨fun front hfront => h front (hfront.trans (List.prefix_append _ _)), h _ List.prefix_rfl⟩
  · rintro ⟨htext, hlast⟩ front hfront
    rcases List.prefix_concat_iff.mp hfront with rfl | hfront
    · exact hlast
    · exact htext front hfront

/-- Behind a text the program is between records, or behind the `(` of one. -/
theorem exists_name (hrecord : controlAt pre ≠ .loop .initial) (hdone : controlAt pre ≠ .done) :
    ∃ front text, pre = front ++ lparen :: text ∧ controlAt front = .loop .initial ∧
      Open text := by
  induction pre using List.reverseRecOn with
  | nil => exact absurd rfl hrecord
  | append_singleton pre c ih =>
      have hlast := hrecord
      rw [controlAt_concat] at hrecord hdone
      by_cases hstart : controlAt pre = .loop .initial
      · rw [hstart] at hrecord hdone
        obtain rfl := eq_lparen_of_next hrecord hdone
        exact ⟨pre, [], rfl, hstart, open_nil⟩
      · obtain ⟨front, text, rfl, hfront, hopen⟩ := ih hstart (ne_done_of_next hdone)
        refine ⟨front, text ++ [c], by simp, hfront, open_concat.mpr ⟨hopen, ?_⟩⟩
        rwa [← controlAt_name hfront, ← List.cons_append, ← List.append_assoc]

end Text

/-! ### A run -/

section Run

variable {s t : Parent} {text : Bytes} {out : List SysTrace}

theorem control_of_scan (h : scan step s text = some (t, out)) :
    t.control = text.foldl next s.control := by
  induction text using List.reverseRecOn generalizing t out with
  | nil =>
      obtain ⟨rfl, -⟩ := Prod.mk.inj (Option.some.inj h)
      rfl
  | append_singleton text c ih =>
      obtain ⟨u, first, last, htext, hlast, rfl⟩ := exists_of_scan_concat h
      rw [(reads_of_step hlast).control, ih htext, List.foldl_append]
      rfl

/-- The length of `buffer` inside of a record. -/
theorem length_of_scan (hs : s.control = .loop .processing) (hopen : Open text)
    (h : scan step s text = some (t, out)) :
    t.buffer.length = s.buffer.length + timeChars (.loop .processing) text := by
  induction text using List.reverseRecOn generalizing t out with
  | nil =>
      obtain ⟨rfl, -⟩ := Prod.mk.inj (Option.some.inj h)
      rfl
  | append_singleton text c ih =>
      obtain ⟨u, first, last, htext, hlast, rfl⟩ := exists_of_scan_concat h
      obtain ⟨hfront, hend⟩ := open_concat.mp hopen
      have hcontrol := control_of_scan htext
      rw [hs] at hcontrol
      have hu := hfront text List.prefix_rfl
      rw [List.foldl_append, ← hcontrol] at hend
      rw [← hcontrol] at hu
      rw [timeChars_concat, ← hcontrol, ← Nat.add_assoc, ← ih hfront htext]
      cases reads_of_step hlast with
      | name => exact absurd rfl hu
      | named => exact absurd rfl hu
      | time hc => rw [if_pos ⟨rfl, hc⟩, List.length_append, List.length_singleton]
      | record => exact absurd rfl hend
      | goto _ _ _ htime => rw [if_neg htime, Nat.add_zero]

/-- The length of `buffer` behind a name. -/
theorem length_behind {front : Bytes} (hfront : controlAt front = .loop .initial)
    (hopen : Open text) (h : scan step Parent.start (front ++ lparen :: text) = some (t, out)) :
    t.buffer.length = timeChars (.loop .processing) text := by
  obtain ⟨⟨control, buffer, name⟩, first, rest, hscan, hrest, -⟩ := exists_of_scan_append h
  have hcontrol := control_of_scan hscan
  change control = controlAt front at hcontrol
  rw [hfront] at hcontrol
  rw [hcontrol, scan_silent_cons step_lparen] at hrest
  rw [length_of_scan rfl hopen hrest, List.length_nil, Nat.zero_add]

theorem exists_length (h : scan step Parent.start text = some (t, out))
    (hinitial : t.control ≠ .loop .initial) (hdone : t.control ≠ .done) :
    ∃ front rest, text = front ++ lparen :: rest ∧ controlAt front = .loop .initial ∧
      Open rest ∧ rest.foldl next (.loop .processing) = t.control ∧
        t.buffer.length = timeChars (.loop .processing) rest := by
  have hcontrol : t.control = controlAt text := control_of_scan h
  rw [hcontrol] at hinitial hdone
  obtain ⟨front, rest, rfl, hfront, hopen⟩ := exists_name hinitial hdone
  refine ⟨front, rest, rfl, hfront, hopen, ?_, length_behind hfront hopen h⟩
  rw [hcontrol, controlAt_name hfront]

end Run

/-! ### `buffer` and the names -/

/-- The locals fit into their arrays between two characters. -/
structure Parent.Fits (s : Parent) : Prop where
  buffer : s.buffer.length ≤ bufferSize
  initial : s.control = .loop .initial → s.buffer.length < bufferSize
  name : s.name.length < nameSize

section Fits

variable {s t : Parent} {c : UInt8} {text input : Bytes} {out : List SysTrace}

theorem length_wrap_lt {buffer : Bytes} (h : buffer.length < bufferSize) (c : UInt8) :
    (wrap (buffer ++ [c])).length < bufferSize := by
  rw [wrap, List.length_append, List.length_singleton]
  split_ifs with hfull
  · exact Nat.succ_pos _
  · rw [List.length_append, List.length_singleton]
    exact Nat.lt_of_le_of_ne h hfull

theorem length_readString_le (bs : Bytes) : (readString bs).length ≤ bs.length :=
  (List.takeWhile_prefix _).length_le

theorem Parent.Fits.step (hs : s.Fits) (h : Sperf.step s c = some (t, out)) :
    t.Fits ∧ ∀ r ∈ out, r.name.length < nameSize := by
  cases reads_of_step h with
  | name =>
      have hlt := length_wrap_lt (hs.initial rfl) c
      exact ⟨⟨hlt.le, fun _ => hlt, hs.name⟩, by simp⟩
  | named =>
      have hname := (length_readString_le _).trans_lt (hs.initial rfl)
      exact ⟨⟨Nat.zero_le _, by simp, hname⟩, by simp⟩
  | time _ hroom =>
      refine ⟨⟨?_, by simp, hs.name⟩, by simp⟩
      rw [List.length_append, List.length_singleton]
      exact hroom
  | record => exact ⟨⟨Nat.zero_le _, fun _ => Nat.succ_pos _, hs.name⟩, by simpa using hs.name⟩
  | goto _ hinitial => exact ⟨⟨hs.buffer, fun h => absurd h hinitial, hs.name⟩, by simp⟩

theorem fits_of_scan (h : scan step Parent.start text = some (t, out)) :
    t.Fits ∧ ∀ r ∈ out, r.name.length < nameSize := by
  induction text using List.reverseRecOn generalizing t out with
  | nil =>
      obtain ⟨rfl, rfl⟩ := Prod.mk.inj (Option.some.inj h)
      exact ⟨⟨Nat.zero_le _, fun _ => Nat.succ_pos _, Nat.succ_pos _⟩, by simp⟩
  | append_singleton text c ih =>
      obtain ⟨u, first, last, htext, hlast, rfl⟩ := exists_of_scan_concat h
      obtain ⟨hu, hfirst⟩ := ih htext
      obtain ⟨ht, hrest⟩ := hu.step hlast
      refine ⟨ht, fun r hr => ?_⟩
      rcases List.mem_append.mp hr with hr | hr
      · exact hfirst r hr
      · exact hrest r hr

/-- The index is a number of characters of times, or it wraps. -/
theorem TimesFit.index_lt (h : TimesFit input) (htext : text ++ [c] <+: input)
    (hscan : scan step Parent.start text = some (s, out)) :
    ∀ i ∈ bufferIndex s c, i < bufferSize := by
  intro i hi
  rw [bufferIndex] at hi
  split at hi
  case h_1 hcontrol =>
    split_ifs at hi
    · cases hi
    · obtain rfl := Option.some.inj hi
      exact (fits_of_scan hscan).1.initial hcontrol
  case h_2 hcontrol =>
    split_ifs at hi with htime
    · obtain rfl := Option.some.inj hi
      obtain ⟨front, rest, rfl, hfront, hopen, hrest, hlength⟩ :=
        exists_length hscan (by simp [hcontrol]) (by simp [hcontrol])
      rw [hcontrol] at hrest
      have hlast : (rest ++ [c]).foldl next (.loop .processing) ≠ .loop .initial := by
        rw [List.foldl_append, hrest]
        dsimp only [List.foldl, next]
        split_ifs <;> simp
      have hread := h.read front (rest ++ [c]) (by simpa using htext) hfront
        (open_concat.mpr ⟨hopen, hlast⟩)
      rw [timeChars_concat, if_pos ⟨hrest, htime⟩, ← hlength] at hread
      exact hread
    · cases hi
  case h_3 hcontrol =>
    split_ifs at hi with hnewline
    · obtain rfl := Option.some.inj hi
      obtain ⟨front, rest, rfl, hfront, hopen, hrest, hlength⟩ :=
        exists_length hscan (by simp [hcontrol]) (by simp [hcontrol])
      rw [hlength]
      refine h.ended front rest ?_ hfront hopen (hrest.trans hcontrol)
      rw [← hnewline]
      simpa using htext
    · cases hi
  case h_4 => cases hi

theorem exists_scan
    (h : ∀ text c, text ++ [c] <+: input → ∀ s out,
      scan step Parent.start text = some (s, out) → ∀ i ∈ bufferIndex s c, i < bufferSize)
    (htext : text <+: input) : ∃ s out, scan step Parent.start text = some (s, out) := by
  induction text using List.reverseRecOn with
  | nil => exact ⟨_, _, rfl⟩
  | append_singleton text c ih =>
      obtain ⟨s, out, hscan⟩ := ih ((List.prefix_append _ _).trans htext)
      obtain ⟨⟨t, last⟩, hlast⟩ :=
        Option.ne_none_iff_exists'.mp (step_total (h text c htext s out hscan))
      exact ⟨t, out ++ last, by rw [scan_append hscan, scan_singleton, hlast]; rfl⟩

/-- **`buffer` is kept within exactly when the times fit.** -/
theorem timesFit_iff :
    TimesFit input ↔ ∀ text c, text ++ [c] <+: input → ∀ s out,
      scan step Parent.start text = some (s, out) → ∀ i ∈ bufferIndex s c, i < bufferSize := by
  refine ⟨fun h text c htext s out hscan => h.index_lt htext hscan, fun h => ⟨?_, ?_⟩⟩
  · intro front text htext hfront hopen
    obtain ⟨s, out, hscan⟩ := exists_scan h htext
    rw [← length_behind hfront hopen hscan]
    exact (fits_of_scan hscan).1.buffer
  · intro front text htext hfront hopen hend
    have hsplit : front ++ lparen :: (text ++ [newline]) = (front ++ lparen :: text) ++ [newline] :=
      by simp
    rw [hsplit] at htext
    obtain ⟨s, out, hscan⟩ := exists_scan h ((List.prefix_append _ _).trans htext)
    refine h _ _ htext s out hscan _ ?_
    have hcontrol : s.control = controlAt (front ++ lparen :: text) := control_of_scan hscan
    rw [controlAt_name hfront, hend] at hcontrol
    rw [bufferIndex, hcontrol, length_behind hfront hopen hscan]
    rfl

/-- A step that does not fail stores where there is room. -/
theorem Parent.Fits.index_lt (hs : s.Fits) (h : Sperf.step s c = some (t, out)) :
    ∀ i ∈ bufferIndex s c, i < bufferSize := by
  intro i hi
  rw [bufferIndex] at hi
  split at hi
  case h_1 hcontrol =>
    split_ifs at hi
    · cases hi
    · obtain rfl := Option.some.inj hi
      exact hs.initial hcontrol
  case h_2 hcontrol =>
    split_ifs at hi with htime
    · obtain rfl := Option.some.inj hi
      by_contra hfull
      have hgreater : c ≠ greater := fun hc => by simp [hc, isTimeChar_greater] at htime
      simp [Sperf.step, hcontrol, hgreater, htime, hfull] at h
    · cases hi
  case h_3 hcontrol =>
    split_ifs at hi with hnewline
    · obtain rfl := Option.some.inj hi
      by_contra hfull
      simp [Sperf.step, hcontrol, hnewline, hfull] at h
    · cases hi
  case h_4 => cases hi

/-- The text is read to its end exactly when the times fit. -/
theorem scan_ne_none_iff : scan step Parent.start input ≠ none ↔ TimesFit input := by
  rw [timesFit_iff]
  constructor
  · rintro h text c ⟨rest, rfl⟩ s out hscan
    obtain ⟨⟨t, all⟩, hall⟩ := Option.ne_none_iff_exists'.mp h
    obtain ⟨u, first, last, hfirst, -, rfl⟩ := exists_of_scan_append hall
    obtain ⟨v, before, after, hbefore, hstep, rfl⟩ := exists_of_scan_concat hfirst
    obtain ⟨rfl, rfl⟩ := Prod.mk.inj (Option.some.inj (hscan.symm.trans hbefore))
    exact (fits_of_scan hscan).1.index_lt hstep
  · intro h hnone
    obtain ⟨s, out, hscan⟩ := exists_scan h List.prefix_rfl
    rw [hnone] at hscan
    cases hscan

end Fits

/-! ### `sys_trace` -/

section Names

variable {control : Control} {name text : Bytes} {c : UInt8}

theorem namesFrom_name (h : next (.loop .initial) c = .loop .initial) :
    namesFrom (.loop .initial) name (c :: text) =
      namesFrom (.loop .initial) (name ++ [c]) text := by
  rw [namesFrom]
  exact h

theorem namesFrom_record (hcontrol : control ≠ .loop .initial)
    (h : next control c = .loop .initial) :
    namesFrom control name (c :: text) =
      readString (wrapped name) :: namesFrom (.loop .initial) [] text := by
  rcases control with (_ | _ | _) | _ | _ | _ | _
  case newline =>
    rw [namesFrom]
    exact h
  all_goals
    dsimp only [next] at hcontrol h
    try split_ifs at h
  all_goals simp_all

theorem namesFrom_rest (h : next control c ≠ .loop .initial) :
    namesFrom control name (c :: text) = namesFrom (next control c) name text := by
  rw [namesFrom]
  · exact fun _ heq => h heq
  · exact fun _ heq => h heq

end Names

section Table

variable {host : Host} {s t : Parent} {traces : Traces} {r : SysTrace}
  {text input : Bytes} {out records : List SysTrace}

/-- Records are counted under the names that stand in the text. -/
theorem names_of_scan {name : Bytes}
    (hinitial : s.control = .loop .initial → s.buffer = wrapped name)
    (hname : s.control ≠ .loop .initial → s.control ≠ .done → s.name = readString (wrapped name))
    (h : scan step s text = some (t, out)) :
    out.map SysTrace.name = namesFrom s.control name text := by
  induction text generalizing s name out with
  | nil =>
      obtain ⟨-, rfl⟩ := Prod.mk.inj (Option.some.inj h)
      rfl
  | cons c text ih =>
      obtain ⟨u, first, rest, hfirst, hrest, rfl⟩ := exists_of_scan_cons h
      have hreads := reads_of_step hfirst
      have hcontrol := hreads.control
      rw [List.map_append]
      cases hreads with
      | name =>
          rw [namesFrom_name hcontrol.symm]
          refine ih (fun _ => ?_) (fun hu => absurd rfl hu) hrest
          have hbuffer := hinitial rfl
          dsimp only at hbuffer ⊢
          rw [hbuffer, wrap_wrapped]
      | named =>
          rw [namesFrom_rest (by simp [← hcontrol]), ← hcontrol]
          refine ih (fun hu => ?_) (fun _ _ => congrArg readString (hinitial rfl)) hrest
          cases hu
      | time =>
          rw [namesFrom_rest (by simp [← hcontrol]), ← hcontrol]
          refine ih (fun hu => ?_) (fun _ _ => hname (by simp) (by simp)) hrest
          cases hu
      | record =>
          rw [namesFrom_record (by simp) hcontrol.symm, List.map_singleton, List.singleton_append,
            ← ih (fun _ => rfl) (fun hu => absurd rfl hu) hrest]
          have hstored := hname (by simp) (by simp)
          dsimp only at hstored ⊢
          rw [hstored]
      | @goto _ control control' _ _ hnext hne hdone =>
          rw [namesFrom_rest (by rw [hnext]; exact hne), hnext]
          refine ih (fun hu => absurd hu hne) (fun _ hu => ?_) hrest
          refine hname (fun hs => hu (hdone hs)) (ne_done_of_next (c := c) ?_)
          rw [hnext]
          exact hu

theorem tableIndex_lt_iff :
    tableIndex traces r < maxTraces ↔ r.name ∈ traces.table.entries.map SysTrace.name ∨
      traces.table.entries.length < maxTraces := by
  rw [tableIndex]
  cases hfind : findTrace traces.table.entries r.name with
  | none =>
      have hnew := findTrace_eq_none.mp hfind
      rw [Option.getD_none, or_iff_right hnew]
  | some i =>
      have hmem : r.name ∈ traces.table.entries.map SysTrace.name := by
        by_contra hnew
        rw [findTrace_eq_none.mpr hnew] at hfind
        cases hfind
      have hlt : i < traces.table.entries.length := (List.findIdx?_eq_some_iff_getElem.mp hfind).1
      simp [hmem, hlt.trans_le traces.table.bounded]

/-- **The table is kept within exactly when there are at most `maxTraces` names.** -/
theorem table_iff (host : Host) (records : List SysTrace) :
    (records.map SysTrace.name).toFinset.card ≤ maxTraces ↔
      ∀ front r, front ++ [r] <+: records → ∀ traces,
        front.foldlM (record host) Traces.start = some traces →
          tableIndex traces r < maxTraces := by
  constructor
  · intro hcard front r hfront traces hfold
    have hholds := holds_start.of_foldlM hfold
    rw [List.nil_append] at hholds
    refine tableIndex_lt_iff.mpr ((hholds.room_iff r).mp ((Finset.card_le_card ?_).trans hcard))
    intro n hn
    rw [List.mem_toFinset] at hn ⊢
    exact (hfront.map SysTrace.name).subset hn
  · intro h
    induction records using List.reverseRecOn with
    | nil => exact Nat.zero_le _
    | append_singleton records r ih =>
        have hcard := ih fun front r hfront => h front r (hfront.trans (List.prefix_append _ _))
        obtain ⟨traces, hfold, hholds⟩ := holds_start.foldlM host records hcard
        rw [List.nil_append] at hholds
        exact (hholds.room_iff r).mpr
          (tableIndex_lt_iff.mp (h records r List.prefix_rfl traces hfold))

end Table

/-! ### Both -/

section Both

/-- **The program stays inside of its arrays** exactly when the times fit into
`buffer` and the names into the table. -/
theorem within_arrays_iff (host : Host) (input : Bytes) :
    WithinArrays host input ↔
      TimesFit input ∧ (namesFrom (.loop .initial) [] input).toFinset.card ≤ maxTraces := by
  have hnames : ∀ s out, scan step Parent.start input = some (s, out) →
      out.map SysTrace.name = namesFrom (.loop .initial) [] input := fun s out hscan =>
    names_of_scan (fun _ => rfl) (fun h => absurd rfl h) hscan
  constructor
  · intro h
    obtain ⟨s, out, hscan⟩ := exists_scan h.buffer List.prefix_rfl
    refine ⟨timesFit_iff.mpr h.buffer, ?_⟩
    rw [← hnames s out hscan]
    exact (table_iff host out).mpr (h.table input List.prefix_rfl s out hscan)
  · rintro ⟨htimes, hcard⟩
    have hbuffer := timesFit_iff.mp htimes
    refine ⟨hbuffer, fun text _ s out hscan => ?_, fun text htext s out hscan => ?_⟩
    · obtain ⟨hs, hout⟩ := fits_of_scan hscan
      exact ⟨hs.name, hout⟩
    · obtain ⟨rest, rfl⟩ := htext
      obtain ⟨t, all, hall⟩ := exists_scan hbuffer List.prefix_rfl
      rw [← hnames t all hall] at hcard
      obtain ⟨u, first, last, hfirst, -, rfl⟩ := exists_of_scan_append hall
      obtain ⟨rfl, rfl⟩ := Prod.mk.inj (Option.some.inj (hscan.symm.trans hfirst))
      exact fun records r hrecords =>
        (table_iff host _).mp hcard records r (hrecords.trans (List.prefix_append _ _))

/-- A line up to a time of 33 digits, without the last of them. -/
def longTime : Bytes :=
  [0x66, lparen, rparen, space, equals, space, less] ++ List.replicate bufferSize 0x31

theorem scan_longTime :
    scan step Parent.start longTime =
      some (⟨.time, List.replicate bufferSize 0x31, readString [0x66]⟩, []) := rfl

/-- The last of the digits is stored behind `buffer`. -/
theorem long_time_overflows :
    ¬ WithinArrays (.merging fun _ => false) (longTime ++ [0x31]) := fun h =>
  absurd (h.buffer longTime 0x31 List.prefix_rfl _ _ scan_longTime bufferSize rfl)
    (Nat.lt_irrefl _)

end Both

end NjuOs.Sperf
