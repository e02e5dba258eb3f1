import NjuOs.Sperf.Arrays
import NjuOs.Sperf.Others

/-!
Mixtures of records and other lines.

`resynchronises_iff`: other lines between the records change nothing exactly when
every block of them in front of a record leaves `buffer_pos` at 0 and the scanner
in its initial state, which takes a block without a `(` whose length is a multiple
of the length of `buffer`. Behind the last record anything goes whose times fit into
`buffer`.
-/

namespace NjuOs.Sperf

open NjuOs.Lib

/-- A record of a system call: a line whose arguments have no parentheses. -/
structure Line.IsRecord (l : Line) : Prop where
  valid : l.Valid
  time : ValidTime l.time
  args : lparen ∉ l.args ∧ rparen ∉ l.args

/-- Neither a NUL nor the byte 255. -/
def Line.Plain (l : Line) : Prop :=
  0 ∉ l.name ∧ eof ∉ l.name ∧ eof ∉ l.args ∧ eof ∉ l.ret

/-- Each record behind its block of other lines. -/
def mixture (blocks : List (List Other)) (records : List Line) : Bytes :=
  (List.zipWith (fun block l => blockText block ++ l.text) blocks records).flatten

/-- The table as a function, and the sum. -/
def tableOf (result : Option Traces) : Option ((CString → Option ℚ) × ℚ) :=
  result.map fun traces => (traces.table.time, traces.totalTime)

/-- The other lines make no difference, whatever the records are. -/
structure Resynchronises (host host' : Host) (blocks : List (List Other))
    (last : List Other) : Prop where
  same : ∀ records : List Line, records.length = blocks.length → (∀ l ∈ records, l.IsRecord) →
    tableOf (processParent host (mixture blocks records ++ blockText last)) =
      tableOf (processParent host' (records.flatMap Line.text))
  counted : ∀ records : List Line, records.length = blocks.length →
    (∀ l ∈ records, l.IsRecord ∧ l.Plain) →
      (records.map fun l => l.name).toFinset.card ≤ maxTraces →
        ∃ traces,
          processParent host (mixture blocks records ++ blockText last) = some traces ∧
          Accounts records traces

/-- The block leaves the scanner as it is behind a record. -/
def Neutral (text : Bytes) : Prop := lparen ∉ text ∧ eof ∉ text ∧ text.length % bufferSize = 0

/-! ### Tables -/

section Tables

variable {host host' : Host} {input input' : Bytes} {s s' : Parent}
  {records : List SysTrace}

theorem processParent_full (hscan : scan step Parent.start input = some (s, records))
    (hfull : ¬ (records.map SysTrace.name).toFinset.card ≤ maxTraces) :
    processParent host input = none := by
  by_contra hsome
  obtain ⟨traces, htraces⟩ := Option.ne_none_iff_exists'.mp hsome
  have hholds := holds_of_processParent hscan htraces
  exact hfull (hholds.length ▸ traces.table.bounded)

/-- The table depends on the records only. -/
theorem tableOf_eq (hscan : scan step Parent.start input = some (s, records))
    (hscan' : scan step Parent.start input' = some (s', records)) :
    tableOf (processParent host input) = tableOf (processParent host' input') := by
  by_cases hroom : (records.map SysTrace.name).toFinset.card ≤ maxTraces
  · obtain ⟨traces, hrun, h⟩ := processParent_holds host hscan hroom
    obtain ⟨traces', hrun', h'⟩ := processParent_holds host' hscan' hroom
    have htime : traces.table.time = traces'.table.time :=
      funext fun n => (h.time n).trans (h'.time n).symm
    rw [hrun, hrun', tableOf, tableOf, Option.map_some, Option.map_some, htime, h.total, h'.total]
  · rw [processParent_full hscan hroom, processParent_full hscan' hroom]

end Tables

/-! ### Neutral blocks -/

section Neutral

variable {name : CString}

theorem scan_neutral {text : Bytes} (h : Neutral text) :
    scan step (.clean name) text = some (.clean name, []) := by
  have hempty : wrapped text = [] := by
    rw [← List.length_eq_zero_iff, length_wrapped, h.2.2]
  rw [scan_initial h.1 h.2.1, hempty]
  rfl

theorem swallows_of_notMem {pre : Bytes} (h : rparen ∉ pre) : swallows pre = false := by
  have hcount : (pre.reverse.takeWhile fun c => c = rparen || c = space).count rparen = 0 := by
    rw [List.count_eq_zero]
    exact fun hmem => h (List.mem_reverse.mp ((List.takeWhile_sublist _).subset hmem))
  rw [swallows, hcount]
  rfl

/-- The `)` of a record is looked at. -/
theorem Line.IsRecord.looked {l : Line} (h : l.IsRecord) :
    swallows (l.args ++ [rparen] ++ [space]) = true := by
  rw [swallows_concat, swallows_concat, swallows_of_notMem h.args.2]
  rfl

/-- Behind a record the scanner is clean, or it has met the byte 255. -/
theorem Line.IsRecord.scan {l : Line} (h : l.IsRecord) (name : CString) :
    ∃ (s : Parent) (out : List SysTrace), scan step (.clean name) l.text = some (s, out) ∧
      (s.control = .done ∨ ∃ name', s = .clean name') := by
  by_cases hread : l.Read
  · exact ⟨_, _, scan_line h.valid hread h.time, .inr ⟨_, rfl⟩⟩
  · obtain ⟨s, hs, hscan⟩ := @scan_line_lost l.toShape name h.valid hread
    refine ⟨s, [], hscan l.time h.time, .inl (hs.resolve_right fun hnever => ?_)⟩
    refine hnever (l.args ++ [rparen] ++ [space]) equals (space :: (l.ret ++ [space])) ?_ ?_
    · simp [Shape.middle]
    · rw [Decides, if_pos h.looked]

theorem Line.IsRecord.read {l : Line} (h : l.IsRecord) (hplain : l.Plain) : l.Read := by
  refine ⟨hplain.2.1, l.args ++ [rparen] ++ [space], space :: (l.ret ++ [space]), ?_, h.looked,
    ?_, ?_⟩
  · simp [Shape.middle]
  · -- nothing is looked at in the arguments
    have hargs : Never Decides l.args := by
      rintro p c q heq hc
      have hp : swallows p = false := swallows_of_notMem fun hmem => h.args.2 (by simp [heq, hmem])
      rw [Decides, hp, if_neg Bool.false_ne_true] at hc
      exact hplain.2.2.1 (by simp [heq, hc])
    rw [never_concat, never_concat, Decides, Decides, swallows_concat,
      swallows_of_notMem h.args.2]
    exact ⟨⟨hargs, by decide⟩, by decide⟩
  · have hret : eof ∉ l.ret := hplain.2.2.2
    simp only [List.mem_cons, List.mem_append, List.not_mem_nil, or_false, not_or]
    exact ⟨by decide, hret, by decide⟩

/-- Neutral blocks are as if they were not there. -/
theorem scan_mixture {blocks : List (List Other)} {records : List Line}
    (hblocks : ∀ block ∈ blocks, Neutral (blockText block))
    (hlength : records.length = blocks.length) (hrecords : ∀ l ∈ records, l.IsRecord)
    (name : CString) :
    ∃ (s : Parent) (out : List SysTrace),
      scan step (.clean name) (mixture blocks records) = some (s, out) ∧
        scan step (.clean name) (records.flatMap Line.text) = some (s, out) ∧
        (s.control = .done ∨ ∃ name', s = .clean name') := by
  induction blocks generalizing records name with
  | nil =>
      obtain rfl := List.length_eq_zero_iff.mp hlength
      exact ⟨.clean name, [], rfl, rfl, .inr ⟨name, rfl⟩⟩
  | cons block blocks ih =>
      obtain ⟨l, records, rfl⟩ := List.exists_cons_of_length_eq_add_one hlength
      rw [List.forall_mem_cons] at hblocks hrecords
      obtain ⟨s, out, hscan, hs⟩ := hrecords.1.scan name
      have hmixture : mixture (block :: blocks) (l :: records) =
          blockText block ++ (l.text ++ mixture blocks records) := by
        simp [mixture]
      rw [hmixture, List.flatMap_cons, scan_silent (scan_neutral hblocks.1), scan_append hscan,
        scan_append hscan]
      rcases hs with hs | ⟨name', rfl⟩
      · obtain ⟨control, buffer, name'⟩ := s
        obtain rfl : control = .done := hs
        exact ⟨⟨.done, buffer, name'⟩, out, by simp [scan_done], by simp [scan_done], .inl rfl⟩
      · obtain ⟨s, more, hmix, hrec, hs⟩ := ih hblocks.2 (Nat.succ.inj hlength) hrecords.2 name'
        exact ⟨s, out ++ more, by rw [hmix]; rfl, by rw [hrec]; rfl, hs⟩

end Neutral

/-! ### The lines behind the last record -/

section Last

/-- The name plays no part in what is written where. -/
theorem scan_name_eq_none (text : Bytes) :
    ∀ (control : Control) (buffer : Bytes) (name name' : CString),
      scan step ⟨control, buffer, name⟩ text = none →
        scan step ⟨control, buffer, name'⟩ text = none := by
  induction text with
  | nil => nofun
  | cons c text ih =>
      intro control buffer name name' h
      have hstep :
          (step ⟨control, buffer, name⟩ c = none ∧ step ⟨control, buffer, name'⟩ c = none) ∨
          ∃ control' buffer' n n' out out', step ⟨control, buffer, name⟩ c =
            some (⟨control', buffer', n⟩, out) ∧
              step ⟨control, buffer, name'⟩ c = some (⟨control', buffer', n'⟩, out') := by
        rcases control with (_ | _ | _) | _ | _ | _ | _ <;> simp only [step, Parent.goto]
        case done => simp
        all_goals split_ifs <;> simp
      rcases hstep with ⟨-, hnone⟩ | ⟨control', buffer', n, n', out, out', hn, hn'⟩
      · rw [scan, hnone, Option.bind_none]
      · rw [scan_cons hn, Option.map_eq_none_iff] at h
        rw [scan_cons hn', ih _ _ _ n' h, Option.map_none]

theorem scan_fits {block : List Other} (hblock : ∀ o ∈ block, o.Valid)
    (h : TimesFit (blockText block)) (name : CString) :
    ∃ s, scan step (.clean name) (blockText block) = some (s, []) := by
  cases scan_block hblock with
  | overrun hnone => exact absurd (hnone default) (scan_ne_none_iff.mpr h)
  | ended hend =>
      obtain ⟨buffer, name', hend⟩ := hend name
      exact ⟨_, hend⟩
  | collected _ _ hcollect => exact ⟨_, hcollect name⟩
  | inside s _ _ hinside => exact ⟨s, hinside name⟩

end Last

/-! ### Other blocks -/

section Corrupted

/-- `c() = 0 <1>` -/
def probe (c : UInt8) : Line := ⟨⟨[c], [], [0x30]⟩, oneTime⟩

/-- The characters that the probes are named by. -/
def IsProbe (c : UInt8) : Prop := c = 0x61 ∨ c = 0x62

theorem IsProbe.isRecord {c : UInt8} (h : IsProbe c) : (probe c).IsRecord := by
  rcases h with rfl | rfl
  · exact ⟨by decide, validTime_one, by decide⟩
  · exact ⟨by decide, validTime_one, by decide⟩

theorem IsProbe.read {c : UInt8} (h : IsProbe c) : (probe c).Read := by
  refine h.isRecord.read ?_
  rcases h with rfl | rfl
  · exact ⟨by decide, by decide, by decide, by decide⟩
  · exact ⟨by decide, by decide, by decide, by decide⟩

theorem readString_probe {c : UInt8} (h : IsProbe c) : (readString [c]).bytes = [c] := by
  rcases h with rfl | rfl <;> rfl

theorem exists_probe (name : CString) : ∃ c, IsProbe c ∧ name ≠ readString [c] := by
  by_cases h : name = readString [0x61]
  · exact ⟨0x62, .inr rfl, by rw [h]; decide⟩
  · exact ⟨0x61, .inl rfl, h⟩

theorem scan_probe_end {buffer : Bytes} {name : CString} :
    scan step ⟨.time, buffer, name⟩ (oneTime ++ [greater, newline]) = none ∨
      ∃ x, scan step ⟨.time, buffer, name⟩ (oneTime ++ [greater, newline]) =
        some (.clean name, [⟨name, x⟩]) := by
  have hone : (0x31 : UInt8) ≠ greater ∧ isTimeChar 0x31 = true := by decide
  by_cases hroom : buffer.length < bufferSize
  · have hdigit : step ⟨.time, buffer, name⟩ 0x31 =
        some (⟨.time, buffer ++ [0x31], name⟩, []) := by
      simp [step, hone, hroom]
    have hgreater : step ⟨.time, buffer ++ [0x31], name⟩ greater =
        some (⟨.newline, buffer ++ [0x31], name⟩, []) := rfl
    rw [oneTime, List.singleton_append, scan_silent_cons hdigit, scan_silent_cons hgreater,
      scan_singleton]
    by_cases hroom' : (buffer ++ [0x31]).length < bufferSize
    · exact .inr ⟨atof (buffer ++ [0x31]), by rw [step]; simp only [hroom']; rfl⟩
    · exact .inl (by rw [step]; simp only [hroom']; rfl)
  · refine .inl ?_
    have hdigit : step ⟨.time, buffer, name⟩ 0x31 = none := by simp [step, hone, hroom]
    rw [oneTime, List.singleton_append, scan, hdigit, Option.bind_none]

/-- A record that is read from behind a `(` is counted under another name, if at all. -/
theorem scan_probe_inside {c : UInt8} (hc : IsProbe c) {s : Parent}
    (hs : s.control = .loop .processing ∨ s.control = .loop .final) :
    scan step s (probe c).text = none ∨
      ∃ x, scan step s (probe c).text = some (.clean s.name, [⟨s.name, x⟩]) := by
  obtain ⟨control, buffer, name⟩ := s
  have hstart : scan step ⟨control, buffer, name⟩
      ([c, lparen] ++ (probe c).middle ++ [less]) = some (⟨.time, buffer, name⟩, []) := by
    rcases hs with hs | hs <;> obtain rfl : control = _ := hs <;> rcases hc with rfl | rfl <;> rfl
  have htext : (probe c).text =
      [c, lparen] ++ (probe c).middle ++ [less] ++ (oneTime ++ [greater, newline]) := by
    simp [Line.text, probe]
  rw [htext, scan_silent hstart]
  exact scan_probe_end

theorem scan_probe_rest {c : UInt8} {name : CString} :
    scan step ⟨.loop .processing, [], name⟩
      ((probe c).middle ++ less :: (oneTime ++ [greater, newline])) =
        some (.clean name, [⟨name, 1⟩]) := by
  have hmiddle : scan step ⟨.loop .processing, [], name⟩ (probe c).middle =
      some (⟨.loop .final, [], name⟩, []) := rfl
  rw [scan_silent hmiddle, scan_timed validTime_one, atof_oneTime]

/-- The name that is read when something is left in `buffer` is not the record's. -/
theorem exists_probe_wrapped {text : Bytes} (h : text.length % bufferSize ≠ 0) :
    ∃ c, IsProbe c ∧ readString (wrapped (text ++ [c])) ≠ readString [c] := by
  obtain ⟨b, rest, hrest⟩ : ∃ b rest, wrapped text = b :: rest :=
    List.exists_cons_of_ne_nil fun hnil => h (by rw [← length_wrapped, hnil]; rfl)
  obtain ⟨c, hc, hne⟩ : ∃ c, IsProbe c ∧ b ≠ c := by
    by_cases hb : b = 0x61
    · exact ⟨0x62, .inr rfl, by rw [hb]; decide⟩
    · exact ⟨0x61, .inl rfl, hb⟩
  refine ⟨c, hc, fun heq => ?_⟩
  have hbytes := congrArg CString.bytes heq
  rw [readString_probe hc, ← wrap_wrapped, hrest, wrap] at hbytes
  split at hbytes
  · cases hbytes
  · change cstr (b :: (rest ++ [c])) = [c] at hbytes
    rw [cstr, List.takeWhile_cons] at hbytes
    split at hbytes
    · exact hne (List.cons.inj hbytes).1
    · cases hbytes

/-- What becomes of a record behind a block. -/
inductive ProbeOutcome (c : UInt8) (name : CString) (text : Bytes) : Prop where
  | overrun (h : scan step (.clean name) (text ++ (probe c).text) = none)
  | ended (buffer : Bytes) (name' : CString)
      (h : scan step (.clean name) text = some (⟨.done, buffer, name'⟩, []))
  | renamed (t : SysTrace) (ht : t.name ≠ readString [c]) (s : Parent)
      (h : scan step (.clean name) (text ++ (probe c).text) = some (s, [t]))

/-- A block that is not neutral spoils some record behind it. -/
theorem exists_probeOutcome {block : List Other} (hblock : ∀ o ∈ block, o.Valid)
    (h : ¬ Neutral (blockText block)) :
    ∃ c, IsProbe c ∧ ∀ name, ProbeOutcome c name (blockText block) := by
  cases scan_block hblock with
  | overrun hnone =>
      exact ⟨0x61, .inl rfl, fun name => .overrun (scan_append_none (hnone name) _)⟩
  | ended hend =>
      refine ⟨0x61, .inl rfl, fun name => ?_⟩
      obtain ⟨buffer, name', hend⟩ := hend name
      exact .ended buffer name' hend
  | collected hparen heof hcollect =>
      have hlength : (blockText block).length % bufferSize ≠ 0 := fun hz => h ⟨hparen, heof, hz⟩
      obtain ⟨c, hc, hne⟩ := exists_probe_wrapped hlength
      have hsmall : lparen ∉ [c] ∧ eof ∉ [c] := by rcases hc with rfl | rfl <;> decide
      refine ⟨c, hc, fun name => .renamed ⟨readString (wrapped (blockText block ++ [c])), 1⟩ hne
        (.clean (readString (wrapped (blockText block ++ [c])))) ?_⟩
      have htext : blockText block ++ (probe c).text = (blockText block ++ [c]) ++
          lparen :: ((probe c).middle ++ less :: (oneTime ++ [greater, newline])) := by
        simp [Line.text, probe]
      have hname : scan step (.clean name) (blockText block ++ [c]) =
          some (⟨.loop .initial, wrapped (blockText block ++ [c]), name⟩, []) := by
        refine scan_initial ?_ ?_
        · rw [List.mem_append, not_or]
          exact ⟨hparen, hsmall.1⟩
        · rw [List.mem_append, not_or]
          exact ⟨heof, hsmall.2⟩
      rw [htext, scan_silent hname, scan_silent_cons step_lparen, scan_probe_rest]
  | inside s hs _ hinside =>
      obtain ⟨c, hc, hne⟩ := exists_probe s.name
      refine ⟨c, hc, fun name => ?_⟩
      rcases scan_probe_inside hc hs with hnone | ⟨x, hscan⟩
      · exact .overrun (by rw [scan_silent (hinside name), hnone])
      · exact .renamed ⟨s.name, x⟩ hne _ (by rw [scan_silent (hinside name), hscan])

end Corrupted

/-! ### Mixtures -/

section Mixture

variable {host host' : Host} {blocks : List (List Other)} {last : List Other}

/-- What a table says about the records. -/
theorem of_tableOf_eq {input : Bytes} {s : Parent} {records : List SysTrace}
    (hscan : scan step Parent.start input = some (s, records)) {time : CString → Option ℚ}
    {total : ℚ} (h : tableOf (processParent host input) = some (time, total)) :
    (∀ n, time n = tally (amounts records) n) ∧ total = (records.map SysTrace.time).sum := by
  obtain ⟨traces, hrun, heq⟩ := Option.map_eq_some_iff.mp h
  have hholds := holds_of_processParent hscan hrun
  obtain ⟨rfl, rfl⟩ := Prod.mk.inj heq
  exact ⟨hholds.time, hholds.total⟩

/-- As many probes as are needed. -/
theorem scan_probes {c : UInt8} (hc : IsProbe c) (n : Nat) :
    ∃ name, scan step Parent.start ((List.replicate n (probe c)).flatMap Line.text) =
      some (.clean name, List.replicate n (probe c).trace) := by
  have hmem : ∀ l ∈ List.replicate n (probe c), l = probe c := fun l => List.eq_of_mem_replicate
  obtain ⟨name, hscan⟩ := @scan_lines (List.replicate n (probe c))
    (fun l hl => hmem l hl ▸ hc.isRecord.valid) (fun l hl => hmem l hl ▸ hc.read)
    (fun l hl => hmem l hl ▸ hc.isRecord.time) default
  exact ⟨name, by rw [Parent.start, ← Parent.clean, hscan, List.map_replicate]⟩

/-- The table of the probes alone. -/
theorem tableOf_probes (host : Host) {c : UInt8} (hc : IsProbe c) (n : Nat) :
    ∃ time, tableOf (processParent host ((List.replicate n (probe c)).flatMap Line.text)) =
      some (time, (n : ℚ)) ∧ ∀ name, name ≠ readString [c] → time name = none := by
  obtain ⟨name, hscan⟩ := scan_probes hc n
  have hnames : (List.replicate n (probe c).trace).map SysTrace.name =
      List.replicate n (readString [c]) := List.map_replicate
  have hroom :
      ((List.replicate n (probe c).trace).map SysTrace.name).toFinset.card ≤ maxTraces := by
    have hsub : ((List.replicate n (probe c).trace).map SysTrace.name).toFinset ⊆
        {readString [c]} := by
      intro m hm
      rw [hnames, List.mem_toFinset] at hm
      rw [Finset.mem_singleton, List.eq_of_mem_replicate hm]
    exact (Finset.card_le_card hsub).trans ((Finset.card_singleton _).trans_le (by decide))
  obtain ⟨traces, hrun, hholds⟩ := processParent_holds host hscan hroom
  refine ⟨traces.table.time, ?_, fun m hm => ?_⟩
  · have htime : (probe c).trace.time = 1 := atof_oneTime
    rw [hrun, tableOf, Option.map_some, hholds.total, List.map_replicate, List.sum_replicate, htime,
      nsmul_one]
  · rw [hholds.time, tally_eq_none, names_amounts, hnames]
    exact fun hmem => hm (List.eq_of_mem_replicate hmem)

theorem mixture_append {good rest : List (List Other)} {block : List Other} {l : Line} :
    mixture (good ++ block :: rest) (List.replicate (good ++ block :: rest).length l) =
      mixture good (List.replicate good.length l) ++
        (blockText block ++ l.text ++ mixture rest (List.replicate rest.length l)) := by
  rw [mixture, List.length_append, List.length_cons, List.replicate_add, List.replicate_succ,
    List.zipWith_append (by rw [List.length_replicate]), List.flatten_append,
    List.zipWith_cons_cons, List.flatten_cons, mixture, mixture]

/-- Neutral blocks in front of probes. -/
theorem scan_mixture_probes {c : UInt8} (hc : IsProbe c)
    (hblocks : ∀ block ∈ blocks, Neutral (blockText block)) :
    ∃ name, scan step Parent.start (mixture blocks (List.replicate blocks.length (probe c))) =
      some (.clean name, List.replicate blocks.length (probe c).trace) := by
  obtain ⟨s, out, hmix, hrecords, -⟩ := scan_mixture hblocks List.length_replicate
    (fun l hl => List.eq_of_mem_replicate hl ▸ hc.isRecord) default
  obtain ⟨name, hscan⟩ := scan_probes hc blocks.length
  exact ⟨name, hmix.trans (hrecords.symm.trans hscan)⟩

theorem Line.Plain.readString_injective {l l' : Line} (h : l.Plain) (h' : l'.Plain)
    (heq : readString l.name = readString l'.name) : l.name = l'.name := by
  have hbytes : cstr l.name = cstr l'.name := congrArg CString.bytes heq
  rwa [cstr_eq_self h.1, cstr_eq_self h'.1] at hbytes

/-- Other lines that spoil no record spoil none of their own. -/
theorem neutral_of_same (hblocks : ∀ block ∈ blocks, ∀ o ∈ block, o.Valid)
    (h : Resynchronises host host' blocks last) :
    ∀ block ∈ blocks, Neutral (blockText block) := by
  rcases exists_first (P := fun _ (block : List Other) => ¬ Neutral (blockText block)) blocks with
    hnever | ⟨good, block, rest, rfl, hblock, hgood⟩
  · intro block hblock
    obtain ⟨p, q, rfl⟩ := List.append_of_mem hblock
    exact not_not.mp (hnever p block q rfl)
  · exfalso
    have hneutral : ∀ block ∈ good, Neutral (blockText block) := by
      intro block hblock
      obtain ⟨p, q, rfl⟩ := List.append_of_mem hblock
      exact not_not.mp (hgood p block q rfl)
    rw [List.forall_mem_append, List.forall_mem_cons] at hblocks
    obtain ⟨c, hc, hprobe⟩ := exists_probeOutcome hblocks.2.1 hblock
    obtain ⟨name, hstart⟩ := scan_mixture_probes hc hneutral
    obtain ⟨time, htable, hother⟩ :=
      tableOf_probes host' hc (good ++ block :: rest).length
    have hsame := (h.same _ List.length_replicate
      fun l hl => List.eq_of_mem_replicate hl ▸ hc.isRecord).trans htable
    rw [mixture_append, List.append_assoc] at hsame
    cases hprobe name with
    | overrun hnone =>
        rw [processParent_none (by
          rw [scan_append hstart, List.append_assoc, scan_append_none hnone]
          rfl)] at hsame
        cases hsame
    | ended buffer name' hend =>
        -- the probe behind the block is missing from the sum
        have htotal := (of_tableOf_eq (by
          rw [scan_append hstart, List.append_assoc, List.append_assoc, scan_silent hend, scan_done]
          rfl) hsame).2
        have htime : (probe c).trace.time = 1 := atof_oneTime
        rw [List.append_nil, List.map_replicate, List.sum_replicate, htime, nsmul_one,
          Nat.cast_inj] at htotal
        simp at htotal
    | renamed t ht s hrenamed =>
        cases hmore : scan step s (mixture rest (List.replicate rest.length (probe c)) ++
            blockText last) with
        | none =>
            rw [processParent_none (by
              rw [scan_append hstart, List.append_assoc, scan_append hrenamed, hmore]
              rfl)] at hsame
            cases hsame
        | some now =>
            have htime := (of_tableOf_eq (by
              rw [scan_append hstart, List.append_assoc, scan_append hrenamed, hmore]
              rfl) hsame).1 t.name
            rw [hother t.name ht, eq_comm, tally_eq_none, names_amounts] at htime
            exact htime (by simp)

theorem fits_of_same (hneutral : ∀ block ∈ blocks, Neutral (blockText block))
    (h : Resynchronises host host' blocks last) : TimesFit (blockText last) := by
  refine scan_ne_none_iff.mp fun hnone => ?_
  have hc : IsProbe 0x61 := .inl rfl
  obtain ⟨name, hstart⟩ := scan_mixture_probes hc hneutral
  obtain ⟨time, htable, -⟩ := tableOf_probes host' hc blocks.length
  have hsame := (h.same _ List.length_replicate
    fun l hl => List.eq_of_mem_replicate hl ▸ hc.isRecord).trans htable
  rw [processParent_none (by
    rw [scan_append hstart, Parent.clean, scan_name_eq_none _ _ _ _ name hnone]
    rfl)] at hsame
  cases hsame

/-- **The scanner resynchronises** exactly when every block of other lines in front of
a record is neutral, and the times that are read behind the last record fit into `buffer`. -/
theorem resynchronises_iff (host host' : Host)
    (hblocks : ∀ block ∈ blocks, ∀ o ∈ block, o.Valid) (hlast : ∀ o ∈ last, o.Valid) :
    Resynchronises host host' blocks last ↔
      (∀ block ∈ blocks, Neutral (blockText block)) ∧ TimesFit (blockText last) := by
  constructor
  · intro h
    have hneutral := neutral_of_same hblocks h
    exact ⟨hneutral, fits_of_same hneutral h⟩
  · rintro ⟨hneutral, hfits⟩
    have hscan : ∀ records : List Line, records.length = blocks.length →
        (∀ l ∈ records, l.IsRecord) → ∃ (s s' : Parent) (out : List SysTrace),
          scan step Parent.start (mixture blocks records ++ blockText last) = some (s, out) ∧
            scan step Parent.start (records.flatMap Line.text) = some (s', out) := by
      intro records hlength hrecords
      obtain ⟨s, out, hmix, halone, hs⟩ := scan_mixture hneutral hlength hrecords default
      obtain ⟨s', hend⟩ : ∃ s', scan step s (blockText last) = some (s', []) := by
        rcases hs with hs | ⟨name, rfl⟩
        · obtain ⟨control, buffer, name⟩ := s
          obtain rfl : control = .done := hs
          exact ⟨_, scan_done buffer name _⟩
        · exact scan_fits hlast hfits name
      refine ⟨s', s, out, ?_, halone⟩
      refine (scan_append hmix _).trans ?_
      rw [hend, Option.map_some, List.append_nil]
    constructor
    case same =>
      intro records hlength hrecords
      obtain ⟨s, s', out, hmix, halone⟩ := hscan records hlength hrecords
      exact tableOf_eq hmix halone
    case counted =>
      intro records hlength hrecords hroom
      obtain ⟨s, s', out, hmix, halone⟩ := hscan records hlength fun l hl => (hrecords l hl).1
      obtain ⟨name, hlines⟩ := @scan_lines records (fun l hl => (hrecords l hl).1.valid)
        (fun l hl => (hrecords l hl).1.read (hrecords l hl).2)
        (fun l hl => (hrecords l hl).1.time) default
      obtain ⟨-, rfl⟩ := Prod.mk.inj (Option.some.inj (halone.symm.trans hlines))
      have hnames : (records.map Line.toShape).map Shape.name = records.map fun l => l.name := by
        rw [List.map_map]
        rfl
      obtain ⟨traces, hrun, hholds⟩ :=
        processParent_holds host hmix ((card_names_le records).trans (hnames ▸ hroom))
      exact ⟨traces, hrun, hholds.accounts fun l hl l' hl' =>
        (hrecords l hl).2.readString_injective (hrecords l' hl').2⟩

end Mixture

/-- A signal of 32 characters in front of a record, and the end of the process behind it. -/
theorem resynchronises_padded :
    Resynchronises (.merging fun _ => true) (.merging fun _ => false)
      [[.signal (List.replicate 25 space)]] [.exited [space]] := by
  have hneutral : Neutral (blockText [.signal (List.replicate 25 space)]) := by
    refine ⟨?_, ?_, ?_⟩ <;> decide
  have hfits : TimesFit (blockText [.exited [space]]) := by
    rw [← scan_ne_none_iff, Parent.start, ← Parent.clean, blockText, List.flatMap_singleton,
      scan_initial (show lparen ∉ Other.text (.exited [space]) by decide) (by decide)]
    exact Option.some_ne_none _
  refine (resynchronises_iff _ _ ?_ ?_).mpr ⟨?_, hfits⟩
  · intro block hblock o ho
    obtain rfl := List.mem_singleton.mp hblock
    obtain rfl := List.mem_singleton.mp ho
    exact (by decide : newline ∉ [dash, dash, dash] ++ List.replicate 25 space)
  · intro o ho
    obtain rfl := List.mem_singleton.mp ho
    exact (by decide : newline ∉ [plus, plus, plus] ++ [space])
  · intro block hblock
    obtain rfl := List.mem_singleton.mp hblock
    exact hneutral

/-- `--- SIGINT ---` -/
def sigint : Other := .signal [space, 0x53, 0x49, 0x47, 0x49, 0x4E, 0x54, space]

/-- `--- SIGINT ---` and then `read(3) = 0 <0.5>`. -/
theorem sigint_renames : sigint.Valid ∧
    ¬ Resynchronises (.merging fun _ => false) (.merging fun _ => false) [[sigint]] [] := by
  refine ⟨(by decide : newline ∉ sigint.body), fun h => ?_⟩
  have hrecord : readLine.IsRecord := ⟨by decide, by decide, by decide⟩
  have hsame := h.same [readLine] rfl (by simpa using hrecord)
  have hmixture : scan step Parent.start (mixture [[sigint]] [readLine] ++ blockText []) =
      some (.clean (readString (sigint.text ++ readLine.name)),
        [⟨readString (sigint.text ++ readLine.name), atof readLine.time⟩]) := rfl
  have halone : scan step Parent.start ([readLine].flatMap Line.text) =
      some (.clean (readString readLine.name), [readLine.trace]) := rfl
  obtain ⟨traces, hrun, hholds⟩ :=
    processParent_holds (.merging fun _ => false) halone (by simp [maxTraces])
  rw [hrun] at hsame
  have htime := (of_tableOf_eq hmixture hsame).1 (readString readLine.name)
  rw [hholds.time, tally_of_mem (List.mem_singleton.mpr rfl), eq_comm] at htime
  have hnone : tally (amounts [⟨readString (sigint.text ++ readLine.name), atof readLine.time⟩])
      (readString readLine.name) = none := by
    rw [tally_eq_none, names_amounts]
    exact (by decide : readString readLine.name ∉ [readString (sigint.text ++ readLine.name)])
  rw [hnone] at htime
  cases htime

end NjuOs.Sperf
