import Mathlib.Algebra.GroupWithZero.Action.Defs
import Mathlib.Tactic.Linarith
import NjuOs.Sperf.Lines

/-!
`sperf` on a whole input of lines `name(args) = ret <time>`.
-/

namespace NjuOs.Sperf

open NjuOs.Lib

section Times

/-- The times `0` and `1`. -/
def zeroTime : Bytes := [0x30]

def oneTime : Bytes := [0x31]

theorem validTime_zero : ValidTime zeroTime := by decide

theorem validTime_one : ValidTime oneTime := by decide

@[simp] theorem atof_zeroTime : atof zeroTime = 0 := by
  decide +kernel

@[simp] theorem atof_oneTime : atof oneTime = 1 := by
  decide +kernel

end Times

section Lines

variable {lines : List Line}

/-- Lines that are all read as they are meant. -/
theorem scan_lines (hvalid : ∀ l ∈ lines, l.Valid) (hread : ∀ l ∈ lines, l.Read)
    (htime : ∀ l ∈ lines, ValidTime l.time) (name : CString) :
    ∃ name', scan step (.clean name) (lines.flatMap Line.text) =
      some (.clean name', lines.map Line.trace) := by
  induction lines generalizing name with
  | nil => exact ⟨name, rfl⟩
  | cons l lines ih =>
      rw [List.forall_mem_cons] at hvalid hread htime
      obtain ⟨name', hrest⟩ := ih hvalid.2 hread.2 htime.2 (readString l.name)
      refine ⟨name', ?_⟩
      rw [List.flatMap_cons, scan_append (scan_line hvalid.1 hread.1 htime.1), hrest]
      rfl

theorem names_trace (lines : List Line) :
    (lines.map Line.trace).map SysTrace.name = lines.map fun l => readString l.name := by
  rw [List.map_map]
  rfl

/-- The time of the lines with one name, when no other name is the same string. -/
theorem totalOf_trace {l : Line} (hl : l ∈ lines)
    (hinj : ∀ l ∈ lines, ∀ l' ∈ lines, readString l.name = readString l'.name → l.name = l'.name) :
    totalOf (amounts (lines.map Line.trace)) (readString l.name) =
      ((lines.filter fun l' => l'.name = l.name).map fun l' => atof l'.time).sum := by
  have hfilter : lines.filter (fun l' => readString l'.name = readString l.name) =
      lines.filter fun l' => l'.name = l.name := by
    refine List.filter_congr fun l' hl' => decide_eq_decide.mpr ⟨hinj l' hl' l hl, fun h => ?_⟩
    rw [h]
  rw [totalOf, amounts, List.map_map, List.filter_map, List.map_map, ← hfilter]
  rfl

/-- What a table that holds the lines accounts for. -/
theorem Holds.accounts {traces : Traces} (h : Holds (lines.map Line.trace) traces)
    (hinj : ∀ l ∈ lines, ∀ l' ∈ lines, readString l.name = readString l'.name → l.name = l'.name) :
    Accounts lines traces := by
  constructor
  case entry =>
    intro l hl
    have hmem : readString l.name ∈ (amounts (lines.map Line.trace)).map Prod.fst := by
      rw [names_amounts, names_trace]
      exact List.mem_map_of_mem hl
    rw [h.time, tally_of_mem hmem, totalOf_trace hl hinj]
  case only =>
    intro t ht
    have hmem := h.mem_names.mp (List.mem_map_of_mem ht)
    rw [names_trace] at hmem
    obtain ⟨l, hl, hname⟩ := List.mem_map.mp hmem
    exact ⟨l, hl, hname.symm⟩
  case total =>
    rw [h.total, List.map_map]
    rfl

/-- No more strings than names. -/
theorem card_names_le (lines : List Line) :
    ((lines.map Line.trace).map SysTrace.name).toFinset.card ≤
      ((lines.map Line.toShape).map Shape.name).toFinset.card := by
  have himage : ((lines.map Line.trace).map SysTrace.name).toFinset =
      ((lines.map Line.toShape).map Shape.name).toFinset.image readString := by
    ext n
    simp only [names_trace, List.mem_toFinset, Finset.mem_image, List.mem_map]
    constructor
    · rintro ⟨l, hl, rfl⟩
      exact ⟨l.name, ⟨l.toShape, ⟨l, hl, rfl⟩, rfl⟩, rfl⟩
    · rintro ⟨_, ⟨_, ⟨l, hl, rfl⟩, rfl⟩, rfl⟩
      exact ⟨l, hl, rfl⟩
  rw [himage]
  exact Finset.card_image_le

end Lines

section Lost

variable {host : Host} {shapes rest : List Shape} {s : Shape}

/-- The lines of some shapes, all with the time `0`. -/
def zeroLines (shapes : List Shape) : List Line := shapes.map fun s => ⟨s, zeroTime⟩

theorem toShape_zeroLines (shapes : List Shape) :
    (zeroLines shapes).map Line.toShape = shapes := by
  rw [zeroLines, List.map_map]
  exact List.map_id shapes

theorem mem_zeroLines {l : Line} (h : l ∈ zeroLines shapes) :
    l.toShape ∈ shapes ∧ ValidTime l.time := by
  obtain ⟨s, hs, rfl⟩ := List.mem_map.mp h
  exact ⟨hs, validTime_zero⟩

/-- The time of the first line that is not read as it is meant makes no difference. -/
theorem processParent_lost (hvalid : ∀ s ∈ shapes, s.Valid) (hread : ∀ s ∈ shapes, s.Read)
    (hs : s.Valid) (hlost : ¬ s.Read) {time time' : Bytes} (htime : ValidTime time)
    (htime' : ValidTime time') :
    processParent host
        ((zeroLines shapes ++ ⟨s, time⟩ :: zeroLines rest).flatMap Line.text) =
      processParent host
        ((zeroLines shapes ++ ⟨s, time'⟩ :: zeroLines rest).flatMap Line.text) := by
  obtain ⟨name, hscan⟩ := scan_lines (fun l hl => hvalid _ (mem_zeroLines hl).1)
    (fun l hl => hread _ (mem_zeroLines hl).1) (fun l hl => (mem_zeroLines hl).2) default
  obtain ⟨s', -, hs'⟩ := @scan_line_lost s name hs hlost
  have hsame : ∀ time, ValidTime time →
      scan step Parent.start ((zeroLines shapes ++ ⟨s, time⟩ :: zeroLines rest).flatMap Line.text) =
        (scan step s' ((zeroLines rest).flatMap Line.text)).map fun out =>
          (out.1, (zeroLines shapes).map Line.trace ++ out.2) := by
    intro time htime
    rw [List.flatMap_append, List.flatMap_cons]
    refine (scan_append hscan _).trans ?_
    rw [scan_silent (hs' time htime)]
  rw [processParent, processParent, hsame time htime, hsame time' htime']

/-- Lines of these shapes are accounted for, whatever their times are. -/
def AccountsAll (host : Host) (shapes : List Shape) : Prop :=
  ∀ lines : List Line, lines.map Line.toShape = shapes → (∀ l ∈ lines, ValidTime l.time) →
    ∃ traces, processParent host (lines.flatMap Line.text) = some traces ∧
      Accounts lines traces

theorem AccountsAll.read (h : AccountsAll host shapes) (hvalid : ∀ s ∈ shapes, s.Valid) :
    ∀ s ∈ shapes, s.Read := by
  rcases exists_first (P := fun _ (s : Shape) => ¬ s.Read) shapes with
    hnever | ⟨good, s, rest, rfl, hlost, hgood⟩
  · intro s hs
    obtain ⟨p, q, rfl⟩ := List.append_of_mem hs
    exact not_not.mp (hnever p s q rfl)
  · -- two inputs with the same table, but not the same total
    exfalso
    rw [List.forall_mem_append, List.forall_mem_cons] at hvalid
    have hread : ∀ s ∈ good, s.Read := by
      intro s hs
      obtain ⟨p, q, rfl⟩ := List.append_of_mem hs
      exact not_not.mp (hgood p s q rfl)
    have hacc : ∀ time, ValidTime time → ∃ traces, processParent host
        ((zeroLines good ++ ⟨s, time⟩ :: zeroLines rest).flatMap Line.text) = some traces ∧
          traces.totalTime = ((zeroLines good).map fun l => atof l.time).sum +
            (atof time + ((zeroLines rest).map fun l => atof l.time).sum) := by
      intro time htime
      obtain ⟨traces, hrun, hacc⟩ := h (zeroLines good ++ ⟨s, time⟩ :: zeroLines rest)
        (by rw [List.map_append, List.map_cons, toShape_zeroLines, toShape_zeroLines])
        (List.forall_mem_append.mpr ⟨fun l hl => (mem_zeroLines hl).2,
          List.forall_mem_cons.mpr ⟨htime, fun l hl => (mem_zeroLines hl).2⟩⟩)
      refine ⟨traces, hrun, hacc.total.trans ?_⟩
      rw [List.map_append, List.sum_append, List.map_cons, List.sum_cons]
    obtain ⟨traces, hrun, htotal⟩ := hacc zeroTime validTime_zero
    obtain ⟨traces', hrun', htotal'⟩ := hacc oneTime validTime_one
    rw [processParent_lost hvalid.1 hread hvalid.2.1 hlost validTime_zero validTime_one,
      hrun'] at hrun
    obtain rfl := Option.some.inj hrun
    rw [htotal, atof_zeroTime, atof_oneTime] at htotal'
    linarith

theorem AccountsAll.names (h : AccountsAll host shapes) :
    ∀ s ∈ shapes, ∀ s' ∈ shapes, readString s.name = readString s'.name → s.name = s'.name := by
  intro s hs s' hs' heq
  by_contra hne
  -- the lines named as `s` take one second, the others none
  let time (r : Shape) : Bytes := if r.name = s.name then oneTime else zeroTime
  obtain ⟨traces, -, hacc⟩ := h (shapes.map fun r => ⟨r, time r⟩)
    (by rw [List.map_map]; exact List.map_id shapes)
    (by
      intro l hl
      obtain ⟨r, -, rfl⟩ := List.mem_map.mp hl
      dsimp only [time]
      split
      · exact validTime_one
      · exact validTime_zero)
  have hone := hacc.entry ⟨s, time s⟩ (List.mem_map_of_mem hs)
  have hzero := hacc.entry ⟨s', time s'⟩ (List.mem_map_of_mem hs')
  rw [← heq, hone, Option.some.injEq, List.filter_map, List.filter_map, List.map_map,
    List.map_map] at hzero
  have hconst : ∀ {name : Bytes} {q : ℚ}, (∀ r : Shape, r.name = name → atof (time r) = q) →
      (shapes.filter fun r => r.name = name).map
        ((fun l => atof l.time) ∘ fun r => (⟨r, time r⟩ : Line)) =
          (shapes.filter fun r => r.name = name).map fun _ => q := by
    intro name q hq
    refine List.map_congr_left fun r hr => hq r ?_
    simpa using (List.mem_filter.mp hr).2
  have hleft := @hconst s.name 1 fun r hname => by simp [time, hname]
  have hright := @hconst s'.name 0 fun r hname => by simp [time, hname, Ne.symm hne]
  have hsum := (congrArg List.sum hleft).symm.trans (hzero.trans (congrArg List.sum hright))
  rw [List.map_const', List.map_const', List.sum_replicate, List.sum_replicate, smul_zero,
    nsmul_one, Nat.cast_eq_zero, List.length_eq_zero_iff] at hsum
  have hmem : s ∈ shapes.filter fun r => r.name = s.name := by simpa using hs
  rw [hsum] at hmem
  cases hmem

end Lost

/-- **`sperf` accounts for every line** exactly when it reads each of them as it is
meant, and no two names are the same up to a NUL. -/
theorem accounts_iff (host : Host) {shapes : List Shape}
    (hvalid : ∀ s ∈ shapes, s.Valid)
    (hnames : (shapes.map Shape.name).toFinset.card ≤ maxTraces) :
    (∀ lines : List Line, lines.map Line.toShape = shapes → (∀ l ∈ lines, ValidTime l.time) →
      ∃ traces, processParent host (lines.flatMap Line.text) = some traces ∧
        Accounts lines traces) ↔
      (∀ s ∈ shapes, s.Read) ∧ ∀ s ∈ shapes, ∀ s' ∈ shapes,
        readString s.name = readString s'.name → s.name = s'.name := by
  constructor
  · exact fun h => ⟨AccountsAll.read h hvalid, AccountsAll.names h⟩
  · rintro ⟨hread, hinj⟩ lines rfl htime
    have hshape : ∀ l ∈ lines, l.toShape ∈ lines.map Line.toShape := fun l hl =>
      List.mem_map_of_mem hl
    obtain ⟨name, hscan⟩ := scan_lines (fun l hl => hvalid _ (hshape l hl))
      (fun l hl => hread _ (hshape l hl)) htime default
    obtain ⟨traces, hrun, hholds⟩ :=
      processParent_holds host hscan ((card_names_le lines).trans hnames)
    exact ⟨traces, hrun, hholds.accounts fun l hl l' hl' =>
      hinj _ (hshape l hl) _ (hshape l' hl')⟩

/-- `read(3) = 0 <0.5>` -/
def readLine : Line where
  name := [0x72, 0x65, 0x61, 0x64]
  args := [0x33]
  ret := [0x30]
  time := [0x30, 0x2E, 0x35]

theorem accounts_read :
    ∃ traces, processParent (.merging fun _ => true) readLine.text = some traces ∧
    Accounts [readLine] traces := by
  have hvalid : readLine.Valid := by decide
  have hread : readLine.Read := by
    refine ⟨by decide, [0x33, rparen, space], [space, 0x30, space], rfl, by decide, ?_, by decide⟩
    have h : Never Decides ((([] ++ [0x33]) ++ [rparen]) ++ [space]) := by
      simp only [never_concat, Decides]
      exact ⟨⟨⟨never_nil, by decide⟩, by decide⟩, by decide⟩
    exact h
  have hlines := (@accounts_iff (.merging fun _ => true) [readLine.toShape] (by simpa using hvalid)
    (by decide)).mpr ⟨by simpa using hread, by simp⟩
  simpa using hlines [readLine] rfl (by simpa using (by decide : ValidTime readLine.time))

/-- `f(g()) = 0 <1>` -/
def nestedLine : Line where
  name := [0x66]
  args := [0x67, lparen, rparen]
  ret := [0x30]
  time := oneTime

theorem nested_not_accounted : nestedLine.Valid ∧ ValidTime nestedLine.time ∧
    ¬ ∃ traces, processParent (.merging fun _ => false) nestedLine.text = some traces ∧
      Accounts [nestedLine] traces := by
  refine ⟨by decide, validTime_one, ?_⟩
  rintro ⟨traces, hrun, hacc⟩
  have hscan : scan step Parent.start nestedLine.text =
      some (⟨.loop .processing, [], readString [0x66]⟩, []) := rfl
  have htotal := hacc.total.symm.trans (holds_of_processParent hscan hrun).total
  simp [nestedLine] at htotal

end NjuOs.Sperf
