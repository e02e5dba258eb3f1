import NjuOs.Fsrecov.Inside
import NjuOs.Fsrecov.Matching

/-!
The groups of entries that are handed to `analyze_entry`.

Three kinds of groups come out of a full scan: a short entry behind the first
piece of a cluster, with the long entries directly in front of it; a first piece
behind the first stored prefix that its checksum admits; and a first piece of one
entry that no prefix is admitted for. `analyze_mem_iff` says so in terms of the
image alone.
-/

namespace NjuOs.Fsrecov

open NjuOs.Lib

/-! ### Long entries in front of an entry -/

section Longs

variable (d : Disk)

/-- How many entries directly in front of an entry are not short ones, of the `n` that
are looked at. -/
def longsBefore : Nat → Int → Nat
  | 0, _ => 0
  | n + 1, entry =>
      if validateShortEntry d (entry - dirEntrySize) then 0
      else longsBefore n (entry - dirEntrySize) + 1

/-- The entry with the long ones in front of it. -/
def groupAt (n : Nat) (entry : Int) : Segment :=
  ⟨some (entry - dirEntrySize * longsBefore d n entry), longsBefore d n entry + 1⟩

/-- The long entries in front of the end of a run. -/
def openGroup (n : Nat) (entry : Int) : List Segment :=
  if 0 < longsBefore d n entry then
    [⟨some (entry - dirEntrySize * longsBefore d n entry), longsBefore d n entry⟩]
  else []

variable {d}

/-- Nothing but long entries. -/
theorem longsBefore_of_longs {n : Nat} : ∀ {start entry : Int},
    start + dirEntrySize * n = entry →
      (∀ j < n, validateShortEntry d (start + dirEntrySize * j) = false) →
        longsBefore d n entry = n := by
  induction n with
  | zero =>
      intro start entry _ _
      rfl
  | succ n ih =>
      rintro start entry rfl hlongs
      have hlast : start + dirEntrySize * ((n + 1 : Nat) : Int) - dirEntrySize =
          start + dirEntrySize * n := by
        push_cast
        ring
      rw [longsBefore, hlast, hlongs n (Nat.lt_succ_self n), if_neg Bool.false_ne_true,
        ih rfl fun j hj => hlongs j (Nat.lt_succ_of_lt hj)]

/-- What is in front of a short entry does not matter. -/
theorem longsBefore_of_short {k : Nat} {current : Int}
    (hshort : validateShortEntry d current = true) (n : Nat) :
    longsBefore d (k + (n + 1)) (current + dirEntrySize + dirEntrySize * n) =
      longsBefore d n (current + dirEntrySize + dirEntrySize * n) := by
  induction n with
  | zero => simp [longsBefore, hshort]
  | succ n ih =>
      have hlast : current + dirEntrySize + dirEntrySize * ((n + 1 : Nat) : Int) - dirEntrySize =
          current + dirEntrySize + dirEntrySize * n := by
        push_cast
        ring
      rw [← Nat.add_assoc k, longsBefore, longsBefore, hlast, ih]

/-- One more long entry behind others. -/
theorem longs_succ {groupStart current : Int} {groupCount : Nat}
    (hgroup : groupStart + dirEntrySize * groupCount = current)
    (hlongs : ∀ j < groupCount, validateShortEntry d (groupStart + dirEntrySize * j) = false)
    (hshort : validateShortEntry d current = false) :
    ∀ j < groupCount + 1, validateShortEntry d (groupStart + dirEntrySize * j) = false := by
  intro j hj
  rcases Nat.lt_succ_iff_lt_or_eq.mp hj with hj | rfl
  · exact hlongs j hj
  · rw [hgroup, hshort]

end Longs

/-! ### The groups of a cluster -/

section Loop

variable {d : Disk} {n : Nat} {current groupStart : Int} {groupCount : Nat} {events : List Event}

/-- The loop analyses the short entries of the run, each with the long ones in front
of it. -/
theorem Scans.analyze_mem_iff (h : Scans d n current groupStart groupCount events)
    (hgroup : groupStart + dirEntrySize * groupCount = current)
    (hlongs : ∀ j < groupCount, validateShortEntry d (groupStart + dirEntrySize * j) = false)
    {group : List Segment} :
    .analyze group ∈ events ↔
      ∃ i < runLength d n current, validateShortEntry d (current + dirEntrySize * i) = true ∧
        group = [groupAt d (groupCount + i) (current + dirEntrySize * i)] := by
  induction h with
  | ends hrun =>
      rw [hrun, storeOpenGroup]
      constructor
      · intro hmem
        split at hmem
        case isTrue => cases List.mem_singleton.mp hmem
        case isFalse => cases hmem
      · rintro ⟨i, hi, -⟩
        exact absurd hi (Nat.not_lt_zero i)
  | @short n current groupStart groupCount events hshort _ ih =>
      have hbefore := longsBefore_of_longs hgroup hlongs
      have hfirst : groupStart = current - dirEntrySize * groupCount := by omega
      rw [runLength_succ, if_pos (.inl hshort), List.mem_cons, ih (by simp) (by simp)]
      constructor
      · rintro (heq | ⟨i, hi, hentry, rfl⟩)
        · refine ⟨0, Nat.succ_pos _, by simpa using hshort, ?_⟩
          cases heq
          simp [groupAt, hbefore, hfirst]
        · refine ⟨i + 1, Nat.succ_lt_succ hi, by rwa [entry_succ], ?_⟩
          rw [entry_succ, groupAt, groupAt, longsBefore_of_short hshort, Nat.zero_add]
      · rintro ⟨i, hi, hentry, rfl⟩
        cases i with
        | zero => exact .inl (by simp [groupAt, hbefore, hfirst])
        | succ i =>
            rw [entry_succ] at hentry ⊢
            refine .inr ⟨i, Nat.lt_of_succ_lt_succ hi, hentry, ?_⟩
            rw [groupAt, groupAt, longsBefore_of_short hshort, Nat.zero_add]
  | @long n current groupStart groupCount events hshort hlong _ ih =>
      have hlongs' := longs_succ hgroup hlongs hshort
      rw [runLength_succ, if_pos (.inr hlong), ih (group_succ hgroup) hlongs']
      constructor
      · rintro ⟨i, hi, hentry, rfl⟩
        refine ⟨i + 1, Nat.succ_lt_succ hi, by rwa [entry_succ], ?_⟩
        rw [entry_succ, Nat.add_right_comm, Nat.add_assoc]
      · rintro ⟨i, hi, hentry, rfl⟩
        cases i with
        | zero =>
            rw [Nat.cast_zero, Int.mul_zero, Int.add_zero, hshort] at hentry
            cases hentry
        | succ i =>
            rw [entry_succ] at hentry ⊢
            refine ⟨i, Nat.lt_of_succ_lt_succ hi, hentry, ?_⟩
            rw [Nat.add_right_comm, Nat.add_assoc]

/-- The segment of a prefix that is stored. -/
def Event.prefixes : Event → List Segment
  | .storePrefix segment => [segment]
  | _ => []

def Event.suffixes : Event → List Segment
  | .storeSuffix segment => [segment]
  | _ => []

/-- Behind the first piece groups are analysed and prefixes stored, and nothing else. -/
theorem Scans.event_cases (h : Scans d n current groupStart groupCount events) {event : Event}
    (hmem : event ∈ events) :
    (∃ group, event = .analyze group) ∨ ∃ segment, event = .storePrefix segment := by
  induction h with
  | ends =>
      rw [storeOpenGroup] at hmem
      split at hmem
      case isTrue => exact .inr ⟨_, List.mem_singleton.mp hmem⟩
      case isFalse => cases hmem
  | short _ _ ih =>
      rcases List.mem_cons.mp hmem with rfl | hmem
      · exact .inl ⟨_, rfl⟩
      · exact ih hmem
  | long _ _ _ ih => exact ih hmem

theorem Scans.suffixes_eq (h : Scans d n current groupStart groupCount events) :
    events.flatMap Event.suffixes = [] := by
  rw [List.flatMap_eq_nil_iff]
  intro event hmem
  rcases h.event_cases hmem with ⟨group, rfl⟩ | ⟨segment, rfl⟩
  · rfl
  · rfl

/-- The scan of a cluster clears nothing. -/
theorem Scans.clears_nothing (h : Scans d n current groupStart groupCount events) (j : Nat) :
    .clearSuffix j ∉ events := by
  intro hmem
  rcases h.event_cases hmem with ⟨group, heq⟩ | ⟨segment, heq⟩
  · cases heq
  · cases heq

/-- The loop stores the long entries at the end of the run. -/
theorem Scans.prefixes_eq (h : Scans d n current groupStart groupCount events)
    (hgroup : groupStart + dirEntrySize * groupCount = current)
    (hlongs : ∀ j < groupCount, validateShortEntry d (groupStart + dirEntrySize * j) = false) :
    events.flatMap Event.prefixes =
      openGroup d (groupCount + runLength d n current)
        (current + dirEntrySize * runLength d n current) := by
  induction h with
  | @ends n current groupStart groupCount hrun =>
      have hbefore := longsBefore_of_longs hgroup hlongs
      have hfirst : groupStart = current - dirEntrySize * groupCount := by omega
      simp only [hrun, Nat.add_zero, Nat.cast_zero, Int.mul_zero, Int.add_zero]
      rw [storeOpenGroup, openGroup, hbefore, ← hfirst]
      split <;> rfl
  | @short n current groupStart groupCount events hshort _ ih =>
      rw [runLength_succ, if_pos (.inl hshort), entry_succ, openGroup, longsBefore_of_short hshort]
      have hrest := ih (by simp) (by simp)
      rwa [Nat.zero_add, openGroup] at hrest
  | @long n current groupStart groupCount events hshort hlong _ ih =>
      have hlongs' := longs_succ hgroup hlongs hshort
      rw [runLength_succ, if_pos (.inr hlong), entry_succ, ← Nat.add_assoc, Nat.add_right_comm]
      exact ih (group_succ hgroup) hlongs'

end Loop

section Cluster

variable (d : Disk)

/-- The entry behind the first piece of a cluster. -/
def runStart (clusterBase : Int) : Int := clusterBase + dirEntrySize * firstPiece d clusterBase

/-- The number of entries that the loop accepts there. -/
def runEntries (clusterBase : Int) : Nat :=
  runLength d (entrySlots d - firstPiece d clusterBase) (runStart d clusterBase)

/-- The prefixes of all clusters, in the order in which they are stored. -/
def storedPrefixes : List Segment :=
  (clusters d).flatMap fun cluster =>
    let clusterBase := getClusterBase d cluster
    if isDirectoryCluster d clusterBase then
      openGroup d (runEntries d clusterBase)
        (runStart d clusterBase + dirEntrySize * runEntries d clusterBase)
    else []

def storedSuffixes : List Segment :=
  (clusters d).flatMap fun cluster =>
    let clusterBase := getClusterBase d cluster
    if beginsInside d clusterBase then [⟨some clusterBase, firstPiece d clusterBase⟩] else []

variable {d} {clusterBase : Int}

/-- The scan of a cluster as the loop behind the first piece. -/
theorem scanDirectoryCluster_run (clusterBase : Int) :
    ∃ events, scanDirectoryCluster d clusterBase =
        (if firstPiece d clusterBase > 0 then
          [.storeSuffix ⟨some clusterBase, firstPiece d clusterBase⟩] else []) ++ events ∧
      Scans d (entrySlots d - firstPiece d clusterBase) (runStart d clusterBase)
        (runStart d clusterBase) 0 events :=
  scanDirectoryCluster_eq rfl

theorem analyze_mem_scanDirectoryCluster {group : List Segment} :
    .analyze group ∈ scanDirectoryCluster d clusterBase ↔
      ∃ i < runEntries d clusterBase,
        validateShortEntry d (runStart d clusterBase + dirEntrySize * i) = true ∧
          group = [groupAt d i (runStart d clusterBase + dirEntrySize * i)] := by
  obtain ⟨events, heq, hscans⟩ := @scanDirectoryCluster_run d clusterBase
  have hpiece : .analyze group ∉ (if firstPiece d clusterBase > 0 then
      [Event.storeSuffix ⟨some clusterBase, firstPiece d clusterBase⟩] else []) := by
    split <;> simp
  rw [heq, List.mem_append, or_iff_right hpiece, hscans.analyze_mem_iff (by simp) (by simp)]
  simp only [Nat.zero_add]
  rfl

theorem prefixes_scanDirectoryCluster :
    (scanDirectoryCluster d clusterBase).flatMap Event.prefixes =
      openGroup d (runEntries d clusterBase)
        (runStart d clusterBase + dirEntrySize * runEntries d clusterBase) := by
  obtain ⟨events, heq, hscans⟩ := @scanDirectoryCluster_run d clusterBase
  have hpiece : (if firstPiece d clusterBase > 0 then
      [Event.storeSuffix ⟨some clusterBase, firstPiece d clusterBase⟩] else []).flatMap
        Event.prefixes = [] := by
    split <;> rfl
  rw [heq, List.flatMap_append, hpiece, List.nil_append, hscans.prefixes_eq (by simp) (by simp),
    Nat.zero_add]
  rfl

theorem suffixes_scanDirectoryCluster :
    (scanDirectoryCluster d clusterBase).flatMap Event.suffixes =
      if beginsInside d clusterBase then [⟨some clusterBase, firstPiece d clusterBase⟩]
      else [] := by
  obtain ⟨events, heq, hscans⟩ := @scanDirectoryCluster_run d clusterBase
  rw [heq, List.flatMap_append, hscans.suffixes_eq, List.append_nil]
  simp only [firstPiece_pos_iff]
  split <;> rfl

theorem scanDirectoryCluster_clears_nothing (j : Nat) :
    .clearSuffix j ∉ scanDirectoryCluster d clusterBase := by
  obtain ⟨events, heq, hscans⟩ := @scanDirectoryCluster_run d clusterBase
  rw [heq, List.mem_append, not_or]
  refine ⟨?_, hscans.clears_nothing j⟩
  split <;> simp

end Cluster

/-! ### The pending pieces -/

section Pending

variable {d : Disk}

/-- What some events store is in `pending` behind what was there. -/
theorem foldl_apply_eq {events : List Event} (hclear : ∀ j, .clearSuffix j ∉ events)
    (pending : Pending) :
    events.foldl Pending.apply pending =
      ⟨pending.prefixes ++ events.flatMap Event.prefixes,
        pending.suffixes ++ events.flatMap Event.suffixes⟩ := by
  induction events generalizing pending with
  | nil => simp
  | cons event events ih =>
      rw [List.foldl_cons, ih fun j hj => hclear j (List.mem_cons_of_mem _ hj)]
      cases event with
      | storeSuffix segment => simp [Pending.apply, Event.prefixes, Event.suffixes]
      | storePrefix segment => simp [Pending.apply, Event.prefixes, Event.suffixes]
      | analyze group => simp [Pending.apply, Event.prefixes, Event.suffixes]
      | clearSuffix j => exact absurd List.mem_cons_self (hclear j)

theorem mem_scanClusters {event : Event} :
    event ∈ scanClusters d ↔ ∃ cluster ∈ clusters d,
      isDirectoryCluster d (getClusterBase d cluster) = true ∧
        event ∈ scanDirectoryCluster d (getClusterBase d cluster) := by
  rw [scanClusters, List.mem_flatMap]
  refine exists_congr fun cluster => and_congr_right fun _ => ?_
  by_cases hdir : isDirectoryCluster d (getClusterBase d cluster) = true
  · simp [hdir]
  · simp [hdir]

/-- **What is pending behind the scan**, cluster by cluster. -/
theorem pendingAfter_scanClusters :
    pendingAfter (scanClusters d) = ⟨storedPrefixes d, storedSuffixes d⟩ := by
  have hclear : ∀ j, .clearSuffix j ∉ scanClusters d := by
    intro j hmem
    obtain ⟨cluster, -, -, hmem⟩ := mem_scanClusters.mp hmem
    exact scanDirectoryCluster_clears_nothing j hmem
  have hprefixes : (scanClusters d).flatMap Event.prefixes = storedPrefixes d := by
    rw [scanClusters, List.flatMap_assoc]
    apply List.flatMap_congr
    intro cluster _
    dsimp only
    split
    case isTrue => exact prefixes_scanDirectoryCluster
    case isFalse => rfl
  have hsuffixes : (scanClusters d).flatMap Event.suffixes = storedSuffixes d := by
    rw [scanClusters, List.flatMap_assoc]
    apply List.flatMap_congr
    intro cluster _
    dsimp only
    split
    case isTrue => exact suffixes_scanDirectoryCluster
    case isFalse hdir =>
      rw [if_neg fun hbegins => hdir (isDirectoryCluster_of_beginsInside d hbegins)]
      rfl
  rw [pendingAfter, foldl_apply_eq hclear, hprefixes, hsuffixes, List.nil_append, List.nil_append]

/-- The checksum of the prefix admits the suffix. -/
def compatible (d : Disk) (suffix first : Segment) : Bool :=
  match first.entryPtr, suffix.entryPtr with
  | some first, some second => entriesCompatible d first second
  | _, _ => false

/-- The prefix that a suffix is merged with. -/
def firstMatch (d : Disk) (prefixes : List Segment) (suffix : Segment) : Option Segment :=
  prefixes.find? (compatible d suffix)

theorem mem_of_firstMatch {prefixes : List Segment} {suffix first : Segment}
    (h : firstMatch d prefixes suffix = some first) :
    first ∈ prefixes ∧ compatible d suffix first = true := by
  rw [firstMatch] at h
  exact ⟨List.mem_of_find?_eq_some h, List.find?_some h⟩

theorem find?_range {α : Type} (p : α → Bool) (as : List α) :
    as.find? p =
      ((List.range as.length).find? fun i => (as[i]?).any p).bind fun i => as[i]? := by
  induction as with
  | nil => rfl
  | cons a as ih =>
      have hsucc : ((fun i => ((a :: as)[i]?).any p) ∘ Nat.succ) = fun i => (as[i]?).any p := rfl
      rw [List.length_cons, List.range_succ_eq_map, List.find?_cons, List.find?_cons,
        List.find?_map, hsucc, ih]
      by_cases ha : p a = true
      · simp [ha]
      · simp [ha, Option.bind_map]

variable {pending : Pending}

theorem admits_eq {i j : Nat} {suffix : Segment} (h : pending.suffixes[j]? = some suffix) :
    admits d pending (i, j) = (pending.prefixes[i]?).any (compatible d suffix) := by
  rw [admits, h]
  cases pending.prefixes[i]? with
  | none => rfl
  | some first =>
      rw [Option.any_some, compatible]
      obtain ⟨firstPtr, prefixLen⟩ := first
      obtain ⟨secondPtr, suffixLen⟩ := suffix
      cases firstPtr <;> cases secondPtr <;> rfl

theorem firstMatch_eq {j : Nat} {suffix : Segment} (h : pending.suffixes[j]? = some suffix) :
    firstMatch d pending.prefixes suffix =
      (firstPrefix d pending j).bind fun i => pending.prefixes[i]? := by
  rw [firstMatch, find?_range, firstPrefix]
  simp only [admits_eq h]

/-- A suffix is merged if there is a prefix for it. -/
theorem mem_merges_map_snd {j : Nat} {suffix : Segment} (h : pending.suffixes[j]? = some suffix) :
    j ∈ (merges d pending).map Prod.snd ↔
      ∃ first, firstMatch d pending.prefixes suffix = some first := by
  rw [firstMatch_eq h, List.mem_map]
  constructor
  · rintro ⟨⟨i, j⟩, hmem, rfl⟩
    have hfirst := mem_merges.mp hmem
    have hadmits := List.find?_some hfirst
    rw [admits_eq h] at hadmits
    rw [hfirst, Option.bind_some]
    cases hi : pending.prefixes[i]? with
    | none => simp [hi] at hadmits
    | some first => exact ⟨first, rfl⟩
  · rintro ⟨first, hfirst⟩
    obtain ⟨i, hi, -⟩ := Option.bind_eq_some_iff.mp hfirst
    exact ⟨(i, j), mem_merges.mpr hi, rfl⟩

theorem mem_mergeEvents {i j : Nat} {group : List Segment} :
    .analyze group ∈ mergeEvents pending (i, j) ↔
      ∃ first suffix, pending.prefixes[i]? = some first ∧ pending.suffixes[j]? = some suffix ∧
        group = [first, suffix] := by
  rw [mergeEvents]
  cases pending.prefixes[i]? with
  | none => simp
  | some first =>
      cases pending.suffixes[j]? with
      | none => simp
      | some suffix => simp

theorem mem_aloneEvents {j : Nat} {group : List Segment} :
    .analyze group ∈ aloneEvents pending j ↔
      ∃ suffix, pending.suffixes[j]? = some suffix ∧ group = [suffix] := by
  rw [aloneEvents]
  cases pending.suffixes[j]? with
  | none => simp
  | some suffix => simp

theorem unmatched_iff {j : Nat} {suffix : Segment} (h : pending.suffixes[j]? = some suffix) :
    Unmatched d pending j ↔ suffix.entryPtr ≠ none ∧ suffix.entryCount = 1 ∧
      firstMatch d pending.prefixes suffix = none := by
  rw [Unmatched, mem_merges_map_snd h, h, Option.any_some, decide_eq_true_eq, and_assoc,
    not_exists, Option.eq_none_iff_forall_ne_some]

/-- The groups that `resolve_pending_entries` analyses. -/
theorem analyze_mem_resolvePendingEntries {group : List Segment} :
    .analyze group ∈ resolvePendingEntries d pending ↔
      ∃ suffix ∈ pending.suffixes,
        (∃ first, firstMatch d pending.prefixes suffix = some first ∧ group = [first, suffix]) ∨
        (suffix.entryPtr ≠ none ∧ suffix.entryCount = 1 ∧
          firstMatch d pending.prefixes suffix = none) ∧ group = [suffix] := by
  rw [resolvePendingEntries_eq, List.mem_append, List.mem_flatMap, List.mem_flatMap]
  constructor
  · rintro (⟨⟨i, j⟩, hmem, hevent⟩ | ⟨j, hmem, hevent⟩)
    · obtain ⟨first, suffix, hi, hj, rfl⟩ := mem_mergeEvents.mp hevent
      refine ⟨suffix, List.mem_of_getElem? hj, .inl ⟨first, ?_, rfl⟩⟩
      rw [firstMatch_eq hj, mem_merges.mp hmem, Option.bind_some, hi]
    · obtain ⟨suffix, hj, rfl⟩ := mem_aloneEvents.mp hevent
      exact ⟨suffix, List.mem_of_getElem? hj, .inr ⟨(unmatched_iff hj).mp (mem_alone.mp hmem), rfl⟩⟩
  · rintro ⟨suffix, hsuffix, hgroup⟩
    obtain ⟨j, hj⟩ := List.mem_iff_getElem?.mp hsuffix
    rcases hgroup with ⟨first, hfirst, rfl⟩ | ⟨hunmatched, rfl⟩
    · rw [firstMatch_eq hj] at hfirst
      obtain ⟨i, hi, hfirst⟩ := Option.bind_eq_some_iff.mp hfirst
      exact .inl ⟨(i, j), mem_merges.mpr hi, mem_mergeEvents.mpr ⟨first, suffix, hfirst, hj, rfl⟩⟩
    · exact .inr ⟨j, mem_alone.mpr ((unmatched_iff hj).mpr hunmatched),
        mem_aloneEvents.mpr ⟨suffix, hj, rfl⟩⟩

end Pending

/-! ### The entries of a group -/

section Entries

/-- `n` entries, one after another. -/
def entriesFrom (entry : Int) (n : Nat) : List Int :=
  (List.range n).map fun (i : Nat) => entry + dirEntrySize * i

def Segment.entries (s : Segment) : List Int :=
  match s.entryPtr with
  | some p => entriesFrom p s.entryCount
  | none => []

/-- The entries of a group without the last one. -/
def longEntries (group : List Segment) : List Int := (group.flatMap Segment.entries).dropLast

/-- The last entry of a group. -/
def mainEntry (group : List Segment) : Option Int := (group.flatMap Segment.entries).getLast?

theorem entriesFrom_succ (entry : Int) (n : Nat) :
    entriesFrom entry (n + 1) = entriesFrom entry n ++ [entry + dirEntrySize * n] := by
  rw [entriesFrom, List.range_succ, List.map_append, List.map_singleton, entriesFrom]

theorem entries_some (p : Int) (n : Nat) :
    Segment.entries ⟨some p, n + 1⟩ = entriesFrom p n ++ [p + dirEntrySize * n] :=
  entriesFrom_succ p n

/-- The last entry of the last segment. -/
theorem mainEntry_concat (group : List Segment) (p : Int) (n : Nat) :
    mainEntry (group ++ [⟨some p, n + 1⟩]) = some (p + dirEntrySize * n) := by
  rw [mainEntry, List.flatMap_append, List.flatMap_singleton, entries_some, ← List.append_assoc,
    List.getLast?_concat]

theorem longEntries_concat (group : List Segment) (p : Int) (n : Nat) :
    longEntries (group ++ [⟨some p, n + 1⟩]) =
      group.flatMap Segment.entries ++ entriesFrom p n := by
  rw [longEntries, List.flatMap_append, List.flatMap_singleton, entries_some, ← List.append_assoc,
    List.dropLast_concat]

variable (d : Disk) (n : Nat) (entry : Int)

theorem mainEntry_groupAt : mainEntry [groupAt d n entry] = some entry := by
  have hmain := mainEntry_concat [] (entry - dirEntrySize * longsBefore d n entry)
    (longsBefore d n entry)
  rwa [Int.sub_add_cancel] at hmain

theorem longEntries_groupAt :
    longEntries [groupAt d n entry] =
      entriesFrom (entry - dirEntrySize * longsBefore d n entry) (longsBefore d n entry) :=
  longEntries_concat [] _ _

end Entries

/-! ### The image -/

section Image

variable (d : Disk)

/-- A group of the image that `analyze_entry` gets. -/
inductive ScanGroup : List Segment → Prop where
  /-- A short entry behind the first piece of a cluster. -/
  | inCluster {cluster : Int} {i : Nat} (hcluster : cluster ∈ clusters d)
      (hdir : isDirectoryCluster d (getClusterBase d cluster) = true)
      (hi : i < runEntries d (getClusterBase d cluster))
      (hshort : validateShortEntry d
        (runStart d (getClusterBase d cluster) + dirEntrySize * i) = true) :
      ScanGroup [groupAt d i (runStart d (getClusterBase d cluster) + dirEntrySize * i)]
  /-- The first piece of a cluster behind the prefix that it is merged with. -/
  | merged {first suffix : Segment} (hsuffix : suffix ∈ storedSuffixes d)
      (hfirst : firstMatch d (storedPrefixes d) suffix = some first) : ScanGroup [first, suffix]
  /-- A first piece of one entry. -/
  | alone {suffix : Segment} (hsuffix : suffix ∈ storedSuffixes d) (hcount : suffix.entryCount = 1)
      (hnone : firstMatch d (storedPrefixes d) suffix = none) : ScanGroup [suffix]

variable {d}

theorem mem_storedSuffixes {suffix : Segment} :
    suffix ∈ storedSuffixes d ↔ ∃ cluster ∈ clusters d,
      beginsInside d (getClusterBase d cluster) = true ∧
        suffix = ⟨some (getClusterBase d cluster), firstPiece d (getClusterBase d cluster)⟩ := by
  rw [storedSuffixes, List.mem_flatMap]
  refine exists_congr fun cluster => and_congr_right fun _ => ?_
  by_cases hbegins : beginsInside d (getClusterBase d cluster) = true
  · simp [hbegins]
  · simp [hbegins]

/-- **The groups that a full scan analyses.** -/
theorem analyze_mem_iff {group : List Segment} :
    .analyze group ∈ performFullScan d ↔ ScanGroup d group := by
  rw [performFullScan, List.mem_append, mem_scanClusters, pendingAfter_scanClusters,
    analyze_mem_resolvePendingEntries]
  dsimp only
  constructor
  · rintro (⟨cluster, hcluster, hdir, hmem⟩ | ⟨suffix, hsuffix, hgroup⟩)
    · obtain ⟨i, hi, hshort, rfl⟩ := analyze_mem_scanDirectoryCluster.mp hmem
      exact .inCluster hcluster hdir hi hshort
    · rcases hgroup with ⟨first, hfirst, rfl⟩ | ⟨⟨-, hcount, hnone⟩, rfl⟩
      · exact .merged hsuffix hfirst
      · exact .alone hsuffix hcount hnone
  · intro h
    cases h with
    | inCluster hcluster hdir hi hshort =>
        exact .inl ⟨_, hcluster, hdir, analyze_mem_scanDirectoryCluster.mpr ⟨_, hi, hshort, rfl⟩⟩
    | merged hsuffix hfirst => exact .inr ⟨_, hsuffix, .inl ⟨_, hfirst, rfl⟩⟩
    | alone hsuffix hcount hnone =>
        obtain ⟨cluster, -, -, rfl⟩ := mem_storedSuffixes.mp hsuffix
        exact .inr ⟨_, hsuffix, .inr ⟨⟨Option.some_ne_none _, hcount, hnone⟩, rfl⟩⟩

end Image

end NjuOs.Fsrecov
