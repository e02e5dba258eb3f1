import NjuOs.Fsrecov.Groups
import NjuOs.Fsrecov.LongName

/-!
How long the names are that `analyze_entry` assembles.

`full_name` has 256 bytes, and nothing tests a length. How many long entries there
are in a group is bounded by the cluster only, or by a prefix and a first piece
together. The names fit exactly when there is room for the pending pieces and what the
disk holds in front of the entries that end a group fits (`names_fit_iff`); a name of
255 characters, which is allowed, is too long with the padding behind it.
-/

namespace NjuOs.Fsrecov

open NjuOs.Lib

section Names

variable (d : Disk)

/-- What `analyze_entry` concatenates for these long entries. -/
def concatenated (longs : List Int) : Bytes :=
  longs.reverse.flatMap fun lfn => cstr (decodeLongName d lfn)

/-- The number of characters that some entries hold, up to the first NUL of a part and
to a unit that is stored as a NUL. -/
def charsIn (entries : List Int) : Nat :=
  (entries.map fun lfn => (cstr (decodeLongName d lfn)).length).sum

/-- The long entries directly in front of an entry, of the `n` that are looked at. -/
def longsInFront (n : Nat) (entry : Int) : List Int :=
  entriesFrom (entry - dirEntrySize * longsBefore d n entry) (longsBefore d n entry)

/-- Every name fits into `full_name`, and no group is made of what was stored out of bounds. -/
structure NamesFit : Prop where
  stored : StoresInside d
  names : ∀ group, .analyze group ∈ performFullScan d →
    (concatenated d (longEntries group)).length ≤ 255

/-- The long entries in front of the entries that end a group hold 255 characters at most. -/
structure GroupsFit : Prop where
  run : ∀ cluster ∈ clusters d, isDirectoryCluster d (getClusterBase d cluster) = true →
    ∀ i < runEntries d (getClusterBase d cluster),
      validateShortEntry d (runStart d (getClusterBase d cluster) + dirEntrySize * i) = true →
        charsIn d (longsInFront d i
          (runStart d (getClusterBase d cluster) + dirEntrySize * i)) ≤ 255
  merged : ∀ cluster ∈ clusters d, ∀ first, beginsInside d (getClusterBase d cluster) = true →
    firstMatch d (storedPrefixes d)
      ⟨some (getClusterBase d cluster), firstPiece d (getClusterBase d cluster)⟩ = some first →
        charsIn d first.entries +
          charsIn d (entriesFrom (getClusterBase d cluster)
            (firstPiece d (getClusterBase d cluster) - 1)) ≤ 255

variable {d}

theorem length_concatenated (longs : List Int) :
    (concatenated d longs).length = charsIn d longs := by
  rw [concatenated, List.length_flatMap, charsIn, List.map_reverse, List.sum_reverse]

theorem charsIn_append (entries entries' : List Int) :
    charsIn d (entries ++ entries') = charsIn d entries + charsIn d entries' := by
  rw [charsIn, List.map_append, List.sum_append]
  rfl

theorem assembleName_concatenated (longs : List Int) :
    assembleName d longs =
      if (concatenated d longs).length < 256 then some (concatenated d longs) else none := by
  have hjoined := strcatFullName_foldlM d longs.reverse (show ([] : Bytes).length < 256 by decide)
  have happended : (longs.reverse.map (nameUnits d)).flatMap appended = concatenated d longs := by
    rw [List.flatMap_map, concatenated]
    apply List.flatMap_congr
    intro lfn _
    rw [appended, decodeLongName_eq]
  rw [happended, List.nil_append] at hjoined
  exact hjoined

theorem analyzeEntry_overflow {longs : List Int} {entry : Int} (hskips : skipsEntry d entry = false)
    (h : 255 < (concatenated d longs).length) : analyzeEntry d longs entry = .overflow := by
  rw [analyzeEntry, hskips, assembleName_concatenated, if_neg (Nat.not_lt.mpr h)]
  rfl

theorem longEntries_piece (group : List Segment) {clusterBase : Int}
    (h : beginsInside d clusterBase = true) :
    longEntries (group ++ [⟨some clusterBase, firstPiece d clusterBase⟩]) =
      group.flatMap Segment.entries ++ entriesFrom clusterBase (firstPiece d clusterBase - 1) := by
  have hpos := (firstPiece_pos_iff d clusterBase).mpr h
  obtain ⟨k, hk⟩ := Nat.exists_eq_succ_of_ne_zero (Nat.ne_of_gt hpos)
  rw [hk, longEntries_concat, Nat.succ_sub_one]

/-- The names of the groups that a scan makes. -/
theorem scanGroups_fit_iff :
    (∀ group, ScanGroup d group → charsIn d (longEntries group) ≤ 255) ↔ GroupsFit d := by
  constructor
  · intro h
    constructor
    case run =>
      intro cluster hcluster hdir i hi hshort
      have hgroup := h _ (.inCluster hcluster hdir hi hshort)
      rwa [longEntries_groupAt] at hgroup
    case merged =>
      intro cluster hcluster first hbegins hfirst
      have hsuffix := mem_storedSuffixes.mpr ⟨cluster, hcluster, hbegins, rfl⟩
      have hgroup := h _ (.merged hsuffix hfirst)
      have hlongs := longEntries_piece [first] hbegins
      rw [List.singleton_append] at hlongs
      rwa [hlongs, charsIn_append, List.flatMap_singleton] at hgroup
  · intro h group hgroup
    cases hgroup with
    | inCluster hcluster hdir hi hshort =>
        rw [longEntries_groupAt]
        exact h.run _ hcluster hdir _ hi hshort
    | @merged first suffix hsuffix hfirst =>
        obtain ⟨cluster, hcluster, hbegins, rfl⟩ := mem_storedSuffixes.mp hsuffix
        have hlongs := longEntries_piece [first] hbegins
        rw [List.singleton_append] at hlongs
        rw [hlongs, charsIn_append, List.flatMap_singleton]
        exact h.merged cluster hcluster first hbegins hfirst
    | alone hsuffix hcount hnone =>
        obtain ⟨cluster, hcluster, hbegins, rfl⟩ := mem_storedSuffixes.mp hsuffix
        dsimp only at hcount
        have hlongs := longEntries_piece [] hbegins
        rw [List.nil_append] at hlongs
        rw [hlongs, hcount]
        exact Nat.zero_le _

/-- **The names fit** exactly when there is room for the pieces, and what is on the disk in front
of the entries that end a group fits. -/
theorem names_fit_iff (d : Disk) : NamesFit d ↔ FewPieces d ∧ GroupsFit d := by
  rw [← storesInside_iff, ← scanGroups_fit_iff]
  constructor
  · rintro ⟨hstored, hnames⟩
    refine ⟨hstored, fun group hgroup => ?_⟩
    rw [← length_concatenated]
    exact hnames group (analyze_mem_iff.mpr hgroup)
  · rintro ⟨hstored, hgroups⟩
    refine ⟨hstored, fun group hgroup => ?_⟩
    rw [length_concatenated]
    exact hgroups group (analyze_mem_iff.mp hgroup)

end Names

/-- A cluster of 1024 bytes with the 20 long entries of a name of 255 characters `a`, the
last of them first, and the short entry of its file behind them; the file is in the
other cluster. -/
def longestNameDisk : Disk where
  size := 3584
  byte p :=
    if p = 13 then 2
    else
      (smallDisk 7 fun q =>
        if q < 640 then
          if q % 32 = 0 then if q = 0 then 0x54 else UInt8.ofNat (20 - q.toNat / 32)
          else if q % 32 = 11 then 0x0F
          else if q = 20 ∨ q = 21 then 0
          else if 22 ≤ q ∧ q ≤ 25 ∨ 28 ≤ q ∧ q ≤ 31 then 0xFF
          else if q % 32 ∈ [1, 3, 5, 7, 9, 14, 16, 18, 20, 22, 24, 28, 30] then 0x61
          else 0
        else ([(640, 0x41), (651, 0x20), (666, 3), (668, 16), (1024, 0x42), (1025, 0x4D)].lookup
          q).getD 0).byte p

/-- Two units of padding behind the name are two characters too many. -/
theorem longest_name_overflows :
    LoadDiskImage longestNameDisk ∧ .analyze [⟨some 1536, 21⟩] ∈ performFullScan longestNameDisk ∧
      concatenated longestNameDisk (longEntries [⟨some 1536, 21⟩]) =
        List.replicate 255 0x61 ++ [0xFF, 0xFF] ∧
      analyzeEntry longestNameDisk (longEntries [⟨some 1536, 21⟩]) 2176 = .overflow ∧
        ¬ NamesFit longestNameDisk := by
  have hscan : .analyze [⟨some 1536, 21⟩] ∈ performFullScan longestNameDisk := by decide +kernel
  have hname : concatenated longestNameDisk (longEntries [⟨some 1536, 21⟩]) =
      List.replicate 255 0x61 ++ [0xFF, 0xFF] := by decide +kernel
  have hlong : 255 < (concatenated longestNameDisk (longEntries [⟨some 1536, 21⟩])).length := by
    rw [hname, List.length_append, List.length_replicate]
    decide
  have hskips : skipsEntry longestNameDisk 2176 = false := by decide +kernel
  exact ⟨⟨by decide, by decide, by decide⟩, hscan, hname, analyzeEntry_overflow hskips hlong,
    fun h => absurd (h.names _ hscan) (Nat.not_le.mpr hlong)⟩

end NjuOs.Fsrecov
