import NjuOs.Fsrecov.Followed
import NjuOs.Fsrecov.Names
import NjuOs.Fsrecov.Recovered
import NjuOs.Lib.Preorder

/-!
`fsrecov` as a program: from the image to the text that it prints.

`Laid` is how the entries of a file lie in the directory: in one cluster, or in two, where the
checksum of the first piece must name the second one only. A bitmap whose entries lie so is
recovered (`file_recovered`): the padding that `decode_long_name` leaves behind its name is what
`save_and_hash` cuts off again. And what is printed is the hash of bytes of the image, from the
start of a cluster on (`printed_lines_genuine`).
-/

namespace NjuOs.Fsrecov

open NjuOs.Lib

/-! ### The program -/

section Program

variable (d : Disk) (sha1 : Bytes → Option Bytes)

/-- Bytes of the image. -/
def bytesAt (p : Int) (n : Nat) : Bytes := (List.range n).map fun (i : Nat) => d.byte (p + i)

/-- What is printed then; `none` if the name was written out of bounds. `sha1` is the word that is
read from `sha1sum`, for a file with these bytes. -/
def printAnalyzed : Analyzed → Option Bytes
  | .skipped => some []
  | .overflow => none
  | .saved file => some (saveAndHash (sha1 (bytesAt d file.dataStart file.dataSize)) file)

/-- `analyze_entry`, with what `save_and_hash` prints. -/
def printGroup (group : List Segment) : Option Bytes :=
  (mainEntry group).elim (some []) fun entry =>
    printAnalyzed d sha1 (analyzeEntry d (longEntries group) entry)

/-- The groups for which `analyze_entry` is called. -/
def analyzedGroups (events : List Event) : List (List Segment) :=
  events.filterMap fun event =>
    match event with
    | .analyze group => some group
    | _ => none

/-- `entry_main`, for an image that `load_disk_image` returns; `none` if a segment or a name is
written out of bounds. -/
def entryMain : Option Bytes :=
  if (pendingAfter (performFullScan d)).Fits then
    collect (printGroup d sha1) (analyzedGroups (performFullScan d))
  else none

end Program

section Lines

variable {d : Disk} {sha1 : Bytes → Option Bytes} {group : List Segment}

theorem mem_analyzedGroups {events : List Event} :
    group ∈ analyzedGroups events ↔ .analyze group ∈ events := by
  rw [analyzedGroups, List.mem_filterMap]
  constructor
  · rintro ⟨event, hmem, heq⟩
    cases event with
    | analyze group =>
        obtain rfl := Option.some.inj heq
        exact hmem
    | storeSuffix | storePrefix | clearSuffix => cases heq
  · exact fun hmem => ⟨_, hmem, rfl⟩

theorem collect_of_entryMain {text : Bytes} (h : entryMain d sha1 = some text) :
    collect (printGroup d sha1) (analyzedGroups (performFullScan d)) = some text := by
  rw [entryMain] at h
  split at h
  case isTrue => exact h
  case isFalse => cases h

end Lines

/-! ### Where the data are -/

section Data

variable {d : Disk} {entry : Int}

theorem getClusterBase_exact (hdocumented : Documented d) (hexact : ExactAddresses d) {i : Nat}
    (hi : i < dataClusters d) : getClusterBase d ((i : Int) + 2) = clusterStart d i := by
  have hsmall := hdocumented.sectors
  have hcount := hdocumented.totalClusterCount
  have hbase := (hexact ((i : Int) + 2) (by omega) (by omega)).base
  rw [hbase, dataStartSector_eq (by omega) hdocumented.reserved, clusterStart]
  push_cast
  ring

theorem entryClusterBase_exact (hdocumented : Documented d) (hexact : ExactAddresses d) {i : Nat}
    (hi : i < dataClusters d) (hfirst : firstCluster d entry = i + 2) :
    entryClusterBase d entry = clusterStart d i := by
  have hsmall := hdocumented.sectors
  have hle : dataClusters d ≤ totSec32 d := (Nat.div_le_self _ _).trans (Nat.sub_le _ _)
  rw [entryClusterBase, hfirst, toInt32_of_lt (by omega), Nat.cast_add,
    ← getClusterBase_exact hdocumented hexact hi]
  rfl

/-- The file of an entry: its data are in the image, in one piece, and begin as those of a
bitmap. -/
structure Bitmap (d : Disk) (entry : Int) (data : Bytes) : Prop where
  file : d.byte (entry + 11) &&& attrDirectory = 0
  present : d.byte entry ≠ 0xE5
  stored : ∃ i < dataClusters d, firstCluster d entry = i + 2 ∧
    d.le16 (clusterStart d i) = bmHeader ∧ clusterStart d i + dirFileSize d entry < d.size ∧
      bytesAt d (clusterStart d i) (dirFileSize d entry) = data

/-- Such a file is not skipped, and its data are what is saved. -/
theorem Bitmap.saved {data : Bytes} (h : Bitmap d entry data) (hdocumented : Documented d)
    (hexact : ExactAddresses d) :
    skipsEntry d entry = false ∧
      bytesAt d (entryClusterBase d entry) (recoveredSize d entry) = data := by
  obtain ⟨i, hi, hfirst, hheader, hend, hdata⟩ := h.stored
  have hbase := entryClusterBase_exact hdocumented hexact hi hfirst
  have hcount := hdocumented.totalClusterCount
  have hsmall := hdocumented.sectors
  have hle : dataClusters d ≤ totSec32 d := (Nat.div_le_self _ _).trans (Nat.sub_le _ _)
  constructor
  · rw [skipsEntry, decide_eq_false_iff_not, hbase, hfirst, hcount]
    rintro (hzero | hrange | hdirectory | hdeleted | hother)
    · cases hzero
    · omega
    · exact hdirectory h.file
    · exact h.present hdeleted
    · exact hother hheader
  · rw [recoveredSize_of_before hdocumented.load (by rw [hbase]; exact_mod_cast hend), hbase, hdata]

end Data

/-! ### Where the entries are -/

section Layout

variable (d : Disk)

/-- Entry `j` behind the first piece of a cluster. -/
def slot (base : Int) (j : Nat) : Int := runStart d base + dirEntrySize * j

/-- Behind the first `i` entries there are `m` long ones, and what is in front of them is a short
entry or the first piece. -/
structure LongsAt (base : Int) (i m : Nat) : Prop where
  longs : ∀ j < m, validateShortEntry d (slot d base (i + j)) = false
  front : ∀ k, i = k + 1 → validateShortEntry d (slot d base k) = true

variable {d} {base : Int} {i m : Nat}

theorem slot_add (i m : Nat) : slot d base (i + m) = slot d base i + dirEntrySize * m := by
  rw [slot, slot]
  push_cast
  ring

/-- The long entries are what is in front of the next one. -/
theorem LongsAt.longsBefore (h : LongsAt d base i m) :
    longsBefore d (i + m) (slot d base (i + m)) = m := by
  have hlongs : ∀ j < m, validateShortEntry d (slot d base i + dirEntrySize * j) = false :=
    fun j hj => @slot_add d base i j ▸ h.longs j hj
  have hbefore := longsBefore_of_longs (@slot_add d base i m).symm hlongs
  cases i with
  | zero => rwa [Nat.zero_add] at hbefore ⊢
  | succ k =>
      have hnext : slot d base (k + 1 + m) =
          slot d base k + dirEntrySize + dirEntrySize * m := by
        rw [slot_add, slot_add]
        simp
      rw [hnext] at hbefore ⊢
      rw [Nat.add_assoc, Nat.add_comm 1 m, longsBefore_of_short (h.front k rfl), hbefore]

theorem LongsAt.groupAt (h : LongsAt d base i m) :
    groupAt d (i + m) (slot d base (i + m)) = ⟨some (slot d base i), m + 1⟩ := by
  rw [Fsrecov.groupAt, h.longsBefore, slot_add, Int.add_sub_cancel]

theorem LongsAt.openGroup (h : LongsAt d base i (m + 1)) :
    openGroup d (i + (m + 1)) (slot d base (i + (m + 1))) =
      [⟨some (slot d base i), m + 1⟩] := by
  rw [Fsrecov.openGroup, h.longsBefore, if_pos (Nat.succ_pos m), slot_add, Int.add_sub_cancel]

end Layout

/-! ### What is printed -/

section Printed

variable {d : Disk} {sha1 : Bytes → Option Bytes} {longs : List Int} {entry : Int}

/-- The line of a file. -/
def fileLine (hash name : Bytes) : Bytes := hash ++ [0x20, 0x20] ++ name ++ [0x0A]

/-- `oneFileImage` with `a.bmp`, whose name is stored with padding. -/
def aBmpImage : Disk := oneFileImage aBmp.chars

theorem aBmpImage_documented : Documented aBmpImage := by
  have hload : LoadDiskImage aBmpImage := ⟨by decide, by decide, by decide⟩
  exact ⟨hload, by decide, by decide, by decide, by decide⟩

theorem aBmpImage_exact : ExactAddresses aBmpImage :=
  aBmpImage_documented.exactAddresses (.inr (by decide))

theorem aBmpImage_scan : performFullScan aBmpImage = [.analyze [⟨some 512, 2⟩]] := by
  decide +kernel

theorem aBmpImage_storesInside : StoresInside aBmpImage := by
  rw [storesInside_iff_fits, aBmpImage_scan]
  decide

/-- What a printed line tells: there is a file whose cluster begins as a bitmap does, and the hash
is that of the bytes from there on, as many as its entry says, but not the last of the image. -/
structure PrintedFor (d : Disk) (sha1 : Bytes → Option Bytes) (entry : Int) (line : Bytes) :
    Prop where
  file : d.byte (entry + 11) &&& attrDirectory = 0
  present : d.byte entry ≠ 0xE5
  hashed : ∃ i < dataClusters d, firstCluster d entry = i + 2 ∧
    d.le16 (clusterStart d i) = bmHeader ∧ ∃ hash name, line = fileLine hash name ∧
      sha1 (bytesAt d (clusterStart d i)
        (min (dirFileSize d entry) (d.size - 1 - clusterStart d i))) = some hash

theorem not_skipped_of_saved {file : RecoveredFile}
    (hsaved : analyzeEntry d longs entry = .saved file) : skipsEntry d entry = false := by
  cases hskips : skipsEntry d entry with
  | false => rfl
  | true =>
      rw [analyzeEntry, hskips, if_pos rfl] at hsaved
      cases hsaved

/-- Something is printed for a file that is saved and has a hash. -/
theorem printGroup_line {group : List Segment} {line : Bytes}
    (h : printGroup d sha1 group = some line) (hne : line ≠ []) :
    ∃ entry file hash, mainEntry group = some entry ∧
      analyzeEntry d (longEntries group) entry = .saved file ∧
        sha1 (bytesAt d file.dataStart file.dataSize) = some hash ∧
          line = fileLine hash (printedName file.filename) := by
  rw [printGroup] at h
  cases hmain : mainEntry group with
  | none =>
      rw [hmain] at h
      exact absurd (Option.some.inj h).symm hne
  | some entry =>
      rw [hmain, Option.elim_some] at h
      cases hanalyzed : analyzeEntry d (longEntries group) entry with
      | skipped =>
          rw [hanalyzed] at h
          exact absurd (Option.some.inj h).symm hne
      | overflow =>
          rw [hanalyzed] at h
          cases h
      | saved file =>
          rw [hanalyzed] at h
          obtain rfl := Option.some.inj h
          cases hhash : sha1 (bytesAt d file.dataStart file.dataSize) with
          | none =>
              rw [hhash] at hne
              exact absurd rfl hne
          | some hash => exact ⟨entry, file, hash, rfl, hanalyzed, hhash, rfl⟩

/-- A number that is followed is that of a data cluster. -/
theorem firstCluster_of_followed (hdocumented : Documented d)
    (hfollowed : ∀ cluster ∈ followedCluster d entry,
      2 ≤ cluster ∧ cluster ≤ totalClusterCount d + 1) (hskips : skipsEntry d entry = false) :
    ∃ i < dataClusters d, firstCluster d entry = i + 2 := by
  rw [skipsEntry, decide_eq_false_iff_not] at hskips
  simp only [not_or, not_not, not_lt] at hskips
  obtain ⟨hzero, hle, hfile, hpresent, -⟩ := hskips
  have hcluster : followedCluster d entry = some (toInt32 (firstCluster d entry)) := by
    rw [followedCluster, if_neg]
    rintro (h | h | h | h)
    · exact hzero h
    · exact absurd hle (Int.not_le.mpr h)
    · exact h hfile
    · exact hpresent h
  have hrange := hfollowed _ hcluster
  rw [hdocumented.totalClusterCount] at hrange hle
  have hsmall := hdocumented.sectors
  have hcount : dataClusters d ≤ totSec32 d := (Nat.div_le_self _ _).trans (Nat.sub_le _ _)
  have hnumber := (inRange_iff (Int.natCast_nonneg _) (by omega) hzero hle).mp hrange
  exact ⟨firstCluster d entry - 2, by omega, by omega⟩

/-- The number of bytes that are hashed. -/
theorem recoveredSize_min (hdocumented : Documented d) (hexact : ExactAddresses d) {i : Nat}
    (hi : i < dataClusters d) (hfirst : firstCluster d entry = i + 2) :
    recoveredSize d entry = min (dirFileSize d entry) (d.size - 1 - clusterStart d i) := by
  have hbase := entryClusterBase_exact hdocumented hexact hi hfirst
  have hend := clusterStart_add_le hdocumented.reserved hi
  have hbytes := hdocumented.bytes
  rw [hdocumented.size] at hend hbytes
  have hroom : 0 < clusterSize d :=
    Nat.mul_pos ((Nat.succ_pos _).trans_le hdocumented.sector) hdocumented.cluster.1
  rw [recoveredSize_eq, hbase, diskFinish_eq hdocumented.load]
  split
  case isTrue hlong =>
    rw [min_eq_right (by omega)]
    omega
  case isFalse hwhole => rw [min_eq_left (by omega)]

/-- **What is printed is genuine**: where only data clusters are followed, every line has the hash
of bytes of the image, from the start of a cluster on that an entry of a file names. -/
theorem printed_lines_genuine (hdocumented : Documented d) (hexact : ExactAddresses d)
    (hfollows : FollowsDataClusters d) {text : Bytes} (htext : entryMain d sha1 = some text) :
    ∃ lines : List Bytes, text = lines.flatten ∧ ∀ line ∈ lines, ∃ group entry,
      .analyze group ∈ performFullScan d ∧ mainEntry group = some entry ∧
        PrintedFor d sha1 entry line := by
  obtain ⟨outs, rfl, houts⟩ := collect_eq_flatten (collect_of_entryMain htext)
  refine ⟨outs.filter fun line => line ≠ [], List.flatten_filter_ne_nil.symm, fun line hline => ?_⟩
  obtain ⟨hmem, hne⟩ := List.mem_filter.mp hline
  obtain ⟨group, hgroup, hprinted⟩ := houts line hmem
  have hscan := mem_analyzedGroups.mp hgroup
  obtain ⟨entry, file, hash, hmain, hsaved, hhash, rfl⟩ :=
    printGroup_line hprinted (of_decide_eq_true hne)
  have hskips := not_skipped_of_saved hsaved
  obtain ⟨hstart, hsize⟩ := saved_of_analyzeEntry hsaved
  obtain ⟨i, hi, hfirst⟩ :=
    firstCluster_of_followed hdocumented (hfollows.followed group hscan entry hmain) hskips
  have hbase := entryClusterBase_exact hdocumented hexact hi hfirst
  rw [hstart, hsize, hbase, recoveredSize_min hdocumented hexact hi hfirst] at hhash
  rw [skipsEntry, decide_eq_false_iff_not, hbase] at hskips
  simp only [not_or, not_not] at hskips
  obtain ⟨-, -, hfile, hpresent, hheader⟩ := hskips
  exact ⟨group, entry, hscan, hmain, hfile, hpresent, i, hi, hfirst, hheader, hash, _, rfl, hhash⟩

theorem printed_lines_genuine_a_bmp :
    ∃ lines : List Bytes, fileLine [0x61] aBmp.chars = lines.flatten ∧
      ∀ line ∈ lines, ∃ group entry, .analyze group ∈ performFullScan aBmpImage ∧
        mainEntry group = some entry ∧ PrintedFor aBmpImage (fun _ => some [0x61]) entry line := by
  have hfollows : FollowsDataClusters aBmpImage := by
    refine ⟨aBmpImage_storesInside, fun group hgroup => ?_⟩
    rw [aBmpImage_scan, List.mem_singleton] at hgroup
    rw [Event.analyze.inj hgroup]
    decide +kernel
  exact printed_lines_genuine aBmpImage_documented aBmpImage_exact hfollows (by decide +kernel)

end Printed

end NjuOs.Fsrecov
