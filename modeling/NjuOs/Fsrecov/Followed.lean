import NjuOs.Fsrecov.Groups
import NjuOs.Fsrecov.LongName

/-!
Which clusters `analyze_entry` follows.

It follows the cluster number of the last entry of a group. Most numbers were
compared with the range of the data clusters before; where the name of an entry
begins with a dot, and where a piece was skipped over, nothing excludes cluster 1,
and `analyze_entry` itself excludes only cluster 0 (`follows_data_clusters_iff`). As
with the names, this is about scans with room for the pending pieces.
-/

namespace NjuOs.Fsrecov

open NjuOs.Lib

/-! ### The cluster number -/

section Number

/-- The number with which `analyze_entry` calls `get_cluster_base`, if it does. -/
def followedCluster (d : Disk) (entry : Int) : Option Int :=
  if firstCluster d entry = 0 ∨
      -- the comparison is one of `u32`
      (firstCluster d entry : Int) > (totalClusterCount d + 1) % 2 ^ 32 ∨
      d.byte (entry + 11) &&& attrDirectory ≠ 0 ∨ d.byte entry = 0xE5 then none
  else some (toInt32 (firstCluster d entry))

/-- An entry of a file with a number that is followed and is none of a data cluster. -/
structure Stray (d : Disk) (entry : Int) : Prop where
  number : firstCluster d entry = 1 ∨ firstCluster d entry = 2 ^ 31
  inRange : (firstCluster d entry : Int) ≤ (totalClusterCount d + 1) % 2 ^ 32
  file : d.byte (entry + 11) &&& attrDirectory = 0
  present : d.byte entry ≠ 0xE5

variable {d : Disk}

/-- The second test of `analyze_entry` is about that cluster. -/
theorem skipsEntry_iff {entry : Int} :
    skipsEntry d entry = true ↔
      ∀ cluster ∈ followedCluster d entry, d.le16 (getClusterBase d cluster) ≠ bmHeader := by
  rw [skipsEntry, followedCluster, decide_eq_true_eq]
  split
  case isTrue hskip =>
    refine iff_of_true ?_ nofun
    rcases hskip with h | h | h | h
    · exact .inl h
    · exact .inr (.inl h)
    · exact .inr (.inr (.inl h))
    · exact .inr (.inr (.inr (.inl h)))
  case isFalse hfollow =>
    constructor
    · rintro (h | h | h | h | h) cluster hcluster
      · exact absurd (.inl h) hfollow
      · exact absurd (.inr (.inl h)) hfollow
      · exact absurd (.inr (.inr (.inl h))) hfollow
      · exact absurd (.inr (.inr (.inr h))) hfollow
      · obtain rfl := Option.some.inj hcluster
        exact h
    · exact fun h => .inr (.inr (.inr (.inr (h _ rfl))))

theorem toInt32_lt (x : Int) : toInt32 x < 2 ^ 31 := by
  have hlt := @Int.bmod_lt x (2 ^ 32) (by decide)
  rw [toInt32]
  omega

theorem totalClusterCount_lt (d : Disk) : totalClusterCount d < 2 ^ 31 := toInt32_lt _

/-- The number as an `int`, if there are data clusters and it is at most the last one's. -/
theorem inRange_iff {number : Nat} {last : Int} (hlast : 0 ≤ last) (hlast' : last < 2 ^ 31)
    (hzero : number ≠ 0) (hle : (number : Int) ≤ (last + 1) % 2 ^ 32) :
    (2 ≤ toInt32 number ∧ toInt32 number ≤ last + 1) ↔ ¬ (number = 1 ∨ number = 2 ^ 31) := by
  have hmod : (last + 1) % 2 ^ 32 = last + 1 := Int.emod_eq_of_lt (by omega) (by omega)
  rw [hmod] at hle
  rcases Nat.lt_or_ge number (2 ^ 31) with hsmall | hlarge
  · rw [toInt32_of_lt hsmall]
    omega
  · obtain rfl : number = 2 ^ 31 := by omega
    have hwrap : toInt32 ((2 ^ 31 : Nat) : Int) = -2 ^ 31 := by decide
    rw [hwrap]
    omega

/-- Where there are data clusters, the numbers that are followed are theirs, those of
stray entries apart. -/
theorem followed_inRange_iff (hcount : 0 ≤ totalClusterCount d) {entry : Int} :
    (∀ cluster ∈ followedCluster d entry, 2 ≤ cluster ∧ cluster ≤ totalClusterCount d + 1) ↔
      ¬ Stray d entry := by
  rw [followedCluster]
  split
  case isTrue hskip =>
    refine iff_of_true nofun fun h => ?_
    rcases hskip with hzero | hrange | hdirectory | hdeleted
    · rcases h.number with hnumber | hnumber
      · rw [hnumber] at hzero
        cases hzero
      · rw [hnumber] at hzero
        cases hzero
    · exact absurd h.inRange (Int.not_le.mpr hrange)
    · exact hdirectory h.file
    · exact h.present hdeleted
  case isFalse hfollow =>
    simp only [not_or, not_lt, not_not] at hfollow
    obtain ⟨hzero, hrange, hfile, hpresent⟩ := hfollow
    have hiff := inRange_iff hcount (totalClusterCount_lt d) hzero hrange
    constructor
    · intro h hstray
      exact hiff.mp (h _ rfl) hstray.number
    · intro hstray cluster hcluster
      obtain rfl := Option.some.inj hcluster
      exact hiff.mpr fun hnumber => hstray ⟨hnumber, hrange, hfile, hpresent⟩

end Number

/-! ### The image -/

section Image

variable (d : Disk)

/-- The full scan looks for data in data clusters only, and no group is made of what was stored
out of bounds. -/
structure FollowsDataClusters : Prop where
  stored : StoresInside d
  followed : ∀ group, .analyze group ∈ performFullScan d → ∀ entry ∈ mainEntry group,
    ∀ cluster ∈ followedCluster d entry, 2 ≤ cluster ∧ cluster ≤ totalClusterCount d + 1

/-- The last entry of the first piece of a cluster. -/
def pieceEnd (clusterBase : Int) : Int :=
  clusterBase + dirEntrySize * (firstPiece d clusterBase - 1 : Nat)

/-- The first piece of the cluster is one entry, or there is a prefix for it. -/
def PieceUsed (clusterBase : Int) : Prop :=
  firstPiece d clusterBase = 1 ∨ ∃ first ∈ storedPrefixes d,
    compatible d ⟨some clusterBase, firstPiece d clusterBase⟩ first = true

/-- No stray entry is where a group ends: behind the first piece of a cluster as a short
entry, or at the end of a first piece that is used. -/
structure NoStray : Prop where
  run : ∀ cluster ∈ clusters d, isDirectoryCluster d (getClusterBase d cluster) = true →
    ∀ i < runEntries d (getClusterBase d cluster),
      validateShortEntry d (runStart d (getClusterBase d cluster) + dirEntrySize * i) = true →
        ¬ Stray d (runStart d (getClusterBase d cluster) + dirEntrySize * i)
  piece : ∀ cluster ∈ clusters d, beginsInside d (getClusterBase d cluster) = true →
    PieceUsed d (getClusterBase d cluster) → ¬ Stray d (pieceEnd d (getClusterBase d cluster))

variable {d}

theorem totalClusterCount_nonneg {cluster : Int} (h : cluster ∈ clusters d) :
    0 ≤ totalClusterCount d := by
  obtain ⟨i, hi, -⟩ := List.mem_map.mp h
  rw [List.mem_range] at hi
  omega

/-- Where there is a cluster, there are data clusters. -/
theorem followed_iff {cluster : Int} (h : cluster ∈ clusters d) (entry : Int) :
    (∀ cluster ∈ followedCluster d entry, 2 ≤ cluster ∧ cluster ≤ totalClusterCount d + 1) ↔
      ¬ Stray d entry :=
  followed_inRange_iff (totalClusterCount_nonneg h)

theorem mainEntry_piece (group : List Segment) {clusterBase : Int}
    (h : beginsInside d clusterBase = true) :
    mainEntry (group ++ [⟨some clusterBase, firstPiece d clusterBase⟩]) =
      some (pieceEnd d clusterBase) := by
  have hpos := (firstPiece_pos_iff d clusterBase).mpr h
  obtain ⟨k, hk⟩ := Nat.exists_eq_succ_of_ne_zero (Nat.ne_of_gt hpos)
  rw [pieceEnd, hk, mainEntry_concat, Nat.succ_sub_one]

/-- A piece that is used is the end of a group. -/
theorem exists_scanGroup {cluster : Int} (hcluster : cluster ∈ clusters d)
    (hbegins : beginsInside d (getClusterBase d cluster) = true)
    (hused : PieceUsed d (getClusterBase d cluster)) :
    ∃ group, ScanGroup d group ∧
      mainEntry group = some (pieceEnd d (getClusterBase d cluster)) := by
  have hsuffix := mem_storedSuffixes.mpr ⟨cluster, hcluster, hbegins, rfl⟩
  cases hfirst : firstMatch d (storedPrefixes d)
      ⟨some (getClusterBase d cluster), firstPiece d (getClusterBase d cluster)⟩ with
  | some first => exact ⟨_, .merged hsuffix hfirst, mainEntry_piece [first] hbegins⟩
  | none =>
      refine ⟨_, .alone hsuffix (hused.resolve_right ?_) hfirst, mainEntry_piece [] hbegins⟩
      rintro ⟨first, hmem, hcompatible⟩
      exact List.find?_eq_none.mp hfirst first hmem hcompatible

/-- The clusters of the groups that a scan makes. -/
theorem scanGroups_followed_iff :
    (∀ group, ScanGroup d group → ∀ entry ∈ mainEntry group,
      ∀ cluster ∈ followedCluster d entry, 2 ≤ cluster ∧ cluster ≤ totalClusterCount d + 1) ↔
      NoStray d := by
  constructor
  · intro h
    constructor
    case run =>
      intro cluster hcluster hdir i hi hshort
      have hgroup := h _ (.inCluster hcluster hdir hi hshort) _ (mainEntry_groupAt d _ _)
      exact (followed_iff hcluster _).mp hgroup
    case piece =>
      intro cluster hcluster hbegins hused
      obtain ⟨group, hgroup, hmain⟩ := exists_scanGroup hcluster hbegins hused
      exact (followed_iff hcluster _).mp (h group hgroup _ hmain)
  · intro h group hgroup entry hentry
    cases hgroup with
    | @inCluster cluster i hcluster hdir hi hshort =>
        obtain rfl := Option.some.inj ((mainEntry_groupAt d _ _).symm.trans hentry)
        exact (followed_iff hcluster _).mpr (h.run cluster hcluster hdir i hi hshort)
    | @merged first suffix hsuffix hfirst =>
        obtain ⟨cluster, hcluster, hbegins, rfl⟩ := mem_storedSuffixes.mp hsuffix
        obtain rfl := Option.some.inj ((mainEntry_piece [first] hbegins).symm.trans hentry)
        exact (followed_iff hcluster _).mpr
          (h.piece cluster hcluster hbegins (.inr ⟨first, mem_of_firstMatch hfirst⟩))
    | alone hsuffix hcount hnone =>
        obtain ⟨cluster, hcluster, hbegins, rfl⟩ := mem_storedSuffixes.mp hsuffix
        obtain rfl := Option.some.inj ((mainEntry_piece [] hbegins).symm.trans hentry)
        exact (followed_iff hcluster _).mpr (h.piece cluster hcluster hbegins (.inl hcount))

/-- **Only data clusters are followed** exactly when there is room for the pieces and no group ends
with a stray entry. -/
theorem follows_data_clusters_iff (d : Disk) :
    FollowsDataClusters d ↔ FewPieces d ∧ NoStray d := by
  rw [← storesInside_iff, ← scanGroups_followed_iff]
  constructor
  · rintro ⟨hstored, hfollowed⟩
    exact ⟨hstored, fun group hgroup => hfollowed group (analyze_mem_iff.mpr hgroup)⟩
  · rintro ⟨hstored, hgroups⟩
    exact ⟨hstored, fun group hgroup => hgroups group (analyze_mem_iff.mp hgroup)⟩

end Image

/-- A directory whose one entry is a file with a name that begins with a dot, and with
cluster number 1. -/
def dotDisk : Disk :=
  smallDisk 4 fun p =>
    if p = 0 then 0x2E else if p = 1 then 65 else if p = 11 then 0x20 else if p = 26 then 1 else 0

theorem cluster_one_followed :
    LoadDiskImage dotDisk ∧ .analyze [⟨some 1536, 1⟩] ∈ performFullScan dotDisk ∧
      mainEntry [⟨some 1536, 1⟩] = some 1536 ∧ followedCluster dotDisk 1536 = some 1 ∧
        ¬ FollowsDataClusters dotDisk := by
  have hscan : .analyze [⟨some 1536, 1⟩] ∈ performFullScan dotDisk := by decide +kernel
  have hfollowed : followedCluster dotDisk 1536 = some 1 := by decide
  refine ⟨⟨by decide, by decide, by decide⟩, hscan, rfl, hfollowed, fun h => ?_⟩
  exact absurd (h.followed _ hscan 1536 rfl 1 hfollowed).1 (by decide)

end NjuOs.Fsrecov
