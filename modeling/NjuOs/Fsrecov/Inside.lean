import NjuOs.Fsrecov.Addresses
import NjuOs.Fsrecov.Bookkeeping

/-!
Where the segments lie that the scan stores.

The length of a suffix is a sequence number on the disk plus one, up to 21
entries, and no test compares it with the cluster. A cluster of 672 bytes or
more has room for any suffix; in a smaller one the segments stay inside exactly
when the numbers on the disk are small enough (`stays_inside_iff`). What
`resolve_pending_entries` copies are these segments and no others
(`taken_resolvePendingEntries`).
-/

namespace NjuOs.Fsrecov

open NjuOs.Lib

/-- The segments that are stored in `pending`. -/
def Event.stored : Event → List Segment
  | .storeSuffix segment | .storePrefix segment => [segment]
  | .analyze _ | .clearSuffix _ => []

/-- The bytes of the segment are from `lo` on and before `hi`. A cleared segment
has none. -/
def Segment.Within (s : Segment) (lo hi : Int) : Prop :=
  ∀ p ∈ s.entryPtr, lo ≤ p ∧ p + dirEntrySize * s.entryCount ≤ hi

theorem Segment.within_some {p lo hi : Int} {n : Nat} :
    Segment.Within ⟨some p, n⟩ lo hi ↔ lo ≤ p ∧ p + dirEntrySize * n ≤ hi := by
  simp [Segment.Within]

theorem Segment.Within.mono {s : Segment} {lo hi lo' hi' : Int} (h : s.Within lo hi)
    (hlo : lo' ≤ lo) (hhi : hi ≤ hi') : s.Within lo' hi' := by
  intro p hp
  obtain ⟨hfrom, hto⟩ := h p hp
  exact ⟨hlo.trans hfrom, hto.trans hhi⟩

/-! ### The segments of a cluster -/

section Cluster

variable (d : Disk)

/-- The number of entries that begin in a cluster; the last one can be cut off. -/
def entrySlots : Nat := (clusterSize d + (dirEntrySize - 1)) / dirEntrySize

/-- The end of the entries that the scan of a cluster accepts, behind its start. -/
def scannedEntries (clusterBase : Int) : Nat :=
  firstPiece d clusterBase +
    runLength d (entrySlots d - firstPiece d clusterBase)
      (clusterBase + dirEntrySize * firstPiece d clusterBase)

variable {d}

/-- A prefix that the loop stores begins with its group or later and ends with
the run. -/
theorem Scans.prefix_ends {n : Nat} {current groupStart : Int} {groupCount : Nat}
    {events : List Event} {s : Segment} (h : Scans d n current groupStart groupCount events)
    (hgroup : groupStart + dirEntrySize * groupCount = current) (hs : .storePrefix s ∈ events) :
    ∃ p, s.entryPtr = some p ∧ groupStart ≤ p ∧
      p + dirEntrySize * s.entryCount = current + dirEntrySize * runLength d n current := by
  induction h with
  | @ends _ _ groupStart _ hrun =>
      rw [storeOpenGroup] at hs
      split at hs
      case isTrue =>
        cases List.mem_singleton.mp hs
        exact ⟨groupStart, rfl, Int.le_refl _, by simpa [hrun] using hgroup⟩
      case isFalse => cases hs
  | short hshort _ ih =>
      rw [runLength_succ, if_pos (.inl hshort), entry_succ]
      have hs := List.mem_of_ne_of_mem Event.noConfusion hs
      obtain ⟨p, hp, hle, hend⟩ := ih (by simp) hs
      refine ⟨p, hp, ?_, hend⟩
      have hafter := group_succ hgroup
      rw [dirEntrySize] at *
      omega
  | long _ hlong _ ih =>
      rw [runLength_succ, if_pos (.inr hlong), entry_succ]
      exact ih (group_succ hgroup) hs

/-- The stored segments are the suffixes and the prefixes. -/
theorem mem_stored {events : List Event} {s : Segment} :
    s ∈ events.flatMap Event.stored ↔ .storeSuffix s ∈ events ∨ .storePrefix s ∈ events := by
  rw [List.mem_flatMap]
  constructor
  · rintro ⟨event, hevent, hs⟩
    cases event with
    | storeSuffix segment => exact .inl (List.mem_singleton.mp hs ▸ hevent)
    | storePrefix segment => exact .inr (List.mem_singleton.mp hs ▸ hevent)
    | analyze group => cases hs
    | clearSuffix j => cases hs
  · rintro (h | h)
    · exact ⟨_, h, List.mem_singleton_self s⟩
    · exact ⟨_, h, List.mem_singleton_self s⟩

/-- The scan of a cluster stores one suffix or none, the piece at its start. -/
theorem storeSuffix_mem_iff {clusterBase : Int} {s : Segment} :
    .storeSuffix s ∈ scanDirectoryCluster d clusterBase ↔
      0 < firstPiece d clusterBase ∧ s = ⟨some clusterBase, firstPiece d clusterBase⟩ := by
  obtain ⟨events, heq, hscans⟩ := @scanDirectoryCluster_eq d clusterBase _ rfl
  have hloop : .storeSuffix s ∉ events := fun h =>
    absurd rfl (List.countP_eq_zero.mp hscans.countP_suffixes _ h)
  rw [heq, List.mem_append, or_iff_left hloop]
  split
  case isTrue hpos => simp [hpos]
  case isFalse hzero => simp [hzero]

/-- A prefix that the scan of a cluster stores begins behind that piece and ends
where the accepted entries end. -/
theorem storePrefix_mem {clusterBase : Int} {s : Segment}
    (h : .storePrefix s ∈ scanDirectoryCluster d clusterBase) :
    ∃ p, s.entryPtr = some p ∧ clusterBase ≤ p ∧
      p + dirEntrySize * s.entryCount =
        clusterBase + dirEntrySize * scannedEntries d clusterBase := by
  obtain ⟨events, heq, hscans⟩ := @scanDirectoryCluster_eq d clusterBase (entrySlots d) rfl
  rw [heq, List.mem_append] at h
  have hloop := h.resolve_left (by split <;> simp)
  obtain ⟨p, hp, hle, hend⟩ := hscans.prefix_ends (by simp) hloop
  refine ⟨p, hp, ?_, ?_⟩
  · rw [dirEntrySize] at hle
    omega
  · rw [hend, scannedEntries]
    push_cast
    ring

theorem exists_storePrefix {clusterBase : Int} (h : endsInside d clusterBase = true) :
    ∃ s, .storePrefix s ∈ scanDirectoryCluster d clusterBase := by
  have hdir : isDirectoryCluster d clusterBase = true := (Bool.and_eq_true_iff.mp h).1
  have hone := countP_scanDirectoryCluster_prefix d hdir
  rw [if_pos h] at hone
  obtain ⟨event, hevent, hpre⟩ := List.countP_pos_iff.mp (hone ▸ Nat.zero_lt_one)
  cases event with
  | storePrefix s => exact ⟨s, hevent⟩
  | storeSuffix s => cases hpre
  | analyze group => cases hpre
  | clearSuffix j => cases hpre

theorem endsInside_of_storePrefix {clusterBase : Int} {s : Segment}
    (hdir : isDirectoryCluster d clusterBase = true)
    (h : .storePrefix s ∈ scanDirectoryCluster d clusterBase) :
    endsInside d clusterBase = true := by
  by_contra hends
  have hnone := countP_scanDirectoryCluster_prefix d hdir
  rw [if_neg hends] at hnone
  exact absurd rfl (List.countP_eq_zero.mp hnone _ h)

end Cluster

/-! ### What fits -/

/-- A sector has 512 bytes or more, and a cluster 1, 2, 4, .. or 128 sectors. -/
structure Geometry (d : Disk) : Prop where
  sector : 512 ≤ bytsPerSec d
  cluster : ∃ k ≤ 7, secPerClus d = 2 ^ k

/-- What is stored of a cluster fits into it: the entries that a long entry at its
start announces, and the last entry where the accepted ones end with a long one. -/
structure Fits (d : Disk) (clusterBase : Int) : Prop where
  announced : validateLongEntry d clusterBase = true →
    d.byte clusterBase &&& finalLongEntry = 0 →
      dirEntrySize * (sequenceLow d clusterBase + 1) ≤ clusterSize d
  last : endsInside d clusterBase = true →
    dirEntrySize * scannedEntries d clusterBase ≤ clusterSize d

section Fit

variable {d : Disk} {clusterBase : Int}

theorem Geometry.le_clusterSize (h : Geometry d) : 512 ≤ clusterSize d := by
  obtain ⟨k, -, hk⟩ := h.cluster
  have hpos : 1 ≤ secPerClus d := hk ▸ Nat.one_le_two_pow
  exact Nat.mul_le_mul h.sector hpos

/-- The piece at the start fits when the number there does: a short entry fits
into any cluster. -/
theorem piece_fits_iff (h : Geometry d) :
    dirEntrySize * firstPiece d clusterBase ≤ clusterSize d ↔
      (validateLongEntry d clusterBase = true → d.byte clusterBase &&& finalLongEntry = 0 →
        dirEntrySize * (sequenceLow d clusterBase + 1) ≤ clusterSize d) := by
  have hsize := h.le_clusterSize
  rw [firstPiece]
  by_cases hlong : validateLongEntry d clusterBase = true
  · by_cases hfinal : d.byte clusterBase &&& finalLongEntry = 0
    · simp [hlong, hfinal]
    · simp [hlong, hfinal]
  · rw [if_neg hlong]
    refine iff_of_true ?_ fun h => absurd h hlong
    split
    case isTrue => exact Nat.le_trans (by decide) hsize
    case isFalse => exact Nat.zero_le _

/-- **The scan of a cluster stores no byte behind it** exactly when what it stores
fits. -/
theorem stored_within_iff (h : Geometry d) (hdir : isDirectoryCluster d clusterBase = true) :
    (∀ s ∈ (scanDirectoryCluster d clusterBase).flatMap Event.stored,
      s.Within clusterBase (clusterBase + clusterSize d)) ↔ Fits d clusterBase := by
  constructor
  · intro hstored
    constructor
    · apply (piece_fits_iff h).mp
      by_cases hpos : 0 < firstPiece d clusterBase
      · have hsuffix := hstored _ (mem_stored.mpr (.inl (storeSuffix_mem_iff.mpr ⟨hpos, rfl⟩)))
        have hend := (Segment.within_some.mp hsuffix).2
        omega
      · simp [Nat.eq_zero_of_not_pos hpos]
    · intro hends
      obtain ⟨s, hs⟩ := exists_storePrefix hends
      obtain ⟨p, hp, -, hend⟩ := storePrefix_mem hs
      have hto := (hstored s (mem_stored.mpr (.inr hs)) p hp).2
      omega
  · intro hfits s hs
    rcases mem_stored.mp hs with hs | hs
    · obtain ⟨-, rfl⟩ := storeSuffix_mem_iff.mp hs
      have hpiece := (piece_fits_iff h).mpr hfits.announced
      apply Segment.within_some.mpr
      constructor
      · exact Int.le_refl _
      · omega
    · obtain ⟨p, hp, hle, hend⟩ := storePrefix_mem hs
      have hlast := hfits.last (endsInside_of_storePrefix hdir hs)
      intro q hq
      obtain rfl : p = q := Option.some.inj (hp.symm.trans hq)
      constructor
      · exact hle
      · omega

/-- A cluster that is not scanned has nothing to fit. -/
theorem fits_of_not_directory (h : isDirectoryCluster d clusterBase = false) :
    Fits d clusterBase := by
  constructor
  · intro hlong
    rw [isDirectoryCluster, hlong, Bool.or_true] at h
    cases h
  · intro hends
    rw [endsInside, h] at hends
    cases hends

/-- A number that `validate_long_entry` accepts is at most 20. -/
theorem sequenceLow_le (h : validateLongEntry d clusterBase = true) :
    sequenceLow d clusterBase ≤ 20 := by
  have hmask : d.byte clusterBase &&& 0x1F =
      (d.byte clusterBase &&& ~~~finalLongEntry) &&& 0x1F := by
    rw [UInt8.and_assoc]
    rfl
  have hseq : ¬ (d.byte clusterBase &&& ~~~finalLongEntry) > 20 := by
    intro hlarge
    simp [validateLongEntry, hlarge] at h
  have hle : (d.byte clusterBase &&& ~~~finalLongEntry).toNat ≤ 20 :=
    UInt8.le_iff_toNat_le.mp (UInt8.not_lt.mp hseq)
  rw [sequenceLow, hmask, UInt8.toNat_and]
  exact Nat.and_le_left.trans hle

theorem firstPiece_le : firstPiece d clusterBase ≤ 21 := by
  rw [firstPiece]
  split
  case isTrue hlong =>
    split
    case isTrue => exact Nat.succ_le_succ (sequenceLow_le hlong)
    case isFalse => exact Nat.zero_le _
  case isFalse =>
    split
    case isTrue => exact Nat.succ_le_succ (Nat.zero_le _)
    case isFalse => exact Nat.zero_le _

/-- A cluster of whole entries with room for 21 of them has room for all that is
stored of it. -/
theorem fits_of_large (hsize : dirEntrySize * 21 ≤ clusterSize d)
    (hwhole : dirEntrySize ∣ clusterSize d) : Fits d clusterBase := by
  constructor
  · intro hlong _
    apply Nat.le_trans _ hsize
    exact Nat.mul_le_mul_left _ (Nat.succ_le_succ (sequenceLow_le hlong))
  · intro _
    have hpiece := @firstPiece_le d clusterBase
    have hrun := @runLength_le d (entrySlots d - firstPiece d clusterBase)
      (clusterBase + dirEntrySize * firstPiece d clusterBase)
    obtain ⟨n, hn⟩ := hwhole
    have hslots : entrySlots d = n := by
      rw [entrySlots, hn, dirEntrySize]
      omega
    rw [hslots] at hrun
    rw [scannedEntries, hslots, hn]
    rw [hn, dirEntrySize] at hsize
    apply Nat.mul_le_mul_left
    omega

end Fit

/-! ### The pending pieces -/

section Pending

variable {d : Disk}

/-- A property of all the segments in `pending`. -/
def Pending.All (pending : Pending) (P : Segment → Prop) : Prop :=
  ∀ s, s ∈ pending.prefixes ∨ s ∈ pending.suffixes → P s

/-- An event keeps it, if the event stores such segments only and a cleared segment
is one. -/
theorem Pending.All.apply {pending : Pending} {P : Segment → Prop} {event : Event}
    (h : pending.All P) (hstored : ∀ s ∈ event.stored, P s)
    (hclear : ∀ s, P s → P { s with entryPtr := none }) : (pending.apply event).All P := by
  cases event with
  | storeSuffix segment =>
      rintro s (hs | hs)
      · exact h s (.inl hs)
      · rcases List.mem_append.mp hs with hs | hs
        · exact h s (.inr hs)
        · exact hstored s hs
  | storePrefix segment =>
      rintro s (hs | hs)
      · rcases List.mem_append.mp hs with hs | hs
        · exact h s (.inl hs)
        · exact hstored s hs
      · exact h s (.inr hs)
  | analyze group => exact h
  | clearSuffix j =>
      rintro s (hs | hs)
      · exact h s (.inl hs)
      · obtain ⟨i, hi, rfl⟩ := List.mem_iff_getElem.mp hs
        rw [Pending.apply] at hi
        simp only [List.length_modify] at hi
        have hold := h _ (.inr (List.getElem_mem hi))
        simp only [Pending.apply, List.getElem_modify]
        split
        case isTrue => exact hclear _ hold
        case isFalse => exact hold

theorem Pending.All.foldl {P : Segment → Prop} (hclear : ∀ s, P s → P { s with entryPtr := none })
    {events : List Event} {pending : Pending} (h : pending.All P)
    (hstored : ∀ s ∈ events.flatMap Event.stored, P s) :
    (events.foldl Pending.apply pending).All P := by
  induction events generalizing pending with
  | nil => exact h
  | cons event events ih =>
      rw [List.flatMap_cons] at hstored
      apply ih
      · exact h.apply (fun s hs => hstored s (List.mem_append_left _ hs)) hclear
      · exact fun s hs => hstored s (List.mem_append_right _ hs)

theorem stored_of_storesNothing {event : Event} (h : event.storesNothing) : event.stored = [] := by
  cases event with
  | storeSuffix segment => cases h.1
  | storePrefix segment => cases h.2
  | analyze group => rfl
  | clearSuffix j => rfl

theorem stored_resolvePair (pending : Pending) (i j : Nat) :
    (resolvePair d pending i j).flatMap Event.stored = [] := by
  apply List.flatMap_eq_nil_iff.mpr
  intro event hevent
  exact stored_of_storesNothing (resolvePair_stores d pending i j event hevent)

/-- What one pass of the inner loop takes is in `pending`. -/
theorem taken_resolvePair {pending : Pending} {P : Segment → Prop} (h : pending.All P)
    (i j : Nat) : ∀ s ∈ (resolvePair d pending i j).flatMap Event.taken, P s := by
  intro s hs
  rw [resolvePair] at hs
  split at hs
  case h_1 first prefixLen second suffixLen hpre hsuffix =>
    split at hs
    case isTrue =>
      have hs : s = ⟨some first, prefixLen⟩ ∨ s = ⟨some second, suffixLen⟩ := by
        simpa [Event.taken] using hs
      rcases hs with rfl | rfl
      · exact h _ (.inl (List.mem_of_getElem? hpre))
      · exact h _ (.inr (List.mem_of_getElem? hsuffix))
    case isFalse => cases hs
  case h_2 => cases hs

theorem taken_resolvePairs {P : Segment → Prop} (hclear : ∀ s, P s → P { s with entryPtr := none })
    (pairs : List (Nat × Nat)) {pending : Pending} (h : pending.All P) :
    (∀ s ∈ (resolvePairs d pending pairs).flatMap Event.taken, P s) ∧
      ((resolvePairs d pending pairs).foldl Pending.apply pending).All P := by
  induction pairs generalizing pending with
  | nil => exact ⟨nofun, h⟩
  | cons pair pairs ih =>
      have hnext : ((resolvePair d pending pair.1 pair.2).foldl Pending.apply pending).All P := by
        apply h.foldl hclear
        rw [stored_resolvePair]
        nofun
      obtain ⟨hrest, hafter⟩ := ih hnext
      rw [resolvePairs, List.flatMap_append, List.foldl_append]
      refine ⟨fun s hs => ?_, hafter⟩
      rcases List.mem_append.mp hs with hs | hs
      · exact taken_resolvePair h pair.1 pair.2 s hs
      · exact hrest s hs

/-- **What is done with the pending pieces takes no other bytes** than theirs. -/
theorem taken_resolvePendingEntries {P : Segment → Prop}
    (hclear : ∀ s, P s → P { s with entryPtr := none }) {pending : Pending} (h : pending.All P) :
    ∀ s ∈ (resolvePendingEntries d pending).flatMap Event.taken, P s := by
  obtain ⟨hmerged, hafter⟩ := taken_resolvePairs hclear
    ((List.range pending.prefixes.length).flatMap fun i =>
      (List.range pending.suffixes.length).map fun j => (i, j)) h
  intro s hs
  rw [resolvePendingEntries, List.flatMap_append] at hs
  rcases List.mem_append.mp hs with hs | hs
  · exact hmerged s hs
  · obtain ⟨event, hevent, hs⟩ := List.mem_flatMap.mp hs
    obtain ⟨suffix, hsuffix, hevent⟩ := List.mem_flatMap.mp hevent
    split at hevent
    case isTrue =>
      cases List.mem_singleton.mp hevent
      cases List.mem_singleton.mp hs
      exact hafter _ (.inr hsuffix)
    case isFalse => cases hevent

end Pending

/-! ### The image -/

section Image

variable (d : Disk)

/-- Where a segment can be: in a cluster that is scanned. -/
def InCluster (s : Segment) : Prop :=
  ∃ cluster ∈ clusters d,
    s.Within (getClusterBase d cluster) (getClusterBase d cluster + clusterSize d)

/-- The segments stay in their cluster, and what `resolve_pending_entries` takes
stays in the clusters, and in the image if the clusters are there. -/
structure StaysInside : Prop where
  stored : ∀ cluster ∈ clusters d, isDirectoryCluster d (getClusterBase d cluster) = true →
    ∀ s ∈ (scanDirectoryCluster d (getClusterBase d cluster)).flatMap Event.stored,
      s.Within (getClusterBase d cluster) (getClusterBase d cluster + clusterSize d)
  taken : ∀ s ∈ (resolvePendingEntries d (pendingAfter (scanClusters d))).flatMap Event.taken,
    InCluster d s
  image : (∀ cluster ∈ clusters d, 0 ≤ getClusterBase d cluster ∧
      getClusterBase d cluster + clusterSize d ≤ d.size) →
    ∀ s ∈ (resolvePendingEntries d (pendingAfter (scanClusters d))).flatMap Event.taken,
      s.Within 0 d.size

variable {d}

theorem mem_stored_scanClusters {s : Segment} (h : s ∈ (scanClusters d).flatMap Event.stored) :
    ∃ cluster ∈ clusters d, isDirectoryCluster d (getClusterBase d cluster) = true ∧
      s ∈ (scanDirectoryCluster d (getClusterBase d cluster)).flatMap Event.stored := by
  obtain ⟨event, hevent, hs⟩ := List.mem_flatMap.mp h
  obtain ⟨cluster, hcluster, hevent⟩ := List.mem_flatMap.mp hevent
  dsimp only at hevent
  split at hevent
  case isTrue hdir => exact ⟨cluster, hcluster, hdir, List.mem_flatMap.mpr ⟨event, hevent, hs⟩⟩
  case isFalse => cases hevent

theorem StaysInside.fits (h : StaysInside d) (hgeometry : Geometry d) {cluster : Int}
    (hcluster : cluster ∈ clusters d) : Fits d (getClusterBase d cluster) := by
  by_cases hdir : isDirectoryCluster d (getClusterBase d cluster) = true
  · exact (stored_within_iff hgeometry hdir).mp (h.stored cluster hcluster hdir)
  · exact fits_of_not_directory (Bool.not_eq_true _ ▸ hdir)

theorem stays_inside_of_fits (h : Geometry d)
    (hfits : ∀ cluster ∈ clusters d, Fits d (getClusterBase d cluster)) : StaysInside d := by
  have hstored : ∀ cluster ∈ clusters d, isDirectoryCluster d (getClusterBase d cluster) = true →
      ∀ s ∈ (scanDirectoryCluster d (getClusterBase d cluster)).flatMap Event.stored,
        s.Within (getClusterBase d cluster) (getClusterBase d cluster + clusterSize d) :=
    fun cluster hcluster hdir => (stored_within_iff h hdir).mpr (hfits cluster hcluster)
  have hclear : ∀ s, InCluster d s → InCluster d { s with entryPtr := none } := by
    rintro s ⟨cluster, hcluster, -⟩
    exact ⟨cluster, hcluster, nofun⟩
  have hpending : (pendingAfter (scanClusters d)).All (InCluster d) := by
    apply Pending.All.foldl hclear
    · rintro s (hs | hs)
      · cases hs
      · cases hs
    · intro s hs
      obtain ⟨cluster, hcluster, hdir, hs⟩ := mem_stored_scanClusters hs
      exact ⟨cluster, hcluster, hstored cluster hcluster hdir s hs⟩
  have htaken := @taken_resolvePendingEntries d _ hclear _ hpending
  refine ⟨hstored, htaken, fun hbounds s hs => ?_⟩
  obtain ⟨cluster, hcluster, hwithin⟩ := htaken s hs
  obtain ⟨hfrom, hto⟩ := hbounds cluster hcluster
  exact hwithin.mono hfrom hto

/-- The clusters are in the image where no `int` on the way to them wraps. -/
theorem clusters_inImage (hload : LoadDiskImage d) (hsize : totSec32 d * bytsPerSec d < 2 ^ 31)
    (hdata : dataStart d ≤ totSec32 d) {cluster : Int} (h : cluster ∈ clusters d) :
    0 ≤ getClusterBase d cluster ∧ getClusterBase d cluster + clusterSize d ≤ d.size := by
  have hbytes : totSec32 d * bytsPerSec d = d.size := by
    rw [← hload.2.2]
    omega
  have hbyts : 0 < bytsPerSec d := by
    apply Nat.pos_of_ne_zero
    intro hzero
    have hpos := hload.1
    rw [← hbytes, hzero] at hpos
    omega
  have hsectors : totSec32 d < 2 ^ 31 := (Nat.le_mul_of_pos_right _ hbyts).trans_lt hsize
  obtain ⟨i, hi, rfl⟩ := List.mem_map.mp h
  rw [List.mem_range, totalClusterCount_eq hsectors hdata, Int.toNat_natCast] at hi
  have hend := clusterStart_add_le hdata hi
  rw [getClusterBase_eq hsectors hdata hi (by omega)]
  constructor
  · exact Int.natCast_nonneg _
  · rw [hbytes] at hend
    exact_mod_cast hend

/-- An image of large clusters of whole entries: everything stays inside. -/
theorem stays_inside_of_large (h : Geometry d) (hsize : dirEntrySize * 21 ≤ clusterSize d)
    (hwhole : dirEntrySize ∣ clusterSize d) : StaysInside d :=
  stays_inside_of_fits h fun _ _ => fits_of_large hsize hwhole

/-- **Segments stay in their cluster** exactly when what every cluster announces,
and the last entry of what it ends with, fits into it. -/
theorem stays_inside_iff (h : Geometry d) :
    StaysInside d ↔ ∀ cluster ∈ clusters d, Fits d (getClusterBase d cluster) :=
  ⟨fun hinside _ hcluster => hinside.fits h hcluster, stays_inside_of_fits h⟩

end Image

/-! ### Small clusters -/

/-- A piece of two entries fits into a cluster of 16. -/
theorem stays_inside_piece : StaysInside (pieceDisk 1) := by
  have hgeometry : Geometry (pieceDisk 1) := ⟨by decide, 0, by decide, by decide⟩
  apply (stays_inside_iff hgeometry).mpr
  have hclusters : clusters (pieceDisk 1) = [2] := by decide
  rw [hclusters]
  intro cluster hcluster
  obtain rfl := List.mem_singleton.mp hcluster
  exact ⟨by decide, by decide⟩

/-- Two clusters of 512 bytes: the first ends with the long entry that it begins
with, the second begins with entry 20 of a long name. -/
def overlongDisk : Disk :=
  smallDisk 5 fun p =>
    if p = 0 then 0x41 else if p = 512 then 20 else if p = 11 ∨ p = 523 then 0x0F else 0

/-- The two pieces match, and 160 bytes of what is copied are behind the image. -/
theorem copies_past_image :
    LoadDiskImage overlongDisk ∧ Geometry overlongDisk ∧
      .analyze [⟨some 1536, 1⟩, ⟨some 2048, 21⟩] ∈
        resolvePendingEntries overlongDisk (pendingAfter (scanClusters overlongDisk)) ∧
      overlongDisk.size = 2560 ∧ ¬ StaysInside overlongDisk := by
  have hgeometry : Geometry overlongDisk := ⟨by decide, 0, by decide, by decide⟩
  have hscan : scanClusters overlongDisk =
      [.storePrefix ⟨some 1536, 1⟩, .storeSuffix ⟨some 2048, 21⟩] := by decide +kernel
  refine ⟨⟨by decide, by decide, by decide⟩, hgeometry, ?_, by decide, ?_⟩
  · rw [hscan]
    decide
  · intro h
    have hfits := h.fits hgeometry (List.mem_cons_of_mem _ (List.mem_singleton_self 3))
    have hannounced := hfits.announced (by decide) (by decide)
    revert hannounced
    decide

end NjuOs.Fsrecov
