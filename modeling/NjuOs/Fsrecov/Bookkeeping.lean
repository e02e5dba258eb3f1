import NjuOs.Fsrecov.Segments

/-!
How many segments the scan of a whole image stores.

The arrays of `pending` have ten elements, and nothing compares the counters
with that. A cluster adds one suffix when it begins inside an entry group and
one prefix when it ends inside one; nothing is ever removed. So the counters
stay in bounds for exactly the images with at most ten clusters of either kind
(`pending_bounded_iff`).
-/

namespace NjuOs.Fsrecov

/-- The length of the arrays `prefixes` and `suffixes`. -/
def pendingSlots : Nat := 10

/-- The arrays have room for what is pending. -/
def Pending.Fits (pending : Pending) : Prop :=
  pending.suffixes.length ≤ pendingSlots ∧ pending.prefixes.length ≤ pendingSlots

instance (pending : Pending) : Decidable pending.Fits :=
  inferInstanceAs (Decidable (_ ∧ _))

/-- Every segment is stored inside its array. An eleventh one would be written over the other array
or over the counters, which `Pending` does not show. -/
def StoresInside (d : Disk) : Prop :=
  ∀ events, events <+: performFullScan d → (pendingAfter events).Fits

/-! ### Counters -/

section Counters

def Event.isSuffix : Event → Bool
  | .storeSuffix _ => true
  | _ => false

def Event.isPrefix : Event → Bool
  | .storePrefix _ => true
  | _ => false

theorem Pending.suffixes_apply (pending : Pending) (event : Event) :
    (pending.apply event).suffixes.length =
      pending.suffixes.length + if event.isSuffix then 1 else 0 := by
  cases event <;> simp [Pending.apply, Event.isSuffix]

theorem Pending.prefixes_apply (pending : Pending) (event : Event) :
    (pending.apply event).prefixes.length =
      pending.prefixes.length + if event.isPrefix then 1 else 0 := by
  cases event <;> simp [Pending.apply, Event.isPrefix]

/-- A length that some events each make one longer. -/
theorem length_foldl (size : Pending → Nat) {p : Event → Bool}
    (h : ∀ pending event, size (Pending.apply pending event) =
      size pending + if p event then 1 else 0) (events : List Event) (pending : Pending) :
    size (events.foldl Pending.apply pending) = size pending + events.countP p := by
  induction events generalizing pending with
  | nil => rfl
  | cons event events ih =>
      rw [List.foldl_cons, ih, h, List.countP_cons]
      omega

theorem suffixes_pendingAfter (events : List Event) :
    (pendingAfter events).suffixes.length = events.countP Event.isSuffix :=
  (length_foldl (fun pending => pending.suffixes.length) Pending.suffixes_apply events _).trans
    (Nat.zero_add _)

theorem prefixes_pendingAfter (events : List Event) :
    (pendingAfter events).prefixes.length = events.countP Event.isPrefix :=
  (length_foldl (fun pending => pending.prefixes.length) Pending.prefixes_apply events _).trans
    (Nat.zero_add _)

/-- Lists of events that each hold one or none. -/
theorem countP_flatMap_ite {α : Type} {f : α → List Event} {p : Event → Bool} {q : α → Bool}
    (h : ∀ a, (f a).countP p = if q a then 1 else 0) (as : List α) :
    (as.flatMap f).countP p = as.countP q := by
  induction as with
  | nil => rfl
  | cons a as ih =>
      rw [List.flatMap_cons, List.countP_append, ih, h, List.countP_cons]
      omega

end Counters

/-! ### The pending pieces -/

section Resolve

variable (d : Disk)

/-- The event stores nothing. -/
def Event.storesNothing (event : Event) : Prop :=
  event.isSuffix = false ∧ event.isPrefix = false

theorem resolvePair_stores (pending : Pending) (i j : Nat) :
    ∀ event ∈ resolvePair d pending i j, event.storesNothing := by
  intro event hevent
  rw [resolvePair] at hevent
  split at hevent
  case h_1 =>
    split at hevent
    case isTrue =>
      rcases List.mem_cons.mp hevent with rfl | hevent
      · exact ⟨rfl, rfl⟩
      · obtain rfl := List.mem_singleton.mp hevent
        exact ⟨rfl, rfl⟩
    case isFalse => cases hevent
  case h_2 => cases hevent

theorem resolvePairs_stores (pairs : List (Nat × Nat)) (pending : Pending) :
    ∀ event ∈ resolvePairs d pending pairs, event.storesNothing := by
  induction pairs generalizing pending with
  | nil => nofun
  | cons pair pairs ih =>
      intro event hevent
      rcases List.mem_append.mp hevent with hevent | hevent
      · exact resolvePair_stores d pending pair.1 pair.2 event hevent
      · exact ih _ event hevent

theorem resolveUnmatched_stores (pending : Pending) :
    ∀ event ∈ resolveUnmatched pending, event.storesNothing := by
  intro event hevent
  obtain ⟨suffix, -, hevent⟩ := List.mem_flatMap.mp hevent
  split at hevent
  case isTrue =>
    obtain rfl := List.mem_singleton.mp hevent
    exact ⟨rfl, rfl⟩
  case isFalse => cases hevent

theorem resolvePendingEntries_stores (pending : Pending) :
    ∀ event ∈ resolvePendingEntries d pending, event.storesNothing := by
  intro event hevent
  rcases List.mem_append.mp hevent with hevent | hevent
  · exact resolvePairs_stores d _ pending event hevent
  · exact resolveUnmatched_stores _ event hevent

theorem countP_performFullScan {p : Event → Bool}
    (hp : ∀ event : Event, event.storesNothing → p event = false) :
    (performFullScan d).countP p = (scanClusters d).countP p := by
  rw [performFullScan, List.countP_append, Nat.add_eq_left, List.countP_eq_zero]
  intro event hevent
  simp [hp event (resolvePendingEntries_stores d _ event hevent)]

end Resolve

/-! ### Clusters -/

section Cluster

variable (d : Disk)

/-- The cluster begins inside an entry group: with a long entry that is not the
last one of its name, or with a short entry. -/
def beginsInside (clusterBase : Int) : Bool :=
  if validateLongEntry d clusterBase then d.byte clusterBase &&& finalLongEntry = 0
  else validateShortEntry d clusterBase

/-- The run at `entry`, where `n` entries are left, ends with a long entry. -/
def endsOpen (n : Nat) (entry : Int) : Bool :=
  0 < runLength d n entry &&
    !validateShortEntry d (entry + dirEntrySize * (runLength d n entry - 1 : Nat))

/-- The cluster ends inside an entry group, behind the piece at its start. -/
def endsInside (clusterBase : Int) : Bool :=
  isDirectoryCluster d clusterBase &&
    endsOpen d ((clusterSize d + (dirEntrySize - 1)) / dirEntrySize - firstPiece d clusterBase)
      (clusterBase + dirEntrySize * firstPiece d clusterBase)

theorem firstPiece_pos_iff (clusterBase : Int) :
    firstPiece d clusterBase > 0 ↔ beginsInside d clusterBase = true := by
  rw [firstPiece, beginsInside]
  split
  case isTrue => split <;> simp_all
  case isFalse => split <;> simp_all

/-- One entry of a run: what is behind it decides, unless it is the last. -/
theorem endsOpen_succ {n : Nat} {entry : Int} (h : isDirectoryCluster d entry = true) :
    endsOpen d (n + 1) entry =
      if runLength d n (entry + dirEntrySize) = 0 then !validateShortEntry d entry
      else endsOpen d n (entry + dirEntrySize) := by
  rw [endsOpen, runLength, if_pos h, endsOpen]
  split
  case isTrue hzero => simp [hzero]
  case isFalse hpos =>
    obtain ⟨r, hr⟩ := Nat.exists_eq_succ_of_ne_zero hpos
    simp only [hr, Nat.succ_eq_add_one, Nat.add_sub_cancel, entry_succ]
    simp

theorem storeOpenGroup_prefixes (groupStart : Int) (groupCount : Nat) :
    (storeOpenGroup groupStart groupCount).countP Event.isPrefix =
      if 0 < groupCount then 1 else 0 := by
  rw [storeOpenGroup]
  split <;> rfl

theorem storeOpenGroup_suffixes (groupStart : Int) (groupCount : Nat) :
    (storeOpenGroup groupStart groupCount).countP Event.isSuffix = 0 := by
  rw [storeOpenGroup]
  split <;> rfl

variable {d} in
/-- The loop stores a prefix when the run it sees ends with a long entry, or is
empty with a group open. -/
theorem Scans.countP_prefixes {n : Nat} {current groupStart : Int} {groupCount : Nat}
    {events : List Event} (h : Scans d n current groupStart groupCount events) :
    events.countP Event.isPrefix =
      if endsOpen d n current ∨ runLength d n current = 0 ∧ 0 < groupCount then 1 else 0 := by
  induction h with
  | ends hrun =>
      rw [storeOpenGroup_prefixes]
      simp [endsOpen, hrun]
  | @short n current groupStart groupCount events hshort _ ih =>
      have hentry := isDirectoryCluster_of_short hshort
      rw [List.countP_cons_of_neg (by simp [Event.isPrefix]), ih, endsOpen_succ d hentry, runLength,
        if_pos hentry]
      by_cases hzero : runLength d n (current + dirEntrySize) = 0
      · simp [hzero, hshort, endsOpen]
      · simp [hzero]
  | @long n current groupStart groupCount events hshort hlong _ ih =>
      have hentry : isDirectoryCluster d current = true := by
        rw [isDirectoryCluster, hlong, Bool.or_true]
      rw [ih, endsOpen_succ d hentry, runLength, if_pos hentry]
      by_cases hzero : runLength d n (current + dirEntrySize) = 0
      · simp [hzero, hshort]
      · simp [hzero]

variable {d} in
/-- The loop stores no suffix. -/
theorem Scans.countP_suffixes {n : Nat} {current groupStart : Int} {groupCount : Nat}
    {events : List Event} (h : Scans d n current groupStart groupCount events) :
    events.countP Event.isSuffix = 0 := by
  induction h with
  | ends => exact storeOpenGroup_suffixes _ _
  | short _ _ ih => rw [List.countP_cons_of_neg (by simp [Event.isSuffix]), ih]
  | long _ _ _ ih => exact ih

theorem countP_scanDirectoryCluster_suffix (clusterBase : Int) :
    (scanDirectoryCluster d clusterBase).countP Event.isSuffix =
      if beginsInside d clusterBase then 1 else 0 := by
  obtain ⟨events, heq, hscans⟩ := @scanDirectoryCluster_eq d clusterBase _ rfl
  rw [heq, List.countP_append, hscans.countP_suffixes, Nat.add_zero]
  simp only [firstPiece_pos_iff]
  split <;> rfl

theorem countP_scanDirectoryCluster_prefix {clusterBase : Int}
    (hdir : isDirectoryCluster d clusterBase = true) :
    (scanDirectoryCluster d clusterBase).countP Event.isPrefix =
      if endsInside d clusterBase then 1 else 0 := by
  obtain ⟨events, heq, hscans⟩ := @scanDirectoryCluster_eq d clusterBase _ rfl
  have hsuffix : (if firstPiece d clusterBase > 0 then
      [Event.storeSuffix ⟨some clusterBase, firstPiece d clusterBase⟩] else []).countP
        Event.isPrefix = 0 := by
    split <;> rfl
  rw [heq, List.countP_append, hsuffix, Nat.zero_add, hscans.countP_prefixes, endsInside, hdir,
    Bool.true_and]
  simp

/-- A cluster that begins inside a group is taken for a directory. -/
theorem isDirectoryCluster_of_beginsInside {clusterBase : Int}
    (h : beginsInside d clusterBase = true) : isDirectoryCluster d clusterBase = true := by
  rw [beginsInside] at h
  rw [isDirectoryCluster]
  split at h
  case isTrue hlong => rw [hlong, Bool.or_true]
  case isFalse => rw [h, Bool.true_or]

end Cluster

/-! ### The image -/

section Image

variable (d : Disk)

theorem countP_scanClusters_suffix :
    (scanClusters d).countP Event.isSuffix =
      (clusters d).countP fun cluster => beginsInside d (getClusterBase d cluster) := by
  refine countP_flatMap_ite (fun cluster => ?_) _
  by_cases hdir : isDirectoryCluster d (getClusterBase d cluster) = true
  · simp only [hdir, if_true]
    exact countP_scanDirectoryCluster_suffix d _
  · have hbegins : ¬ beginsInside d (getClusterBase d cluster) = true :=
      fun h => hdir (isDirectoryCluster_of_beginsInside d h)
    simp [hdir, hbegins]

theorem countP_scanClusters_prefix :
    (scanClusters d).countP Event.isPrefix =
      (clusters d).countP fun cluster => endsInside d (getClusterBase d cluster) := by
  refine countP_flatMap_ite (fun cluster => ?_) _
  by_cases hdir : isDirectoryCluster d (getClusterBase d cluster) = true
  · simp only [hdir, if_true]
    exact countP_scanDirectoryCluster_prefix d hdir
  · simp [endsInside, hdir]

/-- The segments stored by a full scan. -/
theorem suffixes_performFullScan :
    (pendingAfter (performFullScan d)).suffixes.length =
      (clusters d).countP fun cluster => beginsInside d (getClusterBase d cluster) := by
  rw [suffixes_pendingAfter, countP_performFullScan d fun _ h => h.1, countP_scanClusters_suffix]

theorem prefixes_performFullScan :
    (pendingAfter (performFullScan d)).prefixes.length =
      (clusters d).countP fun cluster => endsInside d (getClusterBase d cluster) := by
  rw [prefixes_pendingAfter, countP_performFullScan d fun _ h => h.2, countP_scanClusters_prefix]

/-- At most ten clusters begin inside an entry group, and at most ten end inside one. -/
def FewPieces : Prop :=
  ((clusters d).countP fun cluster => beginsInside d (getClusterBase d cluster)) ≤ pendingSlots ∧
    ((clusters d).countP fun cluster => endsInside d (getClusterBase d cluster)) ≤ pendingSlots

variable {d} in
/-- Nothing is ever removed, so the counters are largest at the end. -/
theorem storesInside_iff_fits : StoresInside d ↔ (pendingAfter (performFullScan d)).Fits := by
  constructor
  · exact fun h => h _ List.prefix_rfl
  · rintro ⟨hsuffixes, hprefixes⟩ events hevents
    rw [suffixes_pendingAfter] at hsuffixes
    rw [prefixes_pendingAfter] at hprefixes
    rw [Pending.Fits, suffixes_pendingAfter, prefixes_pendingAfter]
    exact ⟨(hevents.sublist.countP_le).trans hsuffixes,
      (hevents.sublist.countP_le).trans hprefixes⟩

theorem storesInside_iff : StoresInside d ↔ FewPieces d := by
  rw [storesInside_iff_fits, Pending.Fits, suffixes_performFullScan, prefixes_performFullScan]
  rfl

/-- **The counters of `pending` stay in bounds** exactly when at most ten clusters
begin inside an entry group and at most ten end inside one. -/
theorem pending_bounded_iff :
    (∀ events, events <+: performFullScan d →
      (pendingAfter events).suffixes.length ≤ pendingSlots ∧
        (pendingAfter events).prefixes.length ≤ pendingSlots) ↔
      ((clusters d).countP fun cluster => beginsInside d (getClusterBase d cluster)) ≤
          pendingSlots ∧
        ((clusters d).countP fun cluster => endsInside d (getClusterBase d cluster)) ≤
          pendingSlots :=
  storesInside_iff d

end Image

/-- Eleven clusters that each begin with a short entry. -/
def manyDisk : Disk :=
  smallDisk 14 fun p => if p % 512 = 0 then 65 else if p % 512 = 26 then 2 else 0

theorem pending_overflows :
    LoadDiskImage manyDisk ∧ ¬ ∀ events, events <+: performFullScan manyDisk →
      (pendingAfter events).suffixes.length ≤ pendingSlots ∧
        (pendingAfter events).prefixes.length ≤ pendingSlots := by
  refine ⟨⟨by decide, by decide, by decide⟩, fun h => ?_⟩
  have hlen := (h _ List.prefix_rfl).1
  rw [suffixes_performFullScan] at hlen
  revert hlen
  decide

end NjuOs.Fsrecov
