import NjuOs.Fsrecov.Basic

/-!
How the scan of a directory cluster cuts it into segments.

The run of a cluster are its entries up to the first one that no validator
accepts. `scan_partitions_iff`: the segments partition the run, and every short
entry ends one of them, exactly when the piece at the start of the cluster is
what the scan takes it for. The length of that piece is read from a sequence
number and never checked (`scan_overlong_piece`); the loop behind it checks
every entry and partitions whatever it is given (`Scans.tiles`, `Scans.shorts`).
-/

namespace NjuOs.Fsrecov

open NjuOs.Lib

/-! ### Partitions -/

/-- The segments of an event. -/
def Event.segments : Event → List Segment
  | .storeSuffix segment | .storePrefix segment => [segment]
  | .analyze group => group
  | .clearSuffix _ => []

/-- The segments that are analysed, or stored as a suffix. -/
def Event.taken : Event → List Segment
  | .storeSuffix segment => [segment]
  | .analyze group => group
  | .storePrefix _ | .clearSuffix _ => []

/-- The last entry of the segment is at `entry`. -/
def Segment.EndsAt (s : Segment) (entry : Int) : Prop :=
  s.entryPtr = some (entry + dirEntrySize - dirEntrySize * s.entryCount)

instance (s : Segment) (entry : Int) : Decidable (s.EndsAt entry) :=
  inferInstanceAs (Decidable (_ = _))

/-- The segments follow one another from `lo` to `hi`. -/
def Tiles : Int → List Segment → Int → Prop
  | lo, [], hi => lo = hi
  | lo, s :: segments, hi =>
      s.entryPtr = some lo ∧ 0 < s.entryCount ∧
        Tiles (lo + dirEntrySize * s.entryCount) segments hi

/-- The length of the run at `entry`, where `n` entries are left in the cluster. -/
def runLength (d : Disk) : Nat → Int → Nat
  | 0, _ => 0
  | n + 1, entry =>
      if isDirectoryCluster d entry then runLength d n (entry + dirEntrySize) + 1 else 0

/-- What the scan of a cluster does partitions the `r` entries of its run. -/
structure Partitions (d : Disk) (clusterBase : Int) (r : Nat) (events : List Event) : Prop where
  cover : Tiles clusterBase (events.flatMap Event.segments) (clusterBase + dirEntrySize * r)
  shorts : ∀ j < r, validateShortEntry d (clusterBase + dirEntrySize * j) = true →
    (events.flatMap Event.taken).countP
      (fun s => s.EndsAt (clusterBase + dirEntrySize * j)) = 1

theorem Segment.EndsAt.unique {s : Segment} {entry entry' : Int} (h : s.EndsAt entry)
    (h' : s.EndsAt entry') : entry = entry' := by
  have := Option.some.inj (h.symm.trans h')
  omega

theorem Tiles.append {lo mid hi : Int} {segments segments' : List Segment}
    (h : Tiles lo segments mid) (h' : Tiles mid segments' hi) :
    Tiles lo (segments ++ segments') hi := by
  induction segments generalizing lo with
  | nil =>
      cases h
      exact h'
  | cons s segments ih => exact ⟨h.1, h.2.1, ih h.2.2⟩

theorem Tiles.le {lo hi : Int} {segments : List Segment} (h : Tiles lo segments hi) : lo ≤ hi := by
  induction segments generalizing lo with
  | nil => exact Int.le_of_eq h
  | cons s segments ih =>
      have hrest := ih h.2.2
      rw [dirEntrySize] at hrest
      omega

/-! ### The loop -/

section Loop

variable {d : Disk}

theorem isDirectoryCluster_of_short {entry : Int} (h : validateShortEntry d entry = true) :
    isDirectoryCluster d entry = true := by
  rw [isDirectoryCluster, h, Bool.true_or]

/-- The entries behind the first one. -/
theorem entry_succ (entry : Int) (j : Nat) :
    entry + dirEntrySize * ((j + 1 : Nat) : Int) = entry + dirEntrySize + dirEntrySize * j := by
  push_cast
  ring

theorem runLength_succ (n : Nat) (entry : Int) :
    runLength d (n + 1) entry =
      if validateShortEntry d entry = true ∨ validateLongEntry d entry = true then
        runLength d n (entry + dirEntrySize) + 1
      else 0 := by
  simp [runLength, isDirectoryCluster]

/-- A group that ends at `current`, which makes one more. -/
theorem group_succ {groupStart current : Int} {groupCount : Nat}
    (h : groupStart + dirEntrySize * groupCount = current) :
    groupStart + dirEntrySize * ((groupCount + 1 : Nat) : Int) = current + dirEntrySize := by
  rw [← h]
  push_cast
  ring

theorem storeOpenGroup_tiles {groupStart current : Int} {groupCount : Nat}
    (h : groupStart + dirEntrySize * groupCount = current) :
    Tiles groupStart ((storeOpenGroup groupStart groupCount).flatMap Event.segments) current := by
  rw [storeOpenGroup]
  split
  case isTrue hpos => exact ⟨rfl, hpos, h⟩
  case isFalse hzero =>
    obtain rfl : groupCount = 0 := by omega
    simpa [Tiles] using h

/-- The loop with `n` entries left, entry by entry, and its events. -/
inductive Scans (d : Disk) : Nat → Int → Int → Nat → List Event → Prop where
  | ends {n : Nat} {current groupStart : Int} {groupCount : Nat}
      (hrun : runLength d n current = 0) :
      Scans d n current groupStart groupCount (storeOpenGroup groupStart groupCount)
  | short {n : Nat} {current groupStart : Int} {groupCount : Nat} {events : List Event}
      (hshort : validateShortEntry d current = true)
      (hrest : Scans d n (current + dirEntrySize) (current + dirEntrySize) 0 events) :
      Scans d (n + 1) current groupStart groupCount
        (.analyze [⟨some groupStart, groupCount + 1⟩] :: events)
  | long {n : Nat} {current groupStart : Int} {groupCount : Nat} {events : List Event}
      (hshort : validateShortEntry d current = false) (hlong : validateLongEntry d current = true)
      (hrest : Scans d n (current + dirEntrySize) groupStart (groupCount + 1) events) :
      Scans d (n + 1) current groupStart groupCount events

/-- The loop sees the entries up to `stop`. -/
theorem scanLoop_scans {stop : Int} (n : Nat) :
    ∀ {fuel : Nat} {current groupStart : Int} {groupCount : Nat}, n < fuel →
      (∀ i : Nat, current + dirEntrySize * i < stop ↔ i < n) →
        Scans d n current groupStart groupCount
          (scanLoop d stop fuel current groupStart groupCount) := by
  induction n with
  | zero =>
      intro fuel current groupStart groupCount hfuel hleft
      obtain ⟨fuel, rfl⟩ := Nat.exists_eq_succ_of_ne_zero (Nat.ne_of_gt hfuel)
      have hstop : ¬ current < stop := by simpa using hleft 0
      rw [scanLoop, if_neg hstop]
      exact .ends rfl
  | succ n ih =>
      intro fuel current groupStart groupCount hfuel hleft
      obtain ⟨fuel, rfl⟩ := Nat.exists_eq_succ_of_ne_zero (Nat.ne_zero_of_lt hfuel)
      have hfuel := Nat.lt_of_succ_lt_succ hfuel
      have hlt : current < stop := by simpa using hleft 0
      have hleft' : ∀ i : Nat, current + dirEntrySize + dirEntrySize * i < stop ↔ i < n := by
        intro i
        rw [← entry_succ, hleft, Nat.add_lt_add_iff_right]
      rw [scanLoop, if_pos hlt]
      by_cases hshort : validateShortEntry d current = true
      · rw [if_pos hshort]
        exact .short hshort (ih hfuel hleft')
      · rw [if_neg hshort]
        by_cases hlong : validateLongEntry d current = true
        · rw [if_pos hlong]
          exact .long (Bool.eq_false_of_not_eq_true hshort) hlong (ih hfuel hleft')
        · rw [if_neg hlong]
          exact .ends (by rw [runLength_succ, if_neg (not_or.mpr ⟨hshort, hlong⟩)])

section Scans

variable {n : Nat} {current groupStart : Int} {groupCount : Nat} {events : List Event}

/-- The loop covers what it was given, up to the end of the run. -/
theorem Scans.tiles (h : Scans d n current groupStart groupCount events)
    (hgroup : groupStart + dirEntrySize * groupCount = current) :
    Tiles groupStart (events.flatMap Event.segments)
      (current + dirEntrySize * runLength d n current) := by
  induction h with
  | ends hrun =>
      rw [hrun]
      simpa using storeOpenGroup_tiles hgroup
  | short hshort _ ih =>
      rw [runLength_succ, if_pos (.inl hshort), entry_succ]
      refine ⟨rfl, Nat.succ_pos _, ?_⟩
      rw [group_succ hgroup]
      exact ih (by simp)
  | long _ hlong _ ih =>
      rw [runLength_succ, if_pos (.inr hlong), entry_succ]
      exact ih (group_succ hgroup)

theorem storeOpenGroup_taken (groupStart : Int) (groupCount : Nat) :
    (storeOpenGroup groupStart groupCount).flatMap Event.taken = [] := by
  rw [storeOpenGroup]
  split <;> rfl

/-- A group that is analysed ends at the entry of the loop. -/
theorem group_endsAt (hgroup : groupStart + dirEntrySize * groupCount = current) :
    Segment.EndsAt ⟨some groupStart, groupCount + 1⟩ current := by
  have hnext := group_succ hgroup
  simp only [Segment.EndsAt, Option.some.injEq]
  omega

/-- What the loop takes ends in the run. -/
theorem Scans.taken_endsAt (h : Scans d n current groupStart groupCount events)
    (hgroup : groupStart + dirEntrySize * groupCount = current) :
    ∀ s ∈ events.flatMap Event.taken,
      ∃ i < runLength d n current, s.EndsAt (current + dirEntrySize * i) := by
  induction h with
  | ends =>
      rw [storeOpenGroup_taken]
      exact fun s hs => absurd hs List.not_mem_nil
  | short hshort _ ih =>
      intro s hs
      rw [runLength_succ, if_pos (.inl hshort)]
      rw [List.flatMap_cons] at hs
      rcases List.mem_append.mp hs with hs | hs
      · obtain rfl := List.mem_singleton.mp hs
        exact ⟨0, Nat.succ_pos _, by simpa using group_endsAt hgroup⟩
      · obtain ⟨i, hi, hend⟩ := ih (by simp) s hs
        exact ⟨i + 1, Nat.succ_lt_succ hi, by rwa [entry_succ]⟩
  | long _ hlong _ ih =>
      intro s hs
      rw [runLength_succ, if_pos (.inr hlong)]
      obtain ⟨i, hi, hend⟩ := ih (group_succ hgroup) s hs
      exact ⟨i + 1, Nat.succ_lt_succ hi, by rwa [entry_succ]⟩

/-- Every short entry of the run ends one segment that the loop takes. -/
theorem Scans.shorts (h : Scans d n current groupStart groupCount events)
    (hgroup : groupStart + dirEntrySize * groupCount = current) :
    ∀ i < runLength d n current, validateShortEntry d (current + dirEntrySize * i) = true →
      (events.flatMap Event.taken).countP
        (fun s => s.EndsAt (current + dirEntrySize * i)) = 1 := by
  induction h with
  | ends hrun =>
      rw [hrun]
      exact fun i hi => absurd hi (Nat.not_lt_zero i)
  | @short n current groupStart groupCount events hshort hrest ih =>
      intro i hi hentry
      rw [runLength_succ, if_pos (.inl hshort)] at hi
      have hhere := group_endsAt hgroup
      rw [List.flatMap_cons, List.countP_append, Event.taken, List.countP_singleton]
      cases i with
      | zero =>
          -- the group ends here, and what the rest takes ends further on
          have hfurther : (events.flatMap Event.taken).countP
              (fun s => s.EndsAt (current + dirEntrySize * (0 : Nat))) = 0 := by
            rw [List.countP_eq_zero]
            intro s hs hend
            obtain ⟨k, -, hk⟩ := hrest.taken_endsAt (by simp) s hs
            have := hk.unique (of_decide_eq_true hend)
            rw [dirEntrySize] at this
            omega
          rw [hfurther, if_pos (by simpa using hhere)]
      | succ i =>
          have hhead : ¬ Segment.EndsAt ⟨some groupStart, groupCount + 1⟩
              (current + dirEntrySize * (i + 1 : Nat)) := by
            intro hend
            have := hhere.unique hend
            rw [dirEntrySize] at this
            omega
          rw [if_neg (by simpa using hhead)]
          rw [entry_succ] at hentry ⊢
          rw [ih (by simp) i (Nat.lt_of_succ_lt_succ hi) hentry]
  | long hshort hlong _ ih =>
      intro i hi hentry
      rw [runLength_succ, if_pos (.inr hlong)] at hi
      cases i with
      | zero =>
          rw [Nat.cast_zero, Int.mul_zero, Int.add_zero, hshort] at hentry
          cases hentry
      | succ i =>
          rw [entry_succ] at hentry ⊢
          exact ih (group_succ hgroup) i (Nat.lt_of_succ_lt_succ hi) hentry

end Scans

end Loop

/-! ### The run -/

section RunLength

variable {d : Disk}

theorem le_runLength_iff {m : Nat} : ∀ {n : Nat} {entry : Int}, m ≤ runLength d n entry ↔
    ∀ j < m, j < n ∧ isDirectoryCluster d (entry + dirEntrySize * j) = true := by
  induction m with
  | zero => simp
  | succ m ih =>
      intro n entry
      cases n with
      | zero =>
          simp only [runLength, Nat.le_zero]
          exact ⟨nofun, fun h => absurd (h 0 (Nat.succ_pos m)).1 (Nat.not_lt_zero 0)⟩
      | succ n =>
          rw [Nat.forall_lt_succ_left]
          simp only [entry_succ, Nat.add_lt_add_iff_right]
          rw [← ih, runLength]
          by_cases hentry : isDirectoryCluster d entry = true
          · simp [hentry]
          · simp [hentry]

theorem runLength_le (n : Nat) (entry : Int) : runLength d n entry ≤ n := by
  by_contra hlt
  exact Nat.lt_irrefl n (le_runLength_iff.mp (Nat.not_le.mp hlt) n (Nat.lt_succ_self n)).1

/-- The run behind its first entries. -/
theorem runLength_add {m : Nat} : ∀ {n : Nat} {entry : Int}, m ≤ runLength d n entry →
    runLength d n entry = m + runLength d (n - m) (entry + dirEntrySize * m) := by
  induction m with
  | zero => simp
  | succ m ih =>
      intro n entry hle
      cases n with
      | zero => exact absurd hle (Nat.not_succ_le_zero m)
      | succ n =>
          rw [runLength] at hle ⊢
          split at hle
          case isFalse => exact absurd hle (Nat.not_succ_le_zero m)
          case isTrue hentry =>
            rw [if_pos hentry, ih (Nat.le_of_succ_le_succ hle), entry_succ, Nat.succ_sub_succ]
            omega

end RunLength

/-! ### The cluster -/

/-- The piece at the start of a cluster of `n` entries is what the scan takes it
for: its entries are there and accepted, and none but the last is a short one. -/
def FirstPieceOk (d : Disk) (clusterBase : Int) (n : Nat) : Prop :=
  ∀ j < firstPiece d clusterBase, j < n ∧
    isDirectoryCluster d (clusterBase + dirEntrySize * j) = true ∧
      (j + 1 < firstPiece d clusterBase →
        validateShortEntry d (clusterBase + dirEntrySize * j) = false)

section Cluster

variable {d : Disk} {clusterBase : Int} {n : Nat}

/-- The scan of a cluster: the first piece, and the loop behind it, which sees an entry
that the end of the cluster cuts off. -/
theorem scanDirectoryCluster_eq
    (hslots : (clusterSize d + (dirEntrySize - 1)) / dirEntrySize = n) :
    ∃ events, scanDirectoryCluster d clusterBase =
        (if firstPiece d clusterBase > 0 then
          [.storeSuffix ⟨some clusterBase, firstPiece d clusterBase⟩] else []) ++ events ∧
      Scans d (n - firstPiece d clusterBase)
        (clusterBase + dirEntrySize * firstPiece d clusterBase)
        (clusterBase + dirEntrySize * firstPiece d clusterBase) 0 events := by
  refine ⟨_, rfl, scanLoop_scans _ ?_ fun i => ?_⟩
  · rw [← hslots, dirEntrySize]
    omega
  · rw [← hslots, dirEntrySize]
    omega

theorem slots_of_size (hsize : clusterSize d = dirEntrySize * n) :
    (clusterSize d + (dirEntrySize - 1)) / dirEntrySize = n := by
  rw [hsize, dirEntrySize]
  omega

theorem firstPiece_le_of_tiles {hi : Int}
    (h : Tiles clusterBase ((scanDirectoryCluster d clusterBase).flatMap Event.segments) hi) :
    clusterBase + dirEntrySize * firstPiece d clusterBase ≤ hi := by
  rw [scanDirectoryCluster, List.flatMap_append] at h
  split at h
  case isTrue => exact h.2.2.le
  case isFalse hzero =>
    obtain hzero : firstPiece d clusterBase = 0 := by omega
    simpa [hzero] using h.le

/-- The segments that end at an entry of the run: the first piece or one of the loop. -/
theorem countP_taken (hsize : clusterSize d = dirEntrySize * n) (j : Nat) :
    ∃ events, Scans d (n - firstPiece d clusterBase)
        (clusterBase + dirEntrySize * firstPiece d clusterBase)
        (clusterBase + dirEntrySize * firstPiece d clusterBase) 0 events ∧
      ((scanDirectoryCluster d clusterBase).flatMap Event.taken).countP
          (fun s => s.EndsAt (clusterBase + dirEntrySize * j)) =
        (if firstPiece d clusterBase = j + 1 then 1 else 0) +
          (events.flatMap Event.taken).countP
            (fun s => s.EndsAt (clusterBase + dirEntrySize * j)) := by
  obtain ⟨events, heq, hscans⟩ := @scanDirectoryCluster_eq d clusterBase n (slots_of_size hsize)
  refine ⟨events, hscans, ?_⟩
  rw [heq, List.flatMap_append, List.countP_append]
  congr 1
  have hends : Segment.EndsAt ⟨some clusterBase, firstPiece d clusterBase⟩
      (clusterBase + dirEntrySize * j) ↔ firstPiece d clusterBase = j + 1 := by
    simp only [Segment.EndsAt, Option.some.injEq, dirEntrySize]
    omega
  by_cases hpos : firstPiece d clusterBase > 0
  · rw [if_pos hpos, List.flatMap_singleton, Event.taken, List.countP_singleton]
    simp only [decide_eq_true_eq, hends]
  · rw [if_neg hpos, if_neg (by omega)]
    rfl

/-- What the loop takes ends behind the first piece. -/
theorem countP_piece (hsize : clusterSize d = dirEntrySize * n) {j : Nat}
    (hj : j < firstPiece d clusterBase) :
    ((scanDirectoryCluster d clusterBase).flatMap Event.taken).countP
        (fun s => s.EndsAt (clusterBase + dirEntrySize * j)) =
      if firstPiece d clusterBase = j + 1 then 1 else 0 := by
  obtain ⟨events, hscans, hcount⟩ := @countP_taken d clusterBase n hsize j
  rw [hcount, Nat.add_eq_left, List.countP_eq_zero]
  intro s hs hend
  obtain ⟨i, -, hi⟩ := hscans.taken_endsAt (by simp) s hs
  have := hi.unique (of_decide_eq_true hend)
  rw [dirEntrySize] at this
  omega

theorem Partitions.firstPieceOk (hsize : clusterSize d = dirEntrySize * n)
    (h : Partitions d clusterBase (runLength d n clusterBase)
      (scanDirectoryCluster d clusterBase)) : FirstPieceOk d clusterBase n := by
  have hle : firstPiece d clusterBase ≤ runLength d n clusterBase := by
    have := firstPiece_le_of_tiles h.cover
    rw [dirEntrySize] at this
    omega
  intro j hj
  obtain ⟨hlt, hentry⟩ := le_runLength_iff.mp hle j hj
  refine ⟨hlt, hentry, fun hinside => ?_⟩
  by_contra hshort
  have hone := h.shorts j (Nat.lt_of_lt_of_le hj hle) (by simpa using hshort)
  rw [countP_piece hsize hj, if_neg (by omega)] at hone
  cases hone

theorem FirstPieceOk.le (h : FirstPieceOk d clusterBase n) :
    firstPiece d clusterBase ≤ runLength d n clusterBase :=
  le_runLength_iff.mpr fun j hj => ⟨(h j hj).1, (h j hj).2.1⟩

theorem FirstPieceOk.cover (hsize : clusterSize d = dirEntrySize * n)
    (h : FirstPieceOk d clusterBase n) :
    Tiles clusterBase ((scanDirectoryCluster d clusterBase).flatMap Event.segments)
      (clusterBase + dirEntrySize * runLength d n clusterBase) := by
  obtain ⟨events, heq, hscans⟩ := @scanDirectoryCluster_eq d clusterBase n (slots_of_size hsize)
  have hloop := hscans.tiles (by simp)
  have hstop : clusterBase + dirEntrySize * firstPiece d clusterBase +
      dirEntrySize * runLength d (n - firstPiece d clusterBase)
        (clusterBase + dirEntrySize * firstPiece d clusterBase) =
      clusterBase + dirEntrySize * runLength d n clusterBase := by
    rw [runLength_add h.le]
    push_cast
    ring
  rw [hstop] at hloop
  rw [heq, List.flatMap_append]
  refine Tiles.append ?_ hloop
  by_cases hpos : firstPiece d clusterBase > 0
  · rw [if_pos hpos]
    exact ⟨rfl, hpos, rfl⟩
  · rw [if_neg hpos]
    have hzero : firstPiece d clusterBase = 0 := by omega
    simp [hzero, Tiles]

theorem FirstPieceOk.shorts (hsize : clusterSize d = dirEntrySize * n)
    (h : FirstPieceOk d clusterBase n) {j : Nat} (hj : j < runLength d n clusterBase)
    (hshort : validateShortEntry d (clusterBase + dirEntrySize * j) = true) :
    ((scanDirectoryCluster d clusterBase).flatMap Event.taken).countP
      (fun s => s.EndsAt (clusterBase + dirEntrySize * j)) = 1 := by
  have hrun := runLength_add h.le
  by_cases hpiece : j < firstPiece d clusterBase
  · -- a short entry of the first piece is its last one
    have hlast : firstPiece d clusterBase = j + 1 := by
      by_contra hne
      have := (h j hpiece).2.2 (by omega)
      rw [hshort] at this
      cases this
    rw [countP_piece hsize hpiece, if_pos hlast]
  · obtain ⟨events, hscans, hcount⟩ := @countP_taken d clusterBase n hsize j
    obtain ⟨i, rfl⟩ := Nat.exists_eq_add_of_le (Nat.not_lt.mp hpiece)
    have hentry : clusterBase + dirEntrySize * ((firstPiece d clusterBase + i : Nat) : Int) =
        clusterBase + dirEntrySize * firstPiece d clusterBase + dirEntrySize * i := by
      push_cast
      ring
    rw [hcount]
    rw [hentry] at hshort ⊢
    rw [if_neg (by omega), Nat.zero_add]
    exact hscans.shorts (by simp) i (by omega) hshort

/-- **The scan loses no entry and takes none twice** exactly when the piece at the
start of the cluster is what the scan takes it for. -/
theorem scan_partitions_iff (hsize : clusterSize d = dirEntrySize * n) :
    Partitions d clusterBase (runLength d n clusterBase) (scanDirectoryCluster d clusterBase) ↔
      FirstPieceOk d clusterBase n :=
  ⟨Partitions.firstPieceOk hsize, fun h => ⟨h.cover hsize, fun _ => h.shorts hsize⟩⟩

end Cluster

/-! ### A small image -/

/-- An image with sectors of 512 bytes, one sector a cluster and two FATs of one
sector; the byte at `p` behind them is `data p`. -/
def smallDisk (totSec : UInt8) (data : Int → UInt8) : Disk where
  size := totSec.toNat * 512
  byte p :=
    if p ≥ 1536 then data (p - 1536)
    else if p = 12 then 2
    else if p = 13 then 1
    else if p = 14 then 1
    else if p = 16 then 2
    else if p = 32 then totSec
    else if p = 36 then 1
    else if p = 510 then 0x55
    else if p = 511 then 0xAA
    else 0

/-- A cluster that begins with a long entry of number `seq`, not the last one of
its name, and a short entry behind it. -/
def pieceDisk (seq : UInt8) : Disk :=
  smallDisk 4 fun p =>
    if p = 0 then seq else if p = 11 then 0x0F else if p = 32 then 65 else if p = 58 then 2 else 0

/-- A piece of two entries is there. -/
theorem scan_partitions_piece :
    Partitions (pieceDisk 1) 1536 2 (scanDirectoryCluster (pieceDisk 1) 1536) := by
  have hrun : runLength (pieceDisk 1) 16 1536 = 2 := by decide
  have hok : FirstPieceOk (pieceDisk 1) 1536 16 := by
    rw [FirstPieceOk]
    decide
  exact hrun ▸ (@scan_partitions_iff (pieceDisk 1) 1536 16 (by decide)).mpr hok

/-- A piece of six entries is not: the scan jumps over the short entry. -/
theorem scan_overlong_piece :
    LoadDiskImage (pieceDisk 5) ∧ isDirectoryCluster (pieceDisk 5) 1536 = true ∧
      ¬ Partitions (pieceDisk 5) 1536 (runLength (pieceDisk 5) 16 1536)
        (scanDirectoryCluster (pieceDisk 5) 1536) := by
  have hrun : runLength (pieceDisk 5) 16 1536 = 2 := by decide
  have hpiece : firstPiece (pieceDisk 5) 1536 = 6 := by decide
  refine ⟨⟨by decide, by decide, by decide⟩, by decide, fun h => ?_⟩
  have := firstPiece_le_of_tiles h.cover
  rw [hrun, hpiece] at this
  revert this
  decide

end NjuOs.Fsrecov
