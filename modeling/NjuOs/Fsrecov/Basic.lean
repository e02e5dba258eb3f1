import NjuOs.Lib.Bytes

/-!
`fsrecov`: the scan of a FAT32 image for directory entries.

A pointer into the image is its distance from `disk_start`. `Disk.byte` is all
the memory there is around the image; a read outside of the image, where the
program can be killed, sees whatever is there. The arithmetic of the C types is
explicit where the header can make it wrap.

What the scan does is a list of events: it stores a segment in `pending`, hands
a group of entries to `analyze_entry` or clears a suffix. `pending` is the fold
of these events; its lists are as long as the counters say, where the arrays of
the program have ten elements.
-/

namespace NjuOs.Fsrecov

open NjuOs.Lib

/-- The mapped image. -/
structure Disk where
  size : Nat
  byte : Int → UInt8

/-- A `u16` at an address. -/
def Disk.le16 (d : Disk) (p : Int) : Nat := fromLe [d.byte p, d.byte (p + 1)]

/-- A `u32` at an address. -/
def Disk.le32 (d : Disk) (p : Int) : Nat :=
  fromLe [d.byte p, d.byte (p + 1), d.byte (p + 2), d.byte (p + 3)]

/-! ### The header -/

section Header

variable (d : Disk)

def bytsPerSec : Nat := d.le16 11

def secPerClus : Nat := (d.byte 13).toNat

def rsvdSecCnt : Nat := d.le16 14

def numFATs : Nat := (d.byte 16).toNat

def totSec32 : Nat := d.le32 32

def fatSz32 : Nat := d.le32 36

def signatureWord : Nat := d.le16 510

/-- The value of an `int` that is computed from `x`. -/
def toInt32 (x : Int) : Int := Int.bmod x (2 ^ 32)

/-- `load_disk_image` returns: the signature is there, and the sizes agree. -/
def LoadDiskImage : Prop :=
  0 < d.size ∧ signatureWord d = 0xaa55 ∧ totSec32 d * bytsPerSec d % 2 ^ 32 = d.size

def dataStartSector : Int := toInt32 ((rsvdSecCnt d + numFATs d * fatSz32 d : Nat) : Int)

/-- The subtraction and the division are those of `u32`. -/
def totalClusterCount : Int :=
  toInt32 (((totSec32 d - dataStartSector d) % 2 ^ 32).toNat / secPerClus d : Nat)

def clusterSize : Nat := bytsPerSec d * secPerClus d

def getClusterBase (clusterNum : Int) : Int :=
  let sectorOffset := toInt32 (dataStartSector d + (clusterNum - 2) * secPerClus d)
  toInt32 (sectorOffset * bytsPerSec d)

end Header

/-! ### Directory entries -/

/-- `dir_entry_size`. -/
def dirEntrySize : Nat := 32

/-- `FINAL_LONG_ENTRY`. -/
def finalLongEntry : UInt8 := 0x40

/-- `LONG_NAME_FLAGS`. -/
def longNameFlags : UInt8 := 0x0F

section Entry

variable (d : Disk) (entry : Int)

/-- The cluster number in a `fat32dent`. -/
def firstCluster : Nat := d.le16 (entry + 20) * 2 ^ 16 + d.le16 (entry + 26)

def validateShortEntry : Bool :=
  if d.byte entry = 0x00 then false
  else if d.byte (entry + 11) &&& 0xC0 ≠ 0 then false
  else if d.byte (entry + 12) ≠ 0 then false
  else if d.byte entry = 0x2E ∨ d.byte entry = 0xE5 then true
  else if firstCluster d entry < 2 ∨
      -- the comparison is one of `u32`
      (firstCluster d entry : Int) > (totalClusterCount d + 1) % 2 ^ 32 then false
  else if d.le32 (entry + 28) > 64 * 2 ^ 20 then false
  else true

def validateLongEntry : Bool :=
  let seqNum := d.byte entry &&& ~~~finalLongEntry
  if seqNum = 0 ∨ seqNum > 20 then false
  else if d.byte (entry + 11) ≠ longNameFlags then false
  else if d.byte (entry + 12) ≠ 0 then false
  else if d.le16 (entry + 26) ≠ 0 then false
  else true

def isDirectoryCluster : Bool := validateShortEntry d entry || validateLongEntry d entry

def calculateNameChecksum : UInt8 :=
  (List.range 11).foldl
    (fun chk (i : Nat) => (((chk &&& 1) <<< 7) ||| (chk >>> 1)) + d.byte (entry + i)) 0

/-- The sequence number of a long entry, as the scan reads it: `sequence & 0x1F`. -/
def sequenceLow : Nat := (d.byte entry &&& 0x1F).toNat

end Entry

def entriesCompatible (d : Disk) (first second : Int) : Bool :=
  if validateLongEntry d second then d.byte (first + 13) = d.byte (second + 13)
  else if validateShortEntry d second then d.byte (first + 13) = calculateNameChecksum d second
  else false

/-! ### Segments -/

/-- `struct entry_segment`; the pointer of a suffix is cleared when it is merged. -/
structure Segment where
  entryPtr : Option Int
  entryCount : Nat
deriving DecidableEq, Repr

/-- `struct unmatched_entries`; its arrays have ten elements, and lists stand for them as long as
no more is stored. -/
structure Pending where
  prefixes : List Segment
  suffixes : List Segment
deriving DecidableEq, Repr

inductive Event where
  | storeSuffix (segment : Segment)
  | storePrefix (segment : Segment)
  /-- `analyze_entry` of the entries of these segments, one after another. -/
  | analyze (group : List Segment)
  /-- `pending.suffixes[j].entry_ptr = NULL`. -/
  | clearSuffix (j : Nat)
deriving DecidableEq, Repr

def Pending.apply (pending : Pending) : Event → Pending
  | .storeSuffix segment => { pending with suffixes := pending.suffixes ++ [segment] }
  | .storePrefix segment => { pending with prefixes := pending.prefixes ++ [segment] }
  | .analyze _ => pending
  | .clearSuffix j =>
      { pending with suffixes := pending.suffixes.modify j fun s => { s with entryPtr := none } }

/-- `pending` after some events. -/
def pendingAfter (events : List Event) : Pending := events.foldl Pending.apply ⟨[], []⟩

/-! ### The scan -/

/-- The piece at the start of a cluster that is taken for the end of an entry
group of another cluster: how many entries the scan believes it has. -/
def firstPiece (d : Disk) (clusterBase : Int) : Nat :=
  if validateLongEntry d clusterBase then
    if d.byte clusterBase &&& finalLongEntry = 0 then sequenceLow d clusterBase + 1 else 0
  else if validateShortEntry d clusterBase then 1
  else 0

/-- The group that is open when the loop ends. -/
def storeOpenGroup (groupStart : Int) (groupCount : Nat) : List Event :=
  if groupCount > 0 then [.storePrefix ⟨some groupStart, groupCount⟩] else []

/-- The `while` loop of `scan_directory_cluster`, up to `stop`. -/
def scanLoop (d : Disk) (stop : Int) : Nat → Int → Int → Nat → List Event
  | 0, _, _, _ => []
  | fuel + 1, current, groupStart, groupCount =>
      if current < stop then
        if validateShortEntry d current then
          .analyze [⟨some groupStart, groupCount + 1⟩] ::
            scanLoop d stop fuel (current + dirEntrySize) (current + dirEntrySize) 0
        else if validateLongEntry d current then
          scanLoop d stop fuel (current + dirEntrySize) groupStart (groupCount + 1)
        else storeOpenGroup groupStart groupCount
      else storeOpenGroup groupStart groupCount

def scanDirectoryCluster (d : Disk) (clusterBase : Int) : List Event :=
  let piece := firstPiece d clusterBase
  let current := clusterBase + dirEntrySize * piece
  (if piece > 0 then [.storeSuffix ⟨some clusterBase, piece⟩] else []) ++
    scanLoop d (clusterBase + clusterSize d) (clusterSize d + 1) current current 0

/-- The clusters that `perform_full_scan` looks at: 2, 3, .. -/
def clusters (d : Disk) : List Int :=
  (List.range (totalClusterCount d).toNat).map fun (i : Nat) => (i : Int) + 2

def scanClusters (d : Disk) : List Event :=
  (clusters d).flatMap fun cluster =>
    let clusterBase := getClusterBase d cluster
    if isDirectoryCluster d clusterBase then scanDirectoryCluster d clusterBase else []

/-! ### The pending pieces -/

/-- One pass of the inner loop of `resolve_pending_entries`. -/
def resolvePair (d : Disk) (pending : Pending) (i j : Nat) : List Event :=
  match pending.prefixes[i]?, pending.suffixes[j]? with
  | some ⟨some first, prefixLen⟩, some ⟨some second, suffixLen⟩ =>
      if entriesCompatible d first second then
        [.analyze [⟨some first, prefixLen⟩, ⟨some second, suffixLen⟩], .clearSuffix j]
      else []
  | _, _ => []

def resolvePairs (d : Disk) : Pending → List (Nat × Nat) → List Event
  | _, [] => []
  | pending, (i, j) :: pairs =>
      let events := resolvePair d pending i j
      events ++ resolvePairs d (events.foldl Pending.apply pending) pairs

/-- The suffixes of one entry that nothing was merged with. -/
def resolveUnmatched (pending : Pending) : List Event :=
  pending.suffixes.flatMap fun suffix =>
    if suffix.entryPtr ≠ none ∧ suffix.entryCount = 1 then [.analyze [suffix]] else []

def resolvePendingEntries (d : Disk) (pending : Pending) : List Event :=
  let pairs := (List.range pending.prefixes.length).flatMap fun i =>
    (List.range pending.suffixes.length).map fun j => (i, j)
  let merged := resolvePairs d pending pairs
  merged ++ resolveUnmatched (merged.foldl Pending.apply pending)

def performFullScan (d : Disk) : List Event :=
  let scanned := scanClusters d
  scanned ++ resolvePendingEntries d (pendingAfter scanned)

end NjuOs.Fsrecov
