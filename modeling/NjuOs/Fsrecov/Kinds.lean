import NjuOs.Fsrecov.Segments

/-!
What kind of entry the scan takes the 32 bytes of an entry for.

At the start of a cluster the scan asks `validate_long_entry` first, in its loop
`validate_short_entry`. Both accept an entry whose attributes are those of a long
name when its characters, read as a cluster number, are in range. The low half of
that number is zero in a long entry, so there is such an entry exactly when the
image has a cluster 65536 (`kinds_exclusive_iff`).
-/

namespace NjuOs.Fsrecov

open NjuOs.Lib

inductive Kind where
  | short
  | long
  | neither
deriving DecidableEq, Repr

section Kinds

variable (d : Disk) (entry : Int)

/-- The order of the tests at the start of a cluster. -/
def kindAtStart : Kind :=
  if validateLongEntry d entry then .long
  else if validateShortEntry d entry then .short
  else .neither

/-- The order of the tests in the loop. -/
def kindInLoop : Kind :=
  if validateShortEntry d entry then .short
  else if validateLongEntry d entry then .long
  else .neither

/-- The images agree in their header. -/
structure SameHeader (d d' : Disk) : Prop where
  size : d'.size = d.size
  byte : ∀ p : Int, 0 ≤ p → p < 512 → d'.byte p = d.byte p

/-- In an image of this geometry, no entry is of both kinds, and the scan takes an
entry for the same wherever it is. -/
structure Exclusive (d : Disk) : Prop where
  disjoint : ∀ d', SameHeader d d' → ∀ entry,
    ¬ (validateShortEntry d' entry = true ∧ validateLongEntry d' entry = true)
  same : ∀ d', SameHeader d d' → ∀ entry, kindAtStart d' entry = kindInLoop d' entry

variable {d entry}

theorem kindAtStart_eq_iff :
    kindAtStart d entry = kindInLoop d entry ↔
      ¬ (validateShortEntry d entry = true ∧ validateLongEntry d entry = true) := by
  rw [kindAtStart, kindInLoop]
  cases validateShortEntry d entry <;> cases validateLongEntry d entry <;> decide

end Kinds

/-! ### The header -/

section Header

variable {d d' : Disk}

theorem SameHeader.le16 (h : SameHeader d d') {p : Int} (hp : 0 ≤ p) (hp' : p < 511) :
    d'.le16 p = d.le16 p := by
  rw [Disk.le16, Disk.le16, h.byte p hp (by omega), h.byte (p + 1) (by omega) (by omega)]

theorem SameHeader.le32 (h : SameHeader d d') {p : Int} (hp : 0 ≤ p) (hp' : p < 509) :
    d'.le32 p = d.le32 p := by
  rw [Disk.le32, Disk.le32, h.byte p hp (by omega), h.byte (p + 1) (by omega) (by omega),
    h.byte (p + 2) (by omega) (by omega), h.byte (p + 3) (by omega) (by omega)]

theorem SameHeader.totalClusterCount (h : SameHeader d d') :
    totalClusterCount d' = totalClusterCount d := by
  have hstart : dataStartSector d' = dataStartSector d := by
    rw [dataStartSector, dataStartSector, rsvdSecCnt, numFATs, fatSz32,
      h.le16 (by decide) (by decide), h.byte 16 (by decide) (by decide),
      h.le32 (by decide) (by decide)]
    rfl
  rw [Fsrecov.totalClusterCount, Fsrecov.totalClusterCount, hstart, totSec32, secPerClus,
    h.le32 (by decide) (by decide), h.byte 13 (by decide) (by decide)]
  rfl

end Header

/-! ### Entries of both kinds -/

section Both

variable {d : Disk} {entry : Int}

/-- What `validate_long_entry` accepts. -/
theorem validateLongEntry_iff :
    validateLongEntry d entry = true ↔
      d.byte entry &&& ~~~finalLongEntry ≠ 0 ∧ d.byte entry &&& ~~~finalLongEntry ≤ 20 ∧
        d.byte (entry + 11) = longNameFlags ∧ d.byte (entry + 12) = 0 ∧
          d.le16 (entry + 26) = 0 := by
  simp only [validateLongEntry]
  by_cases hzero : d.byte entry &&& ~~~finalLongEntry = 0
  · simp [hzero]
  · by_cases hlarge : d.byte entry &&& ~~~finalLongEntry > 20
    · simp [hlarge]
    · simp [hzero, hlarge, UInt8.not_lt.mp hlarge]

/-- A number that is accepted is no special first character of a name. -/
theorem sequence_not_special {b : UInt8} (hzero : b &&& ~~~finalLongEntry ≠ 0)
    (hle : b &&& ~~~finalLongEntry ≤ 20) : b ≠ 0x00 ∧ ¬ (b = 0x2E ∨ b = 0xE5) := by
  constructor
  · rintro rfl
    exact hzero rfl
  · rintro (rfl | rfl)
    · exact absurd hle (by decide)
    · exact absurd hle (by decide)

/-- A long entry is taken for a short one when some character of it is not zero,
and as the upper half of a cluster number in range, and two others are no size
above 64 MB. -/
theorem validateShortEntry_of_long (hlong : validateLongEntry d entry = true) :
    validateShortEntry d entry = true ↔
      0 < d.le16 (entry + 20) ∧
        (d.le16 (entry + 20) * 2 ^ 16 : Int) ≤ (totalClusterCount d + 1) % 2 ^ 32 ∧
          d.le32 (entry + 28) ≤ 64 * 2 ^ 20 := by
  obtain ⟨hzero, hle, hattr, hres, hlow⟩ := validateLongEntry_iff.mp hlong
  obtain ⟨hempty, hspecial⟩ := sequence_not_special hzero hle
  have hflags : longNameFlags &&& 0xC0 = 0 := by decide
  have hcluster : firstCluster d entry = d.le16 (entry + 20) * 2 ^ 16 := by
    rw [firstCluster, hlow, Nat.add_zero]
  rw [validateShortEntry, if_neg hempty, hattr, if_neg (not_not.mpr hflags), hres,
    if_neg (not_not.mpr rfl), if_neg hspecial, hcluster]
  generalize d.le16 (entry + 20) = high
  generalize (totalClusterCount d + 1) % 2 ^ 32 = last
  by_cases hout : high * 2 ^ 16 < 2 ∨ ((high * 2 ^ 16 : Nat) : Int) > last
  · rw [if_pos hout]
    apply iff_of_false Bool.false_ne_true
    rintro ⟨hpos, hlast, -⟩
    omega
  · rw [if_neg hout]
    have hin : 0 < high ∧ (high * 2 ^ 16 : Int) ≤ last := by omega
    by_cases hsize : d.le32 (entry + 28) > 64 * 2 ^ 20
    · rw [if_pos hsize]
      exact iff_of_false Bool.false_ne_true fun h => absurd h.2.2 (Nat.not_le.mpr hsize)
    · rw [if_neg hsize]
      exact iff_of_true rfl ⟨hin.1, hin.2, Nat.not_lt.mp hsize⟩

/-- The image with an entry behind its header that both accept if any is. -/
def withBoth (d : Disk) : Disk where
  size := d.size
  byte p :=
    if p < 512 then d.byte p
    else if p = 512 then 0x41 else if p = 523 then 0x0F else if p = 532 then 1 else 0

theorem withBoth_sameHeader : SameHeader d (withBoth d) := by
  constructor
  · rfl
  · intro p _ hp
    exact if_pos hp

theorem withBoth_long : validateLongEntry (withBoth d) 512 = true := by
  have hsequence : (withBoth d).byte 512 = 0x41 := by simp [withBoth]
  have hlow : (withBoth d).le16 (512 + 26) = 0 := by simp [withBoth, Disk.le16, fromLe]
  apply validateLongEntry_iff.mpr
  rw [hsequence]
  refine ⟨by decide, by decide, ?_, ?_, hlow⟩
  · simp [withBoth, longNameFlags]
  · simp [withBoth]

theorem withBoth_short (h : 2 ^ 16 ≤ (totalClusterCount d + 1) % 2 ^ 32) :
    validateShortEntry (withBoth d) 512 = true := by
  have hhigh : (withBoth d).le16 (512 + 20) = 1 := by simp [withBoth, Disk.le16, fromLe]
  have hsize : (withBoth d).le32 (512 + 28) = 0 := by simp [withBoth, Disk.le32, fromLe]
  apply (validateShortEntry_of_long withBoth_long).mpr
  rw [hhigh, hsize, withBoth_sameHeader.totalClusterCount]
  refine ⟨Nat.zero_lt_one, ?_, Nat.zero_le _⟩
  simpa using h

/-- **No entry is of both kinds**, and the scan takes every entry for the same at
both places, exactly when cluster 65536 is out of range. -/
theorem kinds_exclusive_iff (d : Disk) :
    Exclusive d ↔ (totalClusterCount d + 1) % 2 ^ 32 < 2 ^ 16 := by
  constructor
  · intro h
    by_contra hlarge
    exact h.disjoint (withBoth d) withBoth_sameHeader 512
      ⟨withBoth_short (Int.not_lt.mp hlarge), withBoth_long⟩
  · intro hsmall
    have hdisjoint : ∀ d', SameHeader d d' → ∀ entry,
        ¬ (validateShortEntry d' entry = true ∧ validateLongEntry d' entry = true) := by
      rintro d' hheader entry ⟨hshort, hlong⟩
      obtain ⟨hpos, hlast, -⟩ := (validateShortEntry_of_long hlong).mp hshort
      rw [hheader.totalClusterCount] at hlast
      omega
    exact ⟨hdisjoint, fun d' h entry => kindAtStart_eq_iff.mpr (hdisjoint d' h entry)⟩

end Both

/-- An image of 6553600 sectors, one sector a cluster; the first entry of its first
cluster is the last one of a long name, 13 characters `a`. -/
def largeDisk : Disk where
  size := 3355443200
  byte p :=
    if p = 12 then 2
    else if p = 13 then 1
    else if p = 14 then 1
    else if p = 16 then 2
    else if p = 34 then 0x64
    else if p = 37 then 0xC8
    else if p = 510 then 0x55
    else if p = 511 then 0xAA
    else if p = 52429312 then 0x41
    else if p = 52429323 then 0x0F
    else if 52429312 < p ∧ p < 52429344 ∧
        (p - 52429312) ∈ [1, 3, 5, 7, 9, 14, 16, 18, 20, 22, 24, 28, 30] then 0x61
    else 0

/-- The entry is of both kinds: the scan takes it for a file in its loop, and for a
part of a name at the start of a cluster. -/
theorem long_entry_taken_for_file :
    LoadDiskImage largeDisk ∧ getClusterBase largeDisk 2 = 52429312 ∧
      kindAtStart largeDisk 52429312 = .long ∧ kindInLoop largeDisk 52429312 = .short ∧
        ¬ Exclusive largeDisk := by
  have hstart : kindAtStart largeDisk 52429312 = .long := by decide
  have hloop : kindInLoop largeDisk 52429312 = .short := by decide
  refine ⟨⟨by decide, by decide, by decide⟩, by decide, hstart, hloop, fun h => ?_⟩
  have hsame := h.same largeDisk ⟨rfl, fun _ _ _ => rfl⟩ 52429312
  rw [hstart, hloop] at hsame
  cases hsame

end NjuOs.Fsrecov
