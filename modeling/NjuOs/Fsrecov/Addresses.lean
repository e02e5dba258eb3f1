import NjuOs.Fsrecov.Kinds

/-!
Where the clusters are.

`get_cluster_base` computes in `int`, and the last of its products is a distance
in bytes. The loader accepts images of up to 4 GB, so this product overflows in
images whose last cluster begins at 2 GB or behind it, and only in those
(`exact_addresses_iff`).
-/

namespace NjuOs.Fsrecov

/-! ### Sectors -/

section Sectors

variable (d : Disk)

/-- The number of reserved sectors and sectors of FATs. -/
def dataStart : Nat := rsvdSecCnt d + numFATs d * fatSz32 d

/-- The number of whole clusters behind them. -/
def dataClusters : Nat := (totSec32 d - dataStart d) / secPerClus d

/-- The distance of data cluster `i` from the start of the image, cluster 2 first. -/
def clusterStart (i : Nat) : Nat := (dataStart d + i * secPerClus d) * bytsPerSec d

variable {d}

theorem toInt32_of_lt {n : Nat} (h : n < 2 ^ 31) : toInt32 n = n := by
  rw [toInt32, Int.bmod_eq_of_le]
  · omega
  · omega

theorem clusterStart_mono {i j : Nat} (h : i ≤ j) : clusterStart d i ≤ clusterStart d j := by
  apply Nat.mul_le_mul_right
  exact Nat.add_le_add_left (Nat.mul_le_mul_right _ h) _

/-- The sectors of a cluster are there. -/
theorem clusterStart_add_le {i : Nat} (hdata : dataStart d ≤ totSec32 d) (hi : i < dataClusters d) :
    clusterStart d i + clusterSize d ≤ totSec32 d * bytsPerSec d := by
  have hmul := (Nat.mul_le_mul_right (secPerClus d) hi).trans (Nat.div_mul_le_self _ _)
  have hend : dataStart d + (i + 1) * secPerClus d ≤ totSec32 d := by
    rw [Nat.succ_eq_add_one] at hmul
    omega
  calc clusterStart d i + clusterSize d
      = (dataStart d + (i + 1) * secPerClus d) * bytsPerSec d := by
        rw [clusterStart, clusterSize]
        ring
    _ ≤ totSec32 d * bytsPerSec d := Nat.mul_le_mul_right _ hend

section Small

variable (hsectors : totSec32 d < 2 ^ 31) (hdata : dataStart d ≤ totSec32 d)

include hsectors hdata

theorem dataStartSector_eq : dataStartSector d = dataStart d :=
  toInt32_of_lt (hdata.trans_lt hsectors)

theorem totalClusterCount_eq : totalClusterCount d = dataClusters d := by
  have hleft : ((totSec32 d - dataStartSector d : Int) % 2 ^ 32).toNat =
      totSec32 d - dataStart d := by
    rw [dataStartSector_eq hsectors hdata]
    omega
  rw [totalClusterCount, hleft]
  exact toInt32_of_lt ((Nat.div_le_self _ _).trans_lt (by omega))

/-- `get_cluster_base` where its last product fits into an `int`. -/
theorem getClusterBase_eq {i : Nat} (hi : i < dataClusters d) (hfits : clusterStart d i < 2 ^ 31) :
    getClusterBase d ((i : Int) + 2) = clusterStart d i := by
  have hmul := (Nat.mul_le_mul_right (secPerClus d) hi).trans (Nat.div_mul_le_self _ _)
  have hsector : dataStart d + i * secPerClus d < 2 ^ 31 := by
    rw [Nat.succ_eq_add_one, Nat.add_mul] at hmul
    omega
  have hoffset : dataStartSector d + ((i : Int) + 2 - 2) * secPerClus d =
      (dataStart d + i * secPerClus d : Nat) := by
    rw [dataStartSector_eq hsectors hdata]
    push_cast
    ring
  have hbytes : ((dataStart d + i * secPerClus d : Nat) : Int) * bytsPerSec d =
      (clusterStart d i : Nat) := by
    rw [clusterStart]
    push_cast
    rfl
  simp only [getClusterBase]
  rw [hoffset, toInt32_of_lt hsector, hbytes, toInt32_of_lt hfits]

end Small

end Sectors

/-! ### Addresses -/

/-- An `int` holds the value. -/
def InInt32 (x : Int) : Prop := -2 ^ 31 ≤ x ∧ x < 2 ^ 31

/-- The address of a cluster is computed without an overflow, it is the right one, and
the cluster is in the image. -/
structure ExactAddress (d : Disk) (cluster : Int) : Prop where
  sectors : InInt32 ((cluster - 2) * secPerClus d)
  offset : InInt32 (dataStartSector d + (cluster - 2) * secPerClus d)
  bytes : InInt32 ((dataStartSector d + (cluster - 2) * secPerClus d) * bytsPerSec d)
  base : getClusterBase d cluster =
    (dataStartSector d + (cluster - 2) * secPerClus d) * bytsPerSec d
  inside : 0 ≤ getClusterBase d cluster ∧ getClusterBase d cluster + clusterSize d ≤ d.size

def ExactAddresses (d : Disk) : Prop :=
  ∀ cluster : Int, 2 ≤ cluster → cluster ≤ totalClusterCount d + 1 → ExactAddress d cluster

/-- The loader accepts the image, and the fields of its header have documented values. -/
structure Documented (d : Disk) : Prop where
  load : LoadDiskImage d
  sector : 512 ≤ bytsPerSec d
  cluster : 1 ≤ secPerClus d ∧ secPerClus d ≤ 128
  reserved : dataStart d ≤ totSec32 d
  bytes : totSec32 d * bytsPerSec d < 2 ^ 32

section Documented

variable {d : Disk}

theorem Documented.size (h : Documented d) : totSec32 d * bytsPerSec d = d.size := by
  rw [← h.load.2.2, Nat.mod_eq_of_lt h.bytes]

theorem Documented.sectors (h : Documented d) : totSec32 d < 2 ^ 23 := by
  have hmul := Nat.mul_le_mul_left (totSec32 d) h.sector
  have hbytes := h.bytes
  omega

theorem Documented.exactAddress (h : Documented d) {i : Nat} (hi : i < dataClusters d)
    (hfits : clusterStart d i < 2 ^ 31) : ExactAddress d ((i : Int) + 2) := by
  have hsmall := h.sectors
  have hsectors : totSec32 d < 2 ^ 31 := by omega
  have hbase := getClusterBase_eq hsectors h.reserved hi hfits
  have hmul := (Nat.mul_le_mul_right (secPerClus d) hi).trans (Nat.div_mul_le_self _ _)
  have hoffset : dataStart d + i * secPerClus d < 2 ^ 23 := by
    have hreserved := h.reserved
    rw [Nat.succ_eq_add_one, Nat.add_mul] at hmul
    omega
  have hsector : ((i : Int) + 2 - 2) * secPerClus d = (i * secPerClus d : Nat) := by
    push_cast
    ring
  have hbytes : ((dataStart d : Int) + (i * secPerClus d : Nat)) * bytsPerSec d =
      (clusterStart d i : Nat) := by
    rw [clusterStart]
    push_cast
    rfl
  constructor
  · rw [hsector, InInt32]
    omega
  · rw [hsector, dataStartSector_eq hsectors h.reserved, InInt32]
    omega
  · rw [hsector, dataStartSector_eq hsectors h.reserved, hbytes, InInt32]
    omega
  · rw [hsector, dataStartSector_eq hsectors h.reserved, hbytes, hbase]
  · have hend := clusterStart_add_le h.reserved hi
    rw [h.size] at hend
    rw [hbase]
    exact ⟨Int.natCast_nonneg _, by exact_mod_cast hend⟩

theorem Documented.totalClusterCount (h : Documented d) :
    totalClusterCount d = dataClusters d := by
  have hsmall := h.sectors
  exact totalClusterCount_eq (by omega) h.reserved

/-- The addresses are exact if that of the last cluster fits into an `int`. -/
theorem Documented.exactAddresses (h : Documented d)
    (hfits : dataClusters d = 0 ∨ clusterStart d (dataClusters d - 1) < 2 ^ 31) :
    ExactAddresses d := by
  intro cluster hfrom hto
  rw [h.totalClusterCount] at hto
  obtain ⟨i, rfl⟩ : ∃ i : Nat, cluster = (i : Int) + 2 := ⟨(cluster - 2).toNat, by omega⟩
  have hi : i < dataClusters d := by omega
  have hlast := hfits.resolve_left (Nat.ne_zero_of_lt hi)
  exact h.exactAddress hi ((clusterStart_mono (Nat.le_sub_one_of_lt hi)).trans_lt hlast)

/-- **Cluster addresses are exact** exactly when the last cluster begins in the
first 2 GB of the image. -/
theorem exact_addresses_iff (h : Documented d) :
    ExactAddresses d ↔ dataClusters d = 0 ∨ clusterStart d (dataClusters d - 1) < 2 ^ 31 := by
  refine ⟨fun hexact => ?_, h.exactAddresses⟩
  rw [or_iff_not_imp_left]
  intro hne
  have hsmall := h.sectors
  have hcount := h.totalClusterCount
  have hlast := hexact (dataClusters d + 1 : Nat) (by omega) (by omega)
  have hstart : (dataStartSector d + (((dataClusters d + 1 : Nat) : Int) - 2) * secPerClus d) *
      bytsPerSec d = (clusterStart d (dataClusters d - 1) : Nat) := by
    rw [dataStartSector_eq (by omega) h.reserved, clusterStart]
    push_cast [Nat.one_le_iff_ne_zero.mpr hne]
    ring
  have hbytes := hlast.bytes.2
  rw [hstart] at hbytes
  exact_mod_cast hbytes

end Documented

/-- An image of one cluster. -/
theorem exact_addresses_piece : ExactAddresses (pieceDisk 1) := by
  have hload : LoadDiskImage (pieceDisk 1) := ⟨by decide, by decide, by decide⟩
  have hdocumented : Documented (pieceDisk 1) := ⟨hload, by decide, by decide, by decide, by decide⟩
  exact (exact_addresses_iff hdocumented).mpr (.inr (by decide))

/-- In the image of 3 GB the last cluster is looked for in front of the image. -/
theorem last_address_overflows :
    Documented largeDisk ∧ totalClusterCount largeDisk + 1 = 6451200 ∧
      getClusterBase largeDisk 6451200 = -939524608 ∧ ¬ ExactAddresses largeDisk := by
  have hload : LoadDiskImage largeDisk := ⟨by decide, by decide, by decide⟩
  have hbase : getClusterBase largeDisk 6451200 = -939524608 := by decide
  refine ⟨⟨hload, by decide, by decide, by decide, by decide⟩, by decide, hbase, fun h => ?_⟩
  have hinside := (h 6451200 (by decide) (by decide)).inside.1
  rw [hbase] at hinside
  exact absurd hinside (by decide)

end NjuOs.Fsrecov
