import Eonos.Fat.Model

/-!
# The regions of a volume

The reserved sectors, the copies of the allocation table and the clusters do
not overlap, and all of them end within the extent of the volume.
-/

namespace Eonos.Fat

open Eonos.Lib

/-- Blocks of one size are told apart by number and offset. -/
theorem block_unique {a b s t n : Nat} (left : s < n) (right : t < n)
    (same : a * n + s = b * n + t) : a = b ∧ s = t := by
  have quotient := congrArg (· / n) same
  have rest := congrArg (· % n) same
  simp only [Nat.mul_add_mod_self_right, Nat.mod_eq_of_lt left, Nat.mod_eq_of_lt right] at rest
  have positive : 0 < n := by omega
  simp only [Nat.add_comm _ s, Nat.add_comm _ t, Nat.add_mul_div_right _ _ positive,
    Nat.div_eq_of_lt left, Nat.div_eq_of_lt right, Nat.zero_add] at quotient
  exact ⟨quotient, rest⟩

theorem block_lt {a b s n : Nat} (inside : a < b) (offset : s < n) : a * n + s < b * n := by
  have next : (a + 1) * n ≤ b * n := Nat.mul_le_mul_right n inside
  rw [Nat.add_mul] at next
  omega

namespace Fat32

variable (v : Fat32)

/-- The sector that holds the entry of a cluster in a FAT copy. -/
def fatLba (copy c : Nat) : Nat :=
  v.reservedSectors + copy * v.sectorsPerFat + sectorInFat c

/-- The first sector of a cluster. -/
def clusterStart (c : Nat) : Nat :=
  v.dataStart + (c - 2) * v.sectorsPerCluster

variable {v} {c d copy other s t : Nat}

theorem sectorInFat_lt (inside : c < v.clusterEnd) : sectorInFat c < v.sectorsPerFat := by
  have fits := v.entries_fit
  unfold clusterEnd at inside
  unfold sectorInFat sectorSize
  omega

theorem fatLba_bounds (known : copy < v.fatCount) (inside : c < v.clusterEnd) :
    v.reservedSectors ≤ v.fatLba copy c ∧ v.fatLba copy c < v.dataStart := by
  have below := block_lt known (sectorInFat_lt inside)
  have data := v.dataStart_eq
  unfold fatLba
  omega

theorem fatLba_inj (one : c < v.clusterEnd) (two : d < v.clusterEnd)
    (same : v.fatLba copy c = v.fatLba other d) : copy = other ∧ sectorInFat c = sectorInFat d := by
  refine block_unique (sectorInFat_lt one) (sectorInFat_lt two) ?_
  unfold fatLba at same
  omega

theorem clusterSector_bounds (known : v.IsCluster c) (inside : s < v.sectorsPerCluster) :
    v.dataStart ≤ v.clusterStart c + s ∧ v.clusterStart c + s < v.extent := by
  obtain ⟨low, high⟩ := known
  unfold clusterEnd at high
  have number : c - 2 < v.clusterCount := by omega
  have below := block_lt number inside
  unfold clusterStart extent
  omega

theorem clusterSector_inj (one : v.IsCluster c) (two : v.IsCluster d)
    (left : s < v.sectorsPerCluster) (right : t < v.sectorsPerCluster)
    (same : v.clusterStart c + s = v.clusterStart d + t) : c = d ∧ s = t := by
  have unique := block_unique left right (show (c - 2) * v.sectorsPerCluster + s = (d - 2) *
    v.sectorsPerCluster + t by
        unfold clusterStart at same
        omega)
  obtain ⟨oneLow, -⟩ := one
  obtain ⟨twoLow, -⟩ := two
  omega

theorem dataStart_le_extent : v.dataStart ≤ v.extent := Nat.le_add_right _ _

theorem fsinfo_lt (found : v.fsinfoSector = some s) :
    0 < s ∧ s < v.reservedSectors ∧ s < v.dataStart := by
  obtain ⟨positive, inside⟩ := v.fsinfo_inside s found
  have data := v.dataStart_eq
  omega

theorem clusterBytes_pos : 0 < v.clusterBytes := by
  have positive := v.spc_pos
  unfold clusterBytes sectorSize
  omega

end Fat32

/-- Rounded up to whole clusters, there is room for all bytes. -/
theorem clusters_needed (v : Fat32) (n : Nat) :
    n ≤ (n + v.clusterBytes - 1) / v.clusterBytes * v.clusterBytes := by
  have positive := @Fat32.clusterBytes_pos v
  have floor := Nat.div_add_mod (n + v.clusterBytes - 1) v.clusterBytes
  have rest := Nat.mod_lt (n + v.clusterBytes - 1) positive
  rw [Nat.mul_comm] at floor
  omega

/-- A volume of 31 clusters of one sector. -/
def sampleVolume : Fat32 where
  sectorsPerCluster := 1
  reservedSectors := 32
  fatCount := 1
  sectorsPerFat := 1
  rootCluster := 2
  dataStart := 33
  clusterCount := 31
  fsinfoSector := none
  spc_pos := by decide
  spc_lt := by decide
  reserved_pos := by decide
  reserved_lt := by decide
  fatCount_pos := by decide
  fatCount_lt := by decide
  sectorsPerFat_lt := by decide
  dataStart_eq := by decide
  count_pos := by decide
  count_le := by decide
  entries_fit := by decide
  root_low := by decide
  root_high := by decide
  extent_lt := by decide
  fsinfo_inside := fun _ absent => nomatch absent

end Eonos.Fat
