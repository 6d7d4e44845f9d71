import Eonos.Fat.Volume

/-!
# What the clusters hold

On a device whose accesses succeed the scripts work on two arrays: the entries
of the first FAT copy and the bytes of the clusters.  Reading scripts read them
and leave the memory as it is; `set_fat_entry` and writes inside a cluster
change one place of one of them.
-/

namespace Eonos.Fat

open Eonos.Lib
open Eonos.Lib.Script

/-- The contents of the device and the two atomic fields. -/
structure Mem where
  disk : Nat → Sector
  hint : Nat
  invalidated : Bool

/-- A device whose accesses succeed. -/
def healthy : Handler Call Call.Answer Mem
  | .readSector lba, m => (some (m.disk lba), m)
  | .writeSector lba data, m =>
    (some (), { m with disk := Function.update m.disk lba data })
  | .flush, m => (some (), m)
  | .loadHint, m => (m.hint, m)
  | .storeHint cluster, m => ((), { m with hint := cluster })
  | .fetchMinHint cluster, m => ((), { m with hint := min m.hint cluster })
  | .loadInvalidated, m => (m.invalidated, m)
  | .storeInvalidated, m => ((), { m with invalidated := true })

@[ext]
structure View where
  /-- The entries of the first copy, 28 bits each. -/
  fat : Nat → Nat
  /-- The bytes of the clusters. -/
  byte : Nat → Nat → UInt8

/-- The arrays on a disk; they are zero outside the volume. -/
def view (v : Fat32) (disk : Nat → Sector) : View where
  fat c :=
    if c < v.clusterEnd then entryIn (disk (v.fatLba 0 c)) c % 2 ^ 28 else 0
  byte c k :=
    if v.IsCluster c ∧ k < v.clusterBytes then
      disk (v.clusterStart c + k / 512) ⟨k % 512, offset_lt k⟩
    else 0

namespace View

def setFat (V : View) (c entry : Nat) : View :=
  { V with fat := Function.update V.fat c entry }

/-- `next_cluster`. -/
def link (v : Fat32) (V : View) (c : Nat) : Except FatError (Option Nat) :=
  if v.IsCluster c then decodeLink v (V.fat c) else .error .corrupt

def slot (V : View) (c i : Nat) : Slot := fun j => V.byte c (32 * i + j.val)

/-- The slots of a directory cluster. -/
def slots (v : Fat32) (V : View) (c : Nat) : List Slot :=
  (List.range (16 * v.sectorsPerCluster)).map (V.slot c)

end View

section

variable {v : Fat32} {m : Mem} {c value : Nat}

/-! ### Reading -/

theorem readSector_run (lba : Nat) :
    (readSector lba).run healthy m = some (.ok (m.disk lba), m) := rfl

theorem fatEntry_run (inside : c < v.clusterEnd) :
    (fatEntry v c).run healthy m = some (.ok ((view v m.disk).fat c), m) := by
  unfold fatEntry
  rw [run_bind_ok (run_require_pos inside), run_bind_ok (run_require_pos (Fat32.sectorInFat_lt
    inside)), run_bind_ok (readSector_run _), run_pure]
  unfold view Fat32.fatLba
  dsimp only
  rw [if_pos inside, Nat.zero_mul, Nat.add_zero]

theorem nextCluster_run : (nextCluster v c).run healthy m = some ((view v m.disk).link v c, m) := by
  unfold nextCluster View.link
  by_cases known : v.IsCluster c
  · rw [run_bind_ok (run_require_pos known), run_bind_ok (fatEntry_run known.2), if_pos known]
    rfl
  · rw [run_bind_error (run_require_neg known), if_neg known]

theorem decodeLink_error {entry : Nat} {e : FatError}
    (failed : decodeLink v entry = .error e) : e = .corrupt := by
  unfold decodeLink at failed
  split at failed
  · cases failed
  · split at failed
    · cases failed
      rfl
    · split at failed <;> cases failed
      rfl

theorem link_error {V : View} {e : FatError} (failed : V.link v c = .error e) : e = .corrupt := by
  unfold View.link at failed
  split at failed
  · exact decodeLink_error failed
  · cases failed
    rfl

theorem clusterLba_run (known : v.IsCluster c) :
    (clusterLba v c).run healthy m = some (.ok (v.clusterStart c), m) := by
  unfold clusterLba
  rw [run_bind_ok (run_require_pos known)]
  rfl

theorem clusterLba_run_error (unknown : ¬ v.IsCluster c) :
    (clusterLba v c).run healthy m = some (.error .corrupt, m) := by
  unfold clusterLba
  rw [run_bind_error (run_require_neg unknown)]

theorem readSectors_run (first count : Nat) :
    (readSectors first count).run healthy m =
      some (.ok ((List.range' first count).map m.disk), m) := by
  induction count generalizing first with
  | zero => rfl
  | succ count induction =>
    rw [readSectors, run_bind_ok (readSector_run _), run_bind_ok (induction _), run_pure]
    rfl

/-- The sectors of a cluster. -/
def clusterData (v : Fat32) (disk : Nat → Sector) (c : Nat) : List Sector :=
  (List.range' (v.clusterStart c) v.sectorsPerCluster).map disk

theorem readCluster_run (known : v.IsCluster c) :
    (readCluster v c).run healthy m = some (.ok (clusterData v m.disk c), m) := by
  unfold readCluster
  rw [run_bind_ok (clusterLba_run known), readSectors_run]
  rfl

theorem readCluster_run_error (unknown : ¬ v.IsCluster c) :
    (readCluster v c).run healthy m = some (.error .corrupt, m) := by
  unfold readCluster
  rw [run_bind_error (clusterLba_run_error unknown)]

theorem view_byte {disk : Nat → Sector} (known : v.IsCluster c) {k : Nat}
    (inside : k < v.clusterBytes) :
    (view v disk).byte c k = disk (v.clusterStart c + k / 512) ⟨k % 512, offset_lt k⟩ :=
  if_pos ⟨known, inside⟩

theorem length_sectorSlots (s : Sector) : (sectorSlots s).length = 16 := by
  rw [sectorSlots, List.length_ofFn]

theorem sectorSlots_getElem (s : Sector) {i : Nat} (few : i < 16) :
    (sectorSlots s)[i]? = some fun j => s ⟨32 * i + j.val, by omega⟩ := by
  rw [sectorSlots, List.getElem?_ofFn, dif_pos few]

/-- The records read from a cluster. -/
theorem slots_clusterData {disk : Nat → Sector} (known : v.IsCluster c) :
    slots (clusterData v disk c) = (view v disk).slots v c := by
  have pieces : ∀ first count, (∀ s < count,
      first + s < v.sectorsPerCluster) →
      slots ((List.range' (v.clusterStart c + first) count).map disk) =
        (List.range' (16 * first) (16 * count)).map ((view v disk).slot c) := by
    intro first count
    induction count generalizing first with
    | zero => intro _; rfl
    | succ count induction =>
      intro inside
      have here := inside 0 (by omega)
      have rest := induction (first + 1) fun s below => by
        have := inside (s + 1) (by omega)
        omega
      rw [List.range'_succ, List.map_cons, slots, List.flatMap_cons]
      have split : List.range' (16 * first) (16 * (count + 1)) =
          List.range' (16 * first) 16 ++
            List.range' (16 * (first + 1)) (16 * count) := by
        rw [show 16 * (count + 1) = 16 + 16 * count by ring, ← List.range'_append_1]
        rfl
      rw [split, List.map_append, ← rest]
      congr 1
      refine List.ext_getElem? fun i => ?_
      by_cases few : i < 16
      · rw [sectorSlots_getElem _ few, List.getElem?_map, List.getElem?_range' few, Option.map_some]
        refine congrArg some (funext fun j => ?_)
        have bytes : 32 * (16 * first + i) + j.val < v.clusterBytes := by
          unfold Fat32.clusterBytes sectorSize
          omega
        have sector : (32 * (16 * first + i) + j.val) / 512 = first := by
          omega
        have offset : (32 * (16 * first + i) + j.val) % 512 = 32 * i + j.val := by omega
        simp only [View.slot, Nat.one_mul, view_byte known bytes, sector, offset]
      · rw [List.getElem?_eq_none (by rw [length_sectorSlots]; omega), List.getElem?_eq_none (by
            rw [List.length_map, List.length_range']; omega)]
  have whole := pieces 0 v.sectorsPerCluster fun s below => by omega
  rw [Nat.add_zero, Nat.mul_zero] at whole
  rw [clusterData, whole, View.slots, List.range_eq_range']

end

end Eonos.Fat
