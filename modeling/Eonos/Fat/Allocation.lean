import Eonos.Fat.Updates

/-!
# The table as an array, and taking a cluster from it

On a device that does not fail, `set_fat_entry` changes one entry of every copy
and `allocate_cluster` finds a free cluster from any hint, if there is one.
-/

namespace Eonos.Fat

open Eonos.Lib
open Eonos.Lib.Script

variable {v : Fat32} {m : Mem} {c d value copy : Nat}

/-! ### One entry -/

/-- The disk after an entry was set. -/
def withEntry (v : Fat32) (m : Mem) (c value : Nat) : Mem :=
  { cleared v m with
    disk := patchCopies v c value (List.range v.fatCount) (cleared v m).disk }

theorem copyEntry_withEntry (one : c < v.clusterEnd) (two : d < v.clusterEnd)
    (known : copy < v.fatCount) :
    copyEntry v (withEntry v m c value).disk copy d =
      if d = c then copyEntry v m.disk copy c / 2 ^ 28 * 2 ^ 28 + value % 2 ^ 28
      else copyEntry v m.disk copy d := by
  have member : copy ∈ List.range v.fatCount := List.mem_range.mpr known
  rw [withEntry, copyEntry_patchCopies one two, copyEntry_cleared, copyEntry_cleared]
  simp only [member, and_true]

theorem withEntry_outside {lba : Nat} (inside : c < v.clusterEnd)
    (outside : lba < v.reservedSectors ∨ v.dataStart ≤ lba) (other : v.fsinfoSector ≠ some lba) :
    (withEntry v m c value).disk lba = m.disk lba :=
  (patchCopies_outside (fun _ => List.mem_range.mp) inside outside).trans
    (cleared_disk_of_ne other)

/-! ### One cluster -/

theorem writeSectors_run (first : Nat) (data : Sector) (sectors : List Nat) :
    (sectors.forM fun s => writeSector (first + s) data).run healthy m =
      some (.ok (), { m with
        disk := fun lba =>
          if ∃ s ∈ sectors, lba = first + s then data else m.disk lba }) := by
  induction sectors generalizing m with
  | nil => simp
  | cons s rest induction =>
    have one : (writeSector (first + s) data).run healthy m = some (.ok (), { m with
          disk := Function.update m.disk (first + s) data }) := rfl
    change (writeSector (first + s) data >>= fun _ =>
      rest.forM fun s => writeSector (first + s) data).run healthy m = _
    rw [run_bind_ok one, induction]
    congr 4
    funext lba
    by_cases here : lba = first + s
    · simp [here]
    · simp [here]

/-- The memory with the sectors of a cluster filled with zeros. -/
def zeroed (v : Fat32) (m : Mem) (c : Nat) : Mem :=
  { m with
    disk := fun lba =>
      if ∃ s ∈ List.range v.sectorsPerCluster, lba = v.clusterStart c + s then
        fun _ => 0
      else m.disk lba }

theorem zeroCluster_run (known : v.IsCluster c) :
    (zeroCluster v c).run healthy m = some (.ok (), zeroed v m c) := by
  rw [zeroCluster, run_bind_ok (clusterLba_run known), writeSectors_run]
  rfl

/-- A cluster marked as the end of a chain and filled with zeros. -/
def claimed (v : Fat32) (m : Mem) (c : Nat) : Mem :=
  { zeroed v (withEntry v m c endOfChain) c with
    hint := if c = v.clusterCount + 1 then 2 else c + 1 }

theorem claimCluster_run (known : v.IsCluster c) :
    (claimCluster v c).run healthy m = some (.ok c, claimed v m c) := by
  have attempted : (attempt (zeroCluster v c) : FatIo _).run healthy
      (withEntry v m c endOfChain) =
        some (.ok (.ok ()), zeroed v (withEntry v m c endOfChain) c) := by
    rw [run_attempt, zeroCluster_run known]
    rfl
  rw [claimCluster, run_bind_ok (setFatEntry_run known.2)]
  exact run_bind_ok attempted _

/-- Zeroing a cluster leaves the table alone. -/
theorem copyEntry_claimed (known : v.IsCluster c) (inside : d < v.clusterEnd)
    (one : copy < v.fatCount) :
    copyEntry v (claimed v m c).disk copy d =
      copyEntry v (withEntry v m c endOfChain).disk copy d := by
  unfold copyEntry claimed zeroed
  dsimp only
  rw [if_neg]
  rintro ⟨s, member, same⟩
  have table := Fat32.fatLba_bounds one inside
  have data := Fat32.clusterSector_bounds known (List.mem_range.mp member)
  omega

/-! ### The search -/

/-- A cluster whose entry is zero. -/
def Free (v : Fat32) (m : Mem) (c : Nat) : Prop :=
  v.IsCluster c ∧ copyEntry v m.disk 0 c % 2 ^ 28 = 0

theorem allocateLoop_run (start left step : Nat) :
    (∃ c, Free v m c ∧
      (allocateLoop v start left step).run healthy m =
        some (.ok c, claimed v m c)) ∨
      (∀ i < left, ¬ Free v m (2 + (start - 2 + (step + i)) % v.clusterCount)) ∧
        (allocateLoop v start left step).run healthy m =
          some (.error .noSpace, m) := by
  induction left generalizing step with
  | zero => exact .inr ⟨fun i small => absurd small (Nat.not_lt_zero i), rfl⟩
  | succ left induction =>
    have inside := Nat.mod_lt (start - 2 + step) v.count_pos
    have known : v.IsCluster (2 + (start - 2 + step) % v.clusterCount) := by
      unfold Fat32.IsCluster Fat32.clusterEnd
      omega
    rw [allocateLoop, run_bind_ok (fatEntry_run known.2), view_fat known.2]
    split
    · rename_i zero
      exact .inl ⟨_, ⟨known, zero⟩, claimCluster_run known⟩
    · rename_i used
      rcases induction (step + 1) with found | ⟨full, failed⟩
      · exact .inl found
      · refine .inr ⟨fun i small => ?_, failed⟩
        cases i with
        | zero => exact fun free => used free.2
        | succ i =>
          have later := full i (by omega)
          rwa [Nat.add_right_comm, Nat.add_assoc step] at later

theorem search_covers (start : Nat) (known : v.IsCluster c) :
    ∃ i < v.clusterCount, 2 + (start + i) % v.clusterCount = c := by
  obtain ⟨low, high⟩ := known
  unfold Fat32.clusterEnd at high
  have positive := v.count_pos
  have offset := Nat.mod_lt start positive
  refine ⟨(c - 2 + (v.clusterCount - start % v.clusterCount)) % v.clusterCount,
    Nat.mod_lt _ positive, ?_⟩
  have whole := Nat.div_add_mod start v.clusterCount
  have total : start + (c - 2 + (v.clusterCount - start % v.clusterCount)) =
      c - 2 + v.clusterCount * (start / v.clusterCount + 1) := by
    rw [Nat.mul_add]
    omega
  rw [Nat.add_mod_mod, total, Nat.add_mul_mod_self_left, Nat.mod_eq_of_lt (by omega)]
  omega

theorem allocateCluster_run (v : Fat32) (m : Mem) :
    (∃ c, Free v m c ∧
      (allocateCluster v).run healthy m = some (.ok c, claimed v m c)) ∨
      (∀ c, ¬ Free v m c) ∧
        (allocateCluster v).run healthy m = some (.error .noSpace, m) := by
  have load : loadHint.run healthy m = some (.ok m.hint, m) := rfl
  rw [allocateCluster, run_bind_ok load]
  rcases @allocateLoop_run v m (clampHint v m.hint) v.clusterCount 0 with found | ⟨full, failed⟩
  · exact .inl found
  · refine .inr ⟨fun c free => ?_, failed⟩
    obtain ⟨i, small, same⟩ := search_covers (clampHint v m.hint - 2) free.1
    have taken := full i small
    rw [Nat.zero_add, same] at taken
    exact taken free

/-- After `set_fat_entry` every copy has the value's low 28 bits at that entry,
and nothing else has changed but the FSInfo sector.  `allocate_cluster` fails
exactly when no entry is zero; otherwise it takes a cluster whose entry was, and
marks it in all copies, zeroes it and changes no other entry. -/
theorem table_is_array (v : Fat32) (m : Mem) :
    (∀ c d value, c < v.clusterEnd → d < v.clusterEnd →
      ∃ later, (setFatEntry v c value).run healthy m = some (.ok (), later) ∧
        (fatEntry v d).run healthy later = some (.ok (if d = c
          then value % 2 ^ 28 else copyEntry v m.disk 0 d % 2 ^ 28), later) ∧
        (∀ copy < v.fatCount, copyEntry v later.disk copy d =
          copyEntry v m.disk copy d / 2 ^ 28 * 2 ^ 28 +
            if d = c then value % 2 ^ 28
            else copyEntry v m.disk copy d % 2 ^ 28) ∧
        ∀ lba, lba < v.reservedSectors ∨ v.dataStart ≤ lba →
          v.fsinfoSector ≠ some lba → later.disk lba = m.disk lba) ∧
    ((∃ later, (allocateCluster v).run healthy m =
        some (.error .noSpace, later)) ↔
      ∀ c, v.IsCluster c → copyEntry v m.disk 0 c % 2 ^ 28 ≠ 0) ∧
    ((∃ c, v.IsCluster c ∧ copyEntry v m.disk 0 c % 2 ^ 28 = 0) →
      ∃ c later, (allocateCluster v).run healthy m = some (.ok c, later) ∧
        v.IsCluster c ∧ copyEntry v m.disk 0 c % 2 ^ 28 = 0 ∧
        (∀ copy < v.fatCount,
          copyEntry v later.disk copy c % 2 ^ 28 = endOfChain) ∧
        (∀ s < v.sectorsPerCluster,
          later.disk (v.clusterStart c + s) = fun _ => 0) ∧
        ∀ copy < v.fatCount, ∀ d < v.clusterEnd, d ≠ c →
          copyEntry v later.disk copy d = copyEntry v m.disk copy d) := by
  have search := allocateCluster_run v m
  refine ⟨fun c d value one two => ?_, ⟨?_, ?_⟩, ?_⟩
  · refine ⟨withEntry v m c value, setFatEntry_run one, ?_, ?_, ?_⟩
    · rw [fatEntry_run two, view_fat two, copyEntry_withEntry one two v.fatCount_pos]
      split
      · rw [Nat.mul_add_mod_self_right, Nat.mod_mod]
      · rfl
    · intro copy known
      rw [copyEntry_withEntry one two known]
      split
      · rename_i same
        rw [same]
      · rw [Nat.div_add_mod']
    · intro lba outside other
      exact withEntry_outside one outside other
  · rintro ⟨later, failed⟩ c known zero
    rcases search with ⟨found, -, ran⟩ | ⟨full, -⟩
    · cases ran.symm.trans failed
    · exact full c ⟨known, zero⟩
  · intro full
    rcases search with ⟨found, free, -⟩ | ⟨-, ran⟩
    · exact absurd free.2 (full found free.1)
    · exact ⟨m, ran⟩
  · rintro ⟨c, free⟩
    rcases search with ⟨found, ⟨known, zero⟩, ran⟩ | ⟨full, -⟩
    · refine ⟨found, _, ran, known, zero, ?_, ?_, ?_⟩
      · intro copy one
        rw [copyEntry_claimed known known.2 one, copyEntry_withEntry known.2 known.2 one, if_pos
          rfl, Nat.mul_add_mod_self_right]
        rfl
      · intro s small
        exact if_pos ⟨s, List.mem_range.mpr small, rfl⟩
      · intro copy one d inside other
        rw [copyEntry_claimed known inside one,
          copyEntry_withEntry known.2 inside one, if_neg other]
    · exact absurd free (full c)

end Eonos.Fat
