import Eonos.Fat.Updates

/-!
# Which clusters can follow in a chain

`mount` admits cluster numbers up to `0x0ffffff6`, and `set_fat_entry` writes
any of them into the table.  `next_cluster` takes the numbers from `0x0ffffff0`
on for reserved marks.
-/

namespace Eonos.Fat

open Eonos.Lib
open Eonos.Lib.Script

section

variable {v : Fat32} {c p : Nat}

theorem Fat32.IsCluster.lt (known : v.IsCluster c) : c < 0x0ffffff7 := by
  have bound := v.count_le
  have below := known.2
  unfold Fat32.clusterEnd at below
  omega

/-- What an entry that names a cluster says. -/
theorem decodeLink_cluster (known : v.IsCluster c) :
    decodeLink v c = if c < 0x0ffffff0 then .ok (some c) else .error .corrupt := by
  have below := known.lt
  obtain ⟨low, high⟩ := known
  unfold decodeLink
  rw [if_neg (by omega)]
  split
  · rw [if_neg (by omega)]
  · rw [if_neg (by omega), if_pos (by omega)]

theorem link_setFat {V : View} (prev : v.IsCluster p) (known : v.IsCluster c) :
    (V.setFat p (c % 2 ^ 28)).link v p =
      if c < 0x0ffffff0 then .ok (some c) else .error .corrupt := by
  have below := known.lt
  unfold View.link
  rw [if_pos prev, setFat_eq_iff, if_pos rfl, Nat.mod_eq_of_lt (by omega), decodeLink_cluster known]

end

/-- A cluster written as the successor of another one is found there exactly
below the reserved numbers. -/
theorem set_then_next_iff {v : Fat32} {p c : Nat} (prev : v.IsCluster p)
    (known : v.IsCluster c) (m : Mem) :
    (∃ later, (setFatEntry v p c).run healthy m = some (.ok (), later) ∧
      (nextCluster v p).run healthy later = some (.ok (some c), later)) ↔
      c < 0x0ffffff0 := by
  obtain ⟨later, ran, -, turns⟩ := @setFatEntry_turns v m p c prev.2
  have next : (nextCluster v p).run healthy later =
      some (if c < 0x0ffffff0 then .ok (some c) else .error .corrupt,
        later) := by
    rw [nextCluster_run, turns.arrays, link_setFat prev known]
  constructor
  · rintro ⟨other, again, found⟩
    cases ran.symm.trans again
    rw [next] at found
    by_contra large
    rw [if_neg large] at found
    cases found
  · intro small
    refine ⟨later, ran, ?_⟩
    rw [next, if_pos small]

/-- The boot sector of a volume with clusters of one sector. -/
def bootSector (sectorsPerFat total : Nat) : Sector :=
  let blank : Sector := fun i =>
    if i = 12 then 2 else if i = 13 then 1 else if i = 14 then 32
    else if i = 16 then 1 else if i = 44 then 2
    else if i = 510 then 0x55 else if i = 511 then 0xaa
    else 0
  (blank.splice 32 (leBytes 4 total) (by simp)).splice 36
    (leBytes 4 sectorsPerFat) (by simp)

/-- The largest volume that mounts: cluster `0x0ffffff0` cannot follow. -/
theorem largest_volume_unlinkable :
    ∃ v m later, mountBoot (bootSector 0x200000 0x10200015) 0x10200015 =
        .ok v ∧
      v.IsCluster 2 ∧ v.IsCluster 0x0ffffff0 ∧
      (setFatEntry v 2 0x0ffffff0).run healthy m = some (.ok (), later) ∧
      (nextCluster v 2).run healthy later = some (.error .corrupt, later) := by
  have count : (mountBoot (bootSector 0x200000 0x10200015) 0x10200015).map
      (·.clusterCount) = .ok 0x0ffffff5 := by decide +kernel
  cases mounted : mountBoot (bootSector 0x200000 0x10200015) 0x10200015 with
  | error e =>
    rw [mounted] at count
    cases count
  | ok v =>
    rw [mounted] at count
    have clusters : v.clusterCount = 0x0ffffff5 := by
      injection count
    have prev : v.IsCluster 2 := by
      unfold Fat32.IsCluster Fat32.clusterEnd
      omega
    have known : v.IsCluster 0x0ffffff0 := by
      unfold Fat32.IsCluster Fat32.clusterEnd
      omega
    obtain ⟨later, ran, -, turns⟩ :=
      @setFatEntry_turns v ⟨fun _ _ => 0, 2, false⟩ 2 0x0ffffff0 prev.2
    refine ⟨v, _, later, rfl, prev, known, ran, ?_⟩
    rw [nextCluster_run, turns.arrays, link_setFat prev known]
    rfl

/-- On a small volume cluster 3 follows cluster 2. -/
theorem small_volume_links :
    ∃ later,
      (setFatEntry sampleVolume 2 3).run healthy ⟨fun _ _ => 0, 2, false⟩ =
        some (.ok (), later) ∧
      (nextCluster sampleVolume 2).run healthy later =
        some (.ok (some 3), later) :=
  (set_then_next_iff (by decide) (by decide) _).mpr (by decide)

end Eonos.Fat
