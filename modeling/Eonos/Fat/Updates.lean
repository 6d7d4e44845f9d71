import Eonos.Fat.View

/-!
# Writing on a device that does not fail

`set_fat_entry` replaces one entry of every FAT copy, and a write inside a
cluster replaces bytes of that cluster.  Neither touches the other array.
-/

namespace Eonos.Fat

open Eonos.Lib
open Eonos.Lib.Script

section

variable {v : Fat32} {m : Mem} {c d value : Nat} {disk : Nat → Sector}

/-! ### The copies of the table -/

/-- The entry of a cluster in one copy. -/
def copyEntry (v : Fat32) (disk : Nat → Sector) (copy c : Nat) : Nat :=
  entryIn (disk (v.fatLba copy c)) c

/-- All copies agree on the low 28 bits. -/
def Mirrored (v : Fat32) (disk : Nat → Sector) : Prop :=
  ∀ copy < v.fatCount, ∀ c < v.clusterEnd,
    copyEntry v disk copy c % 2 ^ 28 = (view v disk).fat c

theorem view_fat (inside : c < v.clusterEnd) :
    (view v disk).fat c = copyEntry v disk 0 c % 2 ^ 28 := if_pos inside

/-- The memory `invalidate_fsinfo_hint` leaves. -/
def cleared (v : Fat32) (m : Mem) : Mem :=
  if m.invalidated then m
  else
    match v.fsinfoSector with
    | none => { m with invalidated := true }
    | some no =>
      match (clearFsinfo no (m.disk no)).run healthy m with
      | some (_, later) => { later with invalidated := true }
      | none => m

theorem clearFsinfo_run (no : Nat) (sector : Sector) :
    ∃ later, (clearFsinfo no sector).run healthy m = some (.ok (), later) ∧
      later.hint = m.hint ∧ ∀ lba, lba ≠ no → later.disk lba = m.disk lba := by
  unfold clearFsinfo
  split
  · exact ⟨_, rfl, rfl, fun lba other => Function.update_of_ne other _ _⟩
  · exact ⟨_, rfl, rfl, fun _ _ => rfl⟩

theorem invalidateFsinfoHint_run :
    (invalidateFsinfoHint v).run healthy m = some (.ok (), cleared v m) := by
  have load : loadInvalidated.run healthy m = some (.ok m.invalidated, m) := rfl
  unfold invalidateFsinfoHint cleared
  rw [run_bind_ok load]
  cases m.invalidated with
  | true => rfl
  | false =>
    simp only [Bool.false_eq_true, ↓reduceIte]
    cases v.fsinfoSector with
    | none => rfl
    | some no =>
      obtain ⟨later, ran, -⟩ := @clearFsinfo_run m no (m.disk no)
      dsimp only
      rw [run_bind_ok (readSector_run _), run_bind_ok ran, ran]
      rfl

theorem cleared_hint : (cleared v m).hint = m.hint := by
  unfold cleared
  split
  · rfl
  · split
    · rfl
    · rename_i no _
      obtain ⟨later, ran, hint, -⟩ := @clearFsinfo_run m no (m.disk no)
      rw [ran]
      exact hint

theorem cleared_disk_of_ne {lba : Nat} (other : v.fsinfoSector ≠ some lba) :
    (cleared v m).disk lba = m.disk lba := by
  unfold cleared
  split
  · rfl
  · split
    · rfl
    · rename_i no found
      obtain ⟨later, ran, -, disk⟩ := @clearFsinfo_run m no (m.disk no)
      rw [ran]
      exact disk lba fun same => other (same ▸ found)

theorem cleared_disk {lba : Nat} (above : v.reservedSectors ≤ lba) :
    (cleared v m).disk lba = m.disk lba :=
  cleared_disk_of_ne fun found =>
    Nat.not_lt.mpr above (v.fsinfo_inside lba found).2

/-- The disk with one entry replaced in some copies. -/
def patchCopies (v : Fat32) (c value : Nat) (copies : List Nat)
    (disk : Nat → Sector) : Nat → Sector :=
  fun lba =>
    if copies.any fun copy => lba == v.fatLba copy c then
      patchEntry (disk lba) c value
    else disk lba

variable {copy : Nat} {copies : List Nat}

theorem patchCopies_cons (inside : c < v.clusterEnd) (fresh : copy ∉ copies) :
    patchCopies v c value copies (Function.update disk (v.fatLba copy c)
        (patchEntry (disk (v.fatLba copy c)) c value)) =
      patchCopies v c value (copy :: copies) disk := by
  funext lba
  unfold patchCopies
  rw [List.any_cons]
  by_cases here : lba = v.fatLba copy c
  · subst here
    have apart : (copies.any fun other =>
        v.fatLba copy c == v.fatLba other c) = false := by
      rw [List.any_eq_false]
      intro other member same
      have equal := (Fat32.fatLba_inj inside inside (beq_iff_eq.mp same)).1
      exact fresh (equal ▸ member)
    simp only [apart, Function.update_self, beq_self_eq_true, Bool.true_or,
      Bool.false_eq_true, ↓reduceIte]
  · have other : (lba == v.fatLba copy c) = false := beq_false_of_ne here
    rw [other, Bool.false_or, Function.update_of_ne here]

theorem setFatCopies_run (inside : c < v.clusterEnd) (distinct : copies.Nodup) :
    (copies.forM (setFatCopy v c value)).run healthy m =
      some (.ok (), { m with disk := patchCopies v c value copies m.disk }) := by
  induction copies generalizing m with
  | nil => rfl
  | cons copy rest induction =>
    obtain ⟨fresh, distinct⟩ := List.nodup_cons.mp distinct
    have one : (setFatCopy v c value copy).run healthy m = some (.ok (), { m with
          disk := Function.update m.disk (v.fatLba copy c)
            (patchEntry (m.disk (v.fatLba copy c)) c value) }) := rfl
    change (setFatCopy v c value copy >>= fun _ =>
      rest.forM (setFatCopy v c value)).run healthy m = _
    rw [run_bind_ok one, induction distinct, patchCopies_cons inside fresh]

theorem setFatEntry_run (inside : c < v.clusterEnd) :
    (setFatEntry v c value).run healthy m =
      some (.ok (), { cleared v m with
        disk := patchCopies v c value (List.range v.fatCount)
          (cleared v m).disk }) := by
  unfold setFatEntry
  rw [run_bind_ok (run_require_pos inside), run_bind_ok (run_require_pos (Fat32.sectorInFat_lt
    inside)), run_bind_ok invalidateFsinfoHint_run, setFatCopies_run inside List.nodup_range]

theorem entryIn_patchEntry (sector : Sector) (same : sectorInFat d = sectorInFat c) :
    entryIn (patchEntry sector c value) d =
      if d = c then entryIn sector c / 2 ^ 28 * 2 ^ 28 + value % 2 ^ 28
      else entryIn sector d := by
  unfold sectorInFat sectorSize at same
  split
  · rename_i equal
    subst equal
    have bound := sector.u32le_lt (show d * 4 % 512 + 3 < 512 by omega)
    have fits : entryIn sector d / 2 ^ 28 * 2 ^ 28 + value % 2 ^ 28 < 2 ^ 32 := by
      unfold entryIn
      omega
    rw [entryIn, patchEntry, Bytes.u32le_splice_self, Nat.mod_eq_of_lt fits]
  · rename_i other
    rw [entryIn, patchEntry, Bytes.u32le_splice_apart]
    · rfl
    · rw [length_leBytes]
      omega

theorem copyEntry_patchCopies (one : c < v.clusterEnd) (two : d < v.clusterEnd) :
    copyEntry v (patchCopies v c value copies disk) copy d =
      if d = c ∧ copy ∈ copies then
        copyEntry v disk copy c / 2 ^ 28 * 2 ^ 28 + value % 2 ^ 28
      else copyEntry v disk copy d := by
  unfold copyEntry patchCopies
  split
  · rename_i hit
    obtain ⟨other, member, same⟩ := List.any_eq_true.mp hit
    obtain ⟨equal, sector⟩ := Fat32.fatLba_inj two one (beq_iff_eq.mp same)
    rw [entryIn_patchEntry _ sector]
    by_cases here : d = c
    · rw [if_pos here, if_pos ⟨here, equal ▸ member⟩, here]
    · rw [if_neg here, if_neg fun both => here both.1]
  · rename_i miss
    rw [if_neg]
    rintro ⟨rfl, member⟩
    exact miss (List.any_eq_true.mpr ⟨copy, member, beq_self_eq_true _⟩)

theorem patchCopies_outside {lba : Nat} (known : ∀ copy ∈ copies, copy < v.fatCount)
    (inside : c < v.clusterEnd) (outside : lba < v.reservedSectors ∨ v.dataStart ≤ lba) :
    patchCopies v c value copies disk lba = disk lba := by
  unfold patchCopies
  rw [if_neg]
  intro hit
  obtain ⟨copy, member, same⟩ := List.any_eq_true.mp hit
  have bounds := Fat32.fatLba_bounds (known copy member) inside
  rw [← beq_iff_eq.mp same] at bounds
  omega

/-! ### What a step does to the arrays -/

/-- The arrays became `V`, and the copies still agree if they did. -/
structure Turns (v : Fat32) (m later : Mem) (V : View) : Prop where
  arrays : view v later.disk = V
  mirrored : Mirrored v m.disk → Mirrored v later.disk

theorem setFat_eq_iff {V : View} {x : Nat} :
    (V.setFat c x).fat d = if d = c then x else V.fat d := by
  unfold View.setFat
  by_cases equal : d = c
  · rw [if_pos equal, equal]
    exact Function.update_self _ _ _
  · rw [if_neg equal]
    exact Function.update_of_ne equal _ _

theorem copyEntry_cleared : copyEntry v (cleared v m).disk copy c = copyEntry v m.disk copy c := by
  unfold copyEntry
  rw [cleared_disk]
  unfold Fat32.fatLba
  omega

/-- The arrays depend on the sectors behind the reserved ones. -/
theorem view_congr {other : Nat → Sector}
    (same : ∀ lba, v.reservedSectors ≤ lba → other lba = disk lba) :
    view v other = view v disk := by
  have fat : (view v other).fat = (view v disk).fat := by
    funext d
    unfold view
    dsimp only
    rw [same _ (by unfold Fat32.fatLba; omega)]
  have bytes : (view v other).byte = (view v disk).byte := by
    funext d k
    have data := v.dataStart_eq
    unfold view
    dsimp only
    rw [same _ (by unfold Fat32.clusterStart; omega)]
  exact View.ext fat bytes

theorem view_cleared : view v (cleared v m).disk = view v m.disk :=
  view_congr fun _ => cleared_disk

/-- Only the first copy shows in the arrays. -/
theorem view_patchCopies (known : ∀ copy ∈ copies, copy < v.fatCount) (inside : c < v.clusterEnd) :
    view v (patchCopies v c value copies disk) =
      if 0 ∈ copies then (view v disk).setFat c (value % 2 ^ 28)
      else view v disk := by
  have bytes : (view v (patchCopies v c value copies disk)).byte = (view v disk).byte := by
    funext d k
    by_cases there : v.IsCluster d ∧ k < v.clusterBytes
    · have sector : k / 512 < v.sectorsPerCluster := by
        have := there.2
        unfold Fat32.clusterBytes sectorSize at this
        omega
      have bounds := Fat32.clusterSector_bounds there.1 sector
      rw [view_byte there.1 there.2, view_byte there.1 there.2,
        patchCopies_outside known inside (.inr bounds.1)]
    · exact (if_neg there).trans (if_neg there).symm
  have fat : (view v (patchCopies v c value copies disk)).fat = fun d =>
      if d = c ∧ 0 ∈ copies then value % 2 ^ 28 else (view v disk).fat d := by
    funext d
    by_cases there : d < v.clusterEnd
    · rw [view_fat there, view_fat there, copyEntry_patchCopies inside there]
      split
      · omega
      · rfl
    · have other : ¬ (d = c ∧ 0 ∈ copies) := by
        rintro ⟨rfl, -⟩
        exact there inside
      rw [if_neg other]
      exact (if_neg there).trans (if_neg there).symm
  split
  · rename_i first
    refine View.ext (fat.trans (funext fun d => ?_)) bytes
    rw [setFat_eq_iff]
    simp only [first, and_true]
  · rename_i later
    refine View.ext (fat.trans (funext fun d => ?_)) bytes
    exact if_neg fun both => later both.2

theorem setFatEntry_turns (inside : c < v.clusterEnd) :
    ∃ later, (setFatEntry v c value).run healthy m = some (.ok (), later) ∧
      later.hint = m.hint ∧
      Turns v m later ((view v m.disk).setFat c (value % 2 ^ 28)) := by
  refine ⟨_, setFatEntry_run inside, cleared_hint, ?_, ?_⟩
  · dsimp only
    rw [view_patchCopies (fun copy => List.mem_range.mp) inside,
      if_pos (List.mem_range.mpr v.fatCount_pos), view_cleared]
  · intro mirrored copy known d below
    dsimp only
    rw [view_fat below, copyEntry_patchCopies inside below, copyEntry_patchCopies inside below]
    by_cases here : d = c
    · rw [if_pos ⟨here, List.mem_range.mpr known⟩, if_pos ⟨here, List.mem_range.mpr v.fatCount_pos⟩]
      omega
    · rw [if_neg fun both => here both.1, if_neg fun both => here both.1, copyEntry_cleared,
        copyEntry_cleared, mirrored copy known d below, view_fat below]

end

end Eonos.Fat
