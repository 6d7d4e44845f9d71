import Eonos.Spaces.Model

/-!
# The tree of an address space

A space owns its PML4 and the tables below the lower half of it; the upper half
leads into the kernel's tables.  The tree of a space is well formed when its
own tables are, the kernel's tree is, and the two have no table in common.
-/

namespace Eonos.Spaces

open Eonos.Vmm
open Eonos.Lib.TableTree

/-- Paths of the lower half: the PML4 itself, or a slot below the kernel's. -/
def Own (path : List (Fin 512)) : Prop :=
  ∀ i ∈ path.getLast?, i.val < 256

theorem own_nil : Own [] := by simp [Own]

variable {i : Fin 512} {path : List (Fin 512)} {virt : BitVec 64}

theorem own_singleton : Own [i] ↔ i.val < 256 := by simp [Own]

theorem own_cons {j : Fin 512} : Own (i :: j :: path) ↔ Own (j :: path) := by
  rw [Own, Own, List.getLast?_cons_cons]

theorem Own.tail (own : Own (i :: path)) : Own path := by
  cases path with
  | nil => exact own_nil
  | cons j path => exact own_cons.mp own

theorem Own.cons {i : Fin 512} {path : List (Fin 512)} (own : Own path)
    (below : path ≠ []) : Own (i :: path) := by
  cases path with
  | nil => exact absurd rfl below
  | cons j path => exact own_cons.mpr own

theorem Own.suffix {first whole : List (Fin 512)} (own : Own whole)
    (below : first <:+ whole) : Own first := by
  obtain ⟨front, rfl⟩ := below
  induction front with
  | nil => exact own
  | cons i front induction => exact induction own.tail

theorem getLast?_indices (virt : BitVec 64) (level : Nat) :
    (indices virt (level + 1)).getLast? = some (index virt 0) := by
  induction level with
  | zero => rfl
  | succ level induction =>
    rw [indices_succ, indices_succ, List.getLast?_cons_cons, ← indices_succ]
    exact induction

theorem own_indices {level : Nat} : Own (indices virt (level + 1)) ↔ (index virt 0).val < 256 := by
  rw [Own, getLast?_indices]
  simp

theorem index_user (low : virt.toNat < 2 ^ 47) : (index virt 0).val < 256 := by
  rw [index_val]
  omega

theorem index_kernelHalf (high : KernelHalf virt) : 256 ≤ (index virt 0).val := by
  have bound := virt.isLt
  rw [index_val]
  unfold KernelHalf at high
  omega

/-- A path of the upper half passes through a slot of the kernel. -/
theorem exists_of_not_own (shared : ¬ Own path) : ∃ front i, path = front ++ [i] ∧ 256 ≤ i.val := by
  unfold Own at shared
  push Not at shared
  obtain ⟨i, last, high⟩ := shared
  obtain ⟨front, rfl⟩ := List.getLast?_eq_some_iff.mp last
  exact ⟨front, i, rfl, high⟩

/-- The tables a space owns. -/
def OwnTable (s : Vmm.State) (space t : BitVec 64) : Prop :=
  ∃ path, Own path ∧ s.tableAt space path = some t

theorem ownTable_root (s : Vmm.State) (space : BitVec 64) :
    OwnTable s space space := ⟨[], own_nil, rfl⟩

/-- The own part of a space, and its slots shared with the kernel. -/
structure SpaceWf (kernel space : BitVec 64) (s : Vmm.State) : Prop where
  masked : space &&& addrMask = space
  shares : ∀ i : Fin 512, 256 ≤ i.val → has (s.read space i) present = true →
    s.read space i = s.read kernel i
  flat : ∀ i, has (s.read space i) present = true →
    has (s.read space i) huge = false
  apart : ∀ {first second t}, Own first → Own second →
    s.tableAt space first = some t → s.tableAt space second = some t →
      first = second
  foreign : ∀ {t path}, OwnTable s space t → s.tableAt kernel path ≠ some t

section

variable {kernel space : BitVec 64} {s later : Vmm.State}

theorem SpaceWf.shared_path (wf : SpaceWf kernel space s) {path : List (Fin 512)} {t : BitVec 64}
    (shared : ¬ Own path) (found : s.tableAt space path = some t) :
    s.tableAt kernel path = some t := by
  obtain ⟨front, i, rfl, high⟩ := exists_of_not_own shared
  have suffix : [i] <:+ front ++ [i] := List.suffix_append _ _
  obtain ⟨u, first⟩ := tableAt_suffix suffix found
  obtain ⟨root, top, leads⟩ := Option.bind_eq_some_iff.mp first
  cases top
  have mapped := (child_some leads).2.1
  rw [← found]
  exact (tableAt_shared (wf.shares i high mapped) front).symm

/-- The whole tree of a space is well formed. -/
theorem SpaceWf.wf (space_wf : SpaceWf kernel space s) (kernel_wf : Wf kernel s)
    (fresh : ∀ frame ∈ s.pool, ¬ OwnTable s space frame) : Wf space s := by
  refine ⟨space_wf.masked, ?_, space_wf.flat, kernel_wf.poolNodup, kernel_wf.poolMasked, ?_⟩
  · intro first second t one two
    by_cases firstOwn : Own first
    · by_cases secondOwn : Own second
      · exact space_wf.apart firstOwn secondOwn one two
      · exact absurd (space_wf.shared_path secondOwn two) (space_wf.foreign ⟨first, firstOwn, one⟩)
    · by_cases secondOwn : Own second
      · exact absurd (space_wf.shared_path firstOwn one) (space_wf.foreign ⟨second, secondOwn, two⟩)
      · exact kernel_wf.apart (space_wf.shared_path firstOwn one)
          (space_wf.shared_path secondOwn two)
  · intro frame member path found
    by_cases own : Own path
    · exact fresh frame member ⟨path, own, found⟩
    · exact kernel_wf.poolFresh frame member path (space_wf.shared_path own found)

/-! ### Spaces an operation does not touch -/

/-- The own tables of a space read as before. -/
def SameOwn (space : BitVec 64) (s later : Vmm.State) : Prop :=
  ∀ {t} i, OwnTable s space t → later.read t i = s.read t i

theorem SameOwn.tableAt (same : SameOwn space s later) {path : List (Fin 512)} (own : Own path) :
    later.tableAt space path = s.tableAt space path :=
  tableAt_congr Own.tail
    (fun along found => same _ ⟨_, along.tail, found⟩) own

theorem SameOwn.ownTable (same : SameOwn space s later) {t : BitVec 64} :
    OwnTable later space t ↔ OwnTable s space t := by
  refine exists_congr fun path => and_congr_right fun own => ?_
  rw [same.tableAt own]

/-- A space stays in order when its own tables are left alone and the kernel
only adds to its own. -/
theorem SpaceWf.keep (wf : SpaceWf kernel space s) (same : SameOwn space s later)
    (kept : ∀ i, has (s.read kernel i) present = true →
      has (s.read kernel i) huge = false →
        later.read kernel i = s.read kernel i)
    (foreign : ∀ {t path}, OwnTable s space t → later.tableAt kernel path ≠ some t) :
    SpaceWf kernel space later := by
  have root : ∀ i, later.read space i = s.read space i :=
    fun i => same i (ownTable_root s space)
  refine ⟨wf.masked, ?_, ?_, ?_, ?_⟩
  · intro i high mapped
    rw [root] at mapped ⊢
    have shared := wf.shares i high mapped
    rw [shared] at mapped
    rw [kept i mapped (shared ▸ wf.flat i (shared.symm ▸ mapped)), shared]
  · intro i mapped
    rw [root] at mapped ⊢
    exact wf.flat i mapped
  · intro first second t firstOwn secondOwn one two
    rw [same.tableAt firstOwn] at one
    rw [same.tableAt secondOwn] at two
    exact wf.apart firstOwn secondOwn one two
  · intro t path own
    exact foreign (same.ownTable.mp own)

/-! ### Where a walk ends -/

/-- The entry that maps an address, with its level: the translation of the
address and the flags of its leaf. -/
def leafOf (s : Vmm.State) (root virt : BitVec 64) : Option (Nat × BitVec 64) :=
  (stop child s.read root (indices virt 4)).filter fun leaf =>
    has leaf.2 present

/-- The user half of a space is as before when its own tables are. -/
theorem SameOwn.leafOf (same : SameOwn space s later) {virt : BitVec 64}
    (low : virt.toNat < 2 ^ 47) :
    leafOf later space virt = leafOf s space virt := by
  have own : Own (indices virt 4) := own_indices.mpr (index_user low)
  unfold Spaces.leafOf
  rw [stop_congr Own.tail (fun along found => same _ ⟨_, along.tail, found⟩) own]

/-- Where a space shares a slot with the kernel they agree on every address of
it. -/
theorem leafOf_shared {virt : BitVec 64}
    (same : s.read space (index virt 0) = s.read kernel (index virt 0)) :
    leafOf s space virt = leafOf s kernel virt := by
  obtain ⟨front, path⟩ : ∃ front, indices virt 4 = front ++ [index virt 0] :=
    List.getLast?_eq_some_iff.mp (getLast?_indices virt 3)
  rw [leafOf, leafOf, path, stop_shared same]

theorem walk_shared {virt : BitVec 64}
    (same : s.read space (index virt 0) = s.read kernel (index virt 0)) :
    walk s space virt = walk s kernel virt := by
  unfold walk
  rw [same]

/-- The leaf of an address says what it translates to. -/
theorem walk_leafOf {root : BitVec 64} (wf : Wf root s) (virt : BitVec 64) :
    walk s root virt = (leafOf s root virt).bind fun leaf => decode virt leaf.1 leaf.2 := by
  rw [wf.walk_translated, State.translated, leafOf]
  cases stop child s.read root (indices virt 4) with
  | none => rfl
  | some leaf =>
    rw [Option.bind_some]
    cases mapped : has leaf.2 present with
    | true => rw [Option.filter_some, if_pos mapped, Option.bind_some]
    | false =>
      rw [Option.filter_some, if_neg (ne_true_of_eq_false mapped), decode_absent mapped]
      rfl

theorem walk_congr {root : BitVec 64} (before : Wf root s) (after : Wf root later)
    {virt : BitVec 64} (same : leafOf later root virt = leafOf s root virt) :
    walk later root virt = walk s root virt := by
  rw [walk_leafOf before, walk_leafOf after, same]

end

end Eonos.Spaces
