import Eonos.Spaces.UserHalf

/-!
# Who owns which frame

Every frame on loan that the system knows of is in one place: in the hands of
a caller, a table of one space, mapped into one space, or a table of the
kernel.  The invariant says so, and that the records of each space are what its
tables show.
-/

namespace Eonos.Spaces

open Eonos.Vmm
open Eonos.Lib.TableTree

namespace System

def view (sys : System) : Vmm.State := sys.machine.view

/-- The frames of the callers and of the spaces. -/
def ledger (sys : System) : List (BitVec 64) :=
  sys.held ++ sys.spaces.flatMap fun space =>
    sys.tables space ++ sys.mapped space

end System

/-- The records of a space are what its tables show. -/
structure SpaceInv (sys : System) (space : BitVec 64) : Prop where
  wf : SpaceWf sys.kernel space sys.view
  hugeFree : HugeFree sys.view space
  tables : ∀ t, t ∈ sys.tables space ↔ OwnTable sys.view space t
  frames : ∀ f, f ∈ sys.mapped space ↔
    ∃ page, UserPage page ∧ walk sys.view space page = some f
  once : ∀ first second f, UserPage first → UserPage second →
    walk sys.view space first = some f → walk sys.view space second = some f →
      first = second
  agree : ∀ i : Fin 512, 256 ≤ i.val → sys.populated space i = true →
    has (sys.view.read space i) present = true ∧
      sys.view.read space i = sys.view.read sys.kernel i

structure Inv (sys : System) : Prop where
  sound : sys.machine.Sound
  kernel : Wf sys.kernel sys.view
  nodup : sys.spaces.Nodup
  ledger : sys.ledger.Nodup
  lent : ∀ f ∈ sys.ledger, sys.machine.Lent f
  kernelLent : ∀ path t, sys.view.tableAt sys.kernel path = some t →
    sys.machine.Lent t ∧ t ∉ sys.ledger
  space : ∀ space ∈ sys.spaces, SpaceInv sys space

section

variable {sys later : System} {space other : BitVec 64}

theorem System.mem_ledger (member : space ∈ sys.spaces) {f : BitVec 64}
    (inside : f ∈ sys.tables space ++ sys.mapped space) : f ∈ sys.ledger :=
  List.mem_append_right _ (List.mem_flatMap.mpr ⟨space, member, inside⟩)

variable {t kernel : BitVec 64} {s : Vmm.State}

theorem Inv.ownTable_mem (inv : Inv sys) (member : space ∈ sys.spaces)
    (own : OwnTable sys.view space t) : t ∈ sys.ledger :=
  System.mem_ledger member
    (List.mem_append_left _ (((inv.space space member).tables t).mpr own))

theorem Inv.ownTable_lent (inv : Inv sys) (member : space ∈ sys.spaces)
    (own : OwnTable sys.view space t) : sys.machine.Lent t :=
  inv.lent t (inv.ownTable_mem member own)

theorem Inv.fresh (inv : Inv sys) (member : space ∈ sys.spaces) :
    ∀ frame ∈ sys.view.pool, ¬ OwnTable sys.view space frame :=
  fun _ inPool own =>
    inv.sound.pool_not_lent inPool (inv.ownTable_lent member own)

/-- The whole tree of a space is well formed. -/
theorem Inv.wf (inv : Inv sys) (member : space ∈ sys.spaces) : Wf space sys.view :=
  (inv.space space member).wf.wf inv.kernel (inv.fresh member)

theorem Inv.disjoint (inv : Inv sys) (one : space ∈ sys.spaces) (two : other ∈ sys.spaces)
    (distinct : space ≠ other) {f : BitVec 64} (inside : f ∈ sys.tables space ++ sys.mapped space) :
    f ∉ sys.tables other ++ sys.mapped other := by
  have flat := (List.nodup_append.mp inv.ledger).2.1
  have apart := (List.nodup_flatMap.mp flat).2
  have symmetric : Std.Symm (Function.onFun List.Disjoint fun space =>
      sys.tables space ++ sys.mapped space) :=
    ⟨fun _ _ disjoint => disjoint.symm⟩
  exact fun again => apart.forall one two distinct inside again

theorem Inv.own_disjoint (inv : Inv sys) (one : space ∈ sys.spaces) (two : other ∈ sys.spaces)
    (distinct : space ≠ other) (own : OwnTable sys.view space t) : ¬ OwnTable sys.view other t := by
  intro again
  refine inv.disjoint one two distinct (List.mem_append_left _ (((inv.space space one).tables t).mpr
    own)) (List.mem_append_left _ (((inv.space other two).tables t).mpr again))

/-! ### Trees that are left alone -/

/-- The tables of the kernel read as before. -/
def SameKernel (kernel : BitVec 64) (s later : Vmm.State) : Prop :=
  ∀ path t i, s.tableAt kernel path = some t → later.read t i = s.read t i

theorem SameKernel.tableAt {s' : Vmm.State}
    (same : SameKernel kernel s s') (path : List (Fin 512)) :
    s'.tableAt kernel path = s.tableAt kernel path :=
  @tableAt_congr _ _ _ _ _ _ _ (fun _ => True) (fun _ => trivial)
    (fun _ found => same _ _ _ found) path trivial

theorem SameKernel.leafOf {s' : Vmm.State} (same : SameKernel kernel s s') (virt : BitVec 64) :
    leafOf s' kernel virt = leafOf s kernel virt := by
  unfold Spaces.leafOf
  rw [@stop_congr _ _ _ _ _ _ _ (fun _ => True) (fun _ => trivial)
    (fun _ found => same _ _ _ found) (indices virt 4) trivial]

/-- A tree whose tables read as before stays well formed while frames go on
loan or come back. -/
theorem SameKernel.wf {machine : Machine} (same : SameKernel kernel s machine.view)
    (wf : Wf kernel s) (sound : machine.Sound)
    (lent : ∀ path t, s.tableAt kernel path = some t → machine.Lent t) :
    Wf kernel machine.view := by
  refine ⟨wf.rootMasked, ?_, ?_, sound.pool_nodup,
    fun frame member => (sound.pool_spec member).1, ?_⟩
  · intro first second t one two
    have left := same.tableAt first
    have right := same.tableAt second
    exact wf.apart (left.symm.trans one) (right.symm.trans two)
  · intro i
    rw [same [] kernel i rfl]
    exact wf.topTables i
  · intro frame member path found
    rw [same.tableAt] at found
    exact sound.pool_not_lent member (lent path frame found)

/-- A space that an event does not concern. -/
theorem SpaceInv.keep (inv : SpaceInv sys space) (wf : Wf space sys.view)
    (kernel : later.kernel = sys.kernel) (laterWf : Wf sys.kernel later.view)
    (sound : later.machine.Sound) (same : SameOwn space sys.view later.view)
    (kept : ∀ i, has (sys.view.read sys.kernel i) present = true →
      later.view.read sys.kernel i = sys.view.read sys.kernel i)
    (foreign : ∀ t path, OwnTable sys.view space t → later.view.tableAt sys.kernel path ≠ some t)
    (lent : ∀ t ∈ sys.tables space, later.machine.Lent t)
    (populated : later.populated space = sys.populated space)
    (tables : later.tables space = sys.tables space)
    (mapped : later.mapped space = sys.mapped space) : SpaceInv later space := by
  have spaceWf : SpaceWf sys.kernel space later.view :=
    inv.wf.keep same (fun i mapped _ => kept i mapped) (fun own => foreign _ _ own)
  have fresh : ∀ frame ∈ later.view.pool, ¬ OwnTable later.view space frame := by
    intro frame member own
    exact sound.pool_not_lent member (lent frame ((inv.tables frame).mpr (same.ownTable.mp own)))
  have afterWf := spaceWf.wf laterWf fresh
  have walks : ∀ page, UserPage page → walk later.view space page = walk sys.view space page :=
    fun page user => walk_congr wf afterWf (same.leafOf user.1)
  refine ⟨kernel ▸ spaceWf, ?_, ?_, ?_, ?_, ?_⟩
  · intro path t i own short found mapped
    rw [same.tableAt own] at found
    rw [same i ⟨path, own, found⟩] at mapped ⊢
    exact inv.hugeFree path t i own short found mapped
  · intro t
    rw [tables, inv.tables, same.ownTable]
  · intro f
    rw [mapped, inv.frames]
    refine exists_congr fun page => and_congr_right fun user => ?_
    rw [walks page user]
  · intro first second f one two left right
    rw [walks first one] at left
    rw [walks second two] at right
    exact inv.once first second f one two left right
  · intro i high used
    rw [populated] at used
    obtain ⟨present, equal⟩ := inv.agree i high used
    rw [kernel, same i (ownTable_root _ _), kept i (equal ▸ present)]
    exact ⟨present, equal⟩

/-! ### Events that write no table -/

/-- Frames change hands or spaces disappear, and no table is written. -/
theorem Inv.quiet (inv : Inv sys) (kernel : later.kernel = sys.kernel)
    (spaces : later.spaces.Sublist sys.spaces) (populated : later.populated = sys.populated)
    (tables : later.tables = sys.tables) (mapped : later.mapped = sys.mapped)
    (sound : later.machine.Sound) (same : SameKernel sys.kernel sys.view later.view)
    (sameOwn : ∀ space ∈ later.spaces, SameOwn space sys.view later.view)
    (ledger : later.ledger.Nodup) (lent : ∀ f ∈ later.ledger, later.machine.Lent f)
    (kernelLent : ∀ path t, sys.view.tableAt sys.kernel path = some t →
      later.machine.Lent t ∧ t ∉ later.ledger) : Inv later := by
  have laterWf : Wf sys.kernel later.view :=
    same.wf inv.kernel sound fun path t found => (kernelLent path t found).1
  refine ⟨sound, kernel ▸ laterWf, spaces.nodup inv.nodup, ledger, lent, ?_, ?_⟩
  · intro path t found
    rw [kernel, same.tableAt] at found
    exact kernelLent path t found
  · intro space member
    have before := spaces.subset member
    refine (inv.space space before).keep (inv.wf before) kernel laterWf sound (sameOwn space member)
      (fun i _ => same [] _ i rfl) ?_ ?_ (congrFun populated space) (congrFun tables space)
      (congrFun mapped space)
    · intro t path own found
      rw [same.tableAt] at found
      exact (inv.space space before).wf.foreign own found
    · intro t inside
      refine lent t (System.mem_ledger member (List.mem_append_left _ ?_))
      rw [tables]
      exact inside

end

end Eonos.Spaces
