import Eonos.Lib.Placement
import Eonos.Sched.Machine

/-!
# Frames under the stacks

Every frame taken for a stack is under one page of one slot or in the hands of
the thread that builds or takes apart a stack, and nothing but those threads
changes what the pages of the slots are mapped to.
-/

namespace Eonos.Sched

open Eonos.Lib
open Eonos.Vmm (walk page indices Canonical SameElsewhere addrMask)

/-! ### Addresses of slots -/

section

variable {slot j slot' j' : Nat}

theorem slotPage_toNat (inside : slot < maxSlots) (within : j < slotPages) :
    (slotPage slot j).toNat = stackRegion + slot * slotSize + j * pageSize := by
  rw [slotPage, slotBase, BitVec.toNat_ofNat]
  refine Nat.mod_eq_of_lt ?_
  simp only [maxSlots, slotPages, stackRegion, slotSize, pageSize] at inside within ⊢
  omega

theorem slotPage_kernelHalf (inside : slot < maxSlots) (within : j < slotPages) :
    Spaces.KernelHalf (slotPage slot j) := by
  rw [Spaces.KernelHalf, slotPage_toNat inside within]
  simp only [stackRegion, slotSize, pageSize]
  omega

theorem slotPage_canonical (inside : slot < maxSlots) (within : j < slotPages) :
    Canonical (slotPage slot j) :=
  .inr (slotPage_kernelHalf inside within)

theorem slotPage_aligned (inside : slot < maxSlots) (within : j < slotPages) :
    slotPage slot j &&& 0xfff#64 = 0 := by
  apply BitVec.eq_of_toNat_eq
  rw [Vmm.offset4k_val, slotPage_toNat inside within]
  simp only [stackRegion, slotSize, pageSize, BitVec.ofNat_eq_ofNat, BitVec.toNat_ofNat]
  omega

theorem slotPage_page_inj (inside : slot < maxSlots) (within : j < slotPages)
    (inside' : slot' < maxSlots) (within' : j' < slotPages)
    (same : page (slotPage slot j) = page (slotPage slot' j')) : slot = slot' ∧ j = j' := by
  rw [page, page, slotPage_toNat inside within, slotPage_toNat inside' within'] at same
  simp only [slotPages, stackRegion, slotSize, pageSize] at within within' same
  omega

theorem slotPage_page_ne {virt : BitVec 64} (inside : slot < maxSlots) (within : j < slotPages)
    (outside : ¬ InRegion virt) : page (slotPage slot j) ≠ page virt := by
  rw [page, page, slotPage_toNat inside within]
  simp only [InRegion, maxSlots, slotPages, stackRegion, slotSize, pageSize]
    at inside within outside ⊢
  omega

end

/-! ### Tables of the kernel -/

/-- No table of the kernel goes away. -/
def KeepsTables (sys later : Spaces.System) : Prop :=
  ∀ path t, sys.view.tableAt sys.kernel path = some t →
    later.view.tableAt later.kernel path = some t

theorem KeepsTables.refl (sys : Spaces.System) : KeepsTables sys sys :=
  fun _ _ found => found

theorem KeepsTables.onKernel {sys : Spaces.System} {virt : BitVec 64} {s : Vmm.State}
    (inv : Spaces.Inv sys) (descends : Vmm.Descends sys.kernel virt 4 sys.view s) :
    (sys.onKernel s).view = s ∧ KeepsTables sys (sys.onKernel s) := by
  obtain ⟨used, taken, -, -⟩ := descends.taken
  have view : (sys.onKernel s).view = s := (inv.sound.after taken).2.1
  refine ⟨view, fun path t found => ?_⟩
  rw [view]
  exact descends.tables found

/-! ### Changing one page of a slot -/

/-- Only page `j` of `slot` is mapped differently, to `now`. -/
structure Rewires (sys later : Spaces.System) (slot j : Nat)
    (now : Option (BitVec 64)) : Prop where
  inv : Spaces.Inv later
  kernel : later.kernel = sys.kernel
  tables : KeepsTables sys later
  reached : now.isSome → ∃ pt,
    later.view.tableAt later.kernel (indices (slotPage slot j) 3) = some pt
  held : later.held = sys.held
  spaces : later.spaces = sys.spaces
  here : walk later.view later.kernel (slotPage slot j) = now
  others : ∀ slot' < maxSlots, ∀ j' < slotPages, ¬ (slot' = slot ∧ j' = j) →
    walk later.view later.kernel (slotPage slot' j') =
      walk sys.view sys.kernel (slotPage slot' j')

section

variable {m later : Machine} {slot j : Nat} {frame : BitVec 64}

theorem slots_elsewhere {sys : Spaces.System} {s : Vmm.State}
    (same : SameElsewhere sys.kernel (slotPage slot j) sys.view s)
    (inside : slot < maxSlots) (within : j < slotPages) :
    ∀ slot' < maxSlots, ∀ j' < slotPages, ¬ (slot' = slot ∧ j' = j) →
      walk s sys.kernel (slotPage slot' j') =
        walk sys.view sys.kernel (slotPage slot' j') := by
  intro slot' inside' j' within' apart
  refine same _ (slotPage_canonical inside' within') fun equal => apart ?_
  exact slotPage_page_inj inside' within' inside within equal

theorem mapSlot_rewires (inv : Spaces.Inv m.sys) (inside : slot < maxSlots) (within : j < slotPages)
    (masked : frame &&& addrMask = frame) (result : m.mapSlot slot j frame = some later) :
    ∃ sys, later = { m with sys } ∧ Rewires m.sys sys slot j (some frame) := by
  obtain ⟨s, mapped, rfl⟩ := Option.map_eq_some_iff.mp result
  have descends := Vmm.map4k_descends inv.kernel mapped
  obtain ⟨view, tables⟩ := KeepsTables.onKernel inv descends
  obtain ⟨here, elsewhere⟩ := Vmm.map4k_effect inv.kernel (slotPage_canonical inside within)
    (slotPage_aligned inside within) masked (by decide) mapped
  refine ⟨_, rfl, inv.onKernel descends, rfl, tables, ?_, rfl, rfl, ?_, ?_⟩
  · intro _
    obtain ⟨middle, pt, opens, rfl⟩ := Vmm.map4k_opens inv.kernel mapped
    refine ⟨pt, ?_⟩
    rw [view]
    exact (Spaces.writeLeaf_tables opens.grows.wf opens.reached _ _).trans opens.reached
  · have start := here 0 (by decide)
    rw [view]
    rwa [BitVec.add_zero, BitVec.add_zero] at start
  · rw [view]
    exact slots_elsewhere elsewhere inside within

theorem unmapSlot_rewires (inv : Spaces.Inv m.sys) (inside : slot < maxSlots)
    (within : j < slotPages) {taken : Option (BitVec 64)}
    (result : m.unmapSlot slot j = some (taken, later)) :
    taken = m.pageAt slot j ∧ ∃ sys, later = { m with sys } ∧ Rewires m.sys sys slot j none := by
  obtain ⟨⟨found, s⟩, unmapped, same⟩ := Option.map_eq_some_iff.mp result
  cases same
  have descends := Vmm.unmapPage_descends inv.kernel unmapped
  obtain ⟨view, tables⟩ := KeepsTables.onKernel inv descends
  obtain ⟨was, gone, elsewhere, -⟩ := Vmm.unmapPage_effect inv.kernel (slotPage_canonical inside
    within) (slotPage_aligned inside within) unmapped
  refine ⟨was, _, rfl, inv.onKernel descends, rfl, tables,
    fun mapped => absurd mapped (by simp), rfl, rfl, ?_, ?_⟩
  · have start := gone 0 (by decide)
    rw [view]
    rwa [BitVec.add_zero] at start
  · rw [view]
    exact slots_elsewhere elsewhere inside within

end

/-! ### Other events -/

section

variable {sys later : Spaces.System} {event : Spaces.Event}

theorem walk_kernel_kept (inv : Spaces.Inv sys) (result : sys.perform event = some later)
    (kind : event.onKernel = false) (virt : BitVec 64) :
    walk later.view later.kernel virt = walk sys.view sys.kernel virt := by
  have leaves := inv.perform_leaves result
  have after := (inv.perform result).kernel
  rw [leaves.kernel] at after ⊢
  exact Spaces.walk_congr inv.kernel after ((leaves.shared kind).1.leafOf virt)

theorem keepsTables_perform (inv : Spaces.Inv sys)
    (result : sys.perform event = some later) : KeepsTables sys later := by
  have leaves := inv.perform_leaves result
  cases kind : event.onKernel with
  | false =>
    intro path t found
    rw [leaves.kernel, (leaves.shared kind).1.tableAt]
    exact found
  | true =>
    cases event with
    | mapPage virt phys flags =>
      obtain ⟨-, result⟩ := Option.ite_none_right_eq_some.mp result
      obtain ⟨s, mapped, rfl⟩ := Option.map_eq_some_iff.mp result
      exact (KeepsTables.onKernel inv (Vmm.map4k_descends inv.kernel mapped)).2
    | unmapPage virt =>
      obtain ⟨-, result⟩ := Option.ite_none_right_eq_some.mp result
      obtain ⟨⟨frame, s⟩, unmapped, rfl⟩ :=
        Option.map_eq_some_iff.mp result
      exact (KeepsTables.onKernel inv (Vmm.unmapPage_descends inv.kernel unmapped)).2
    | protectPage virt flags =>
      obtain ⟨-, result⟩ := Option.ite_none_right_eq_some.mp result
      obtain ⟨⟨done, s⟩, changed, rfl⟩ := Option.map_eq_some_iff.mp result
      exact (KeepsTables.onKernel inv (Vmm.protectPage_descends inv.kernel changed)).2
    | _ => cases kind

/-- Other code leaves the pages of the slots alone. -/
theorem Machine.Spares.pages {m : Machine} (spares : m.Spares event)
    (inv : Spaces.Inv m.sys) (result : m.sys.perform event = some later) :
    ∀ slot < maxSlots, ∀ j < slotPages,
      walk later.view later.kernel (slotPage slot j) = m.pageAt slot j := by
  intro slot inside j within
  have canonical := slotPage_canonical inside within
  cases kind : event.onKernel with
  | false => exact walk_kernel_kept inv result kind _
  | true =>
    cases event with
    | mapPage virt phys flags =>
      obtain ⟨high, result⟩ := Option.ite_none_right_eq_some.mp result
      obtain ⟨s, mapped, rfl⟩ := Option.map_eq_some_iff.mp result
      rw [(KeepsTables.onKernel inv (Vmm.map4k_descends inv.kernel mapped)).1]
      exact Vmm.map4k_elsewhere inv.kernel (.inr high) mapped _ canonical
        (slotPage_page_ne inside within spares)
    | unmapPage virt =>
      obtain ⟨high, result⟩ := Option.ite_none_right_eq_some.mp result
      obtain ⟨⟨frame, s⟩, unmapped, rfl⟩ :=
        Option.map_eq_some_iff.mp result
      rw [(KeepsTables.onKernel inv (Vmm.unmapPage_descends inv.kernel unmapped)).1]
      exact Vmm.unmapPage_elsewhere inv.kernel (.inr high) unmapped _
        canonical (slotPage_page_ne inside within spares)
    | protectPage virt flags =>
      obtain ⟨high, result⟩ := Option.ite_none_right_eq_some.mp result
      obtain ⟨⟨done, s⟩, changed, rfl⟩ := Option.map_eq_some_iff.mp result
      rw [(KeepsTables.onKernel inv (Vmm.protectPage_descends inv.kernel changed)).1]
      rcases Vmm.protectPage_cases changed with rfl | ⟨allowed, changed⟩
      · rfl
      · exact (Vmm.protectLeaf_effect inv.kernel (Vmm.kernelFlags_clear allowed) changed).1 _
    | _ => cases kind

/-- Other code leaves the frames of stacks with the scheduler. -/
theorem Machine.Spares.held {m : Machine} (spares : m.Spares event)
    (inv : Spaces.Inv m.sys) (result : m.sys.perform event = some later)
    (held : m.frames ⊆ m.sys.held) : m.frames ⊆ later.held := by
  cases event with
  | create =>
    cases result
    unfold Spaces.System.create
    cases m.sys.machine.createAddressSpace m.sys.kernel with
    | none => exact held
    | some made => exact held
  | map space virt phys flags =>
    obtain ⟨-, result⟩ := Option.ite_none_right_eq_some.mp result
    obtain ⟨s, -, rfl⟩ := Option.map_eq_some_iff.mp result
    intro frame ours
    refine (List.mem_erase_of_ne ?_).mpr (held ours)
    rintro rfl
    exact spares ours
  | unmap space virt =>
    obtain ⟨-, result⟩ := Option.ite_none_right_eq_some.mp result
    obtain ⟨found, -, rfl⟩ := Option.map_eq_some_iff.mp result
    exact fun frame ours => List.mem_append_right _ (held ours)
  | protect space virt flags =>
    obtain ⟨-, result⟩ := Option.ite_none_right_eq_some.mp result
    obtain ⟨found, -, rfl⟩ := Option.map_eq_some_iff.mp result
    exact held
  | drop space =>
    obtain ⟨-, result⟩ := Option.ite_none_right_eq_some.mp result
    rw [← Option.some.inj result, Spaces.System.dropSpace]
    exact held
  | mapPage virt phys flags =>
    obtain ⟨-, result⟩ := Option.ite_none_right_eq_some.mp result
    obtain ⟨s, -, rfl⟩ := Option.map_eq_some_iff.mp result
    exact held
  | unmapPage virt | protectPage virt flags =>
    obtain ⟨-, result⟩ := Option.ite_none_right_eq_some.mp result
    obtain ⟨found, -, rfl⟩ := Option.map_eq_some_iff.mp result
    exact held
  | alloc =>
    cases result
    rcases inv.alloc_cases with same | ⟨frames, machine, -, receives⟩
    · rwa [same]
    · rw [receives]
      exact fun frame ours => List.mem_append_right _ (held ours)
  | allocContiguous count =>
    cases result
    rcases inv.allocContiguous_cases count with
      same | ⟨frames, machine, -, receives⟩
    · rwa [same]
    · rw [receives]
      exact fun frame ours => List.mem_append_right _ (held ours)
  | reclaim =>
    obtain ⟨-, result⟩ := Option.ite_none_right_eq_some.mp result
    cases result
    exact held
  | free phys =>
    obtain ⟨-, result⟩ := Option.ite_none_right_eq_some.mp result
    cases result
    intro frame ours
    refine (List.mem_erase_of_ne ?_).mpr (held ours)
    rintro rfl
    exact spares ours
  | store frame bytes =>
    obtain ⟨-, result⟩ := Option.ite_none_right_eq_some.mp result
    cases result
    exact held

/-- Other code ends no address space a thread was given. -/
theorem Machine.Spares.given {m : Machine} (spares : m.Spares event)
    (inv : Spaces.Inv m.sys) (result : m.sys.perform event = some later)
    (alive : m.given ⊆ m.sys.spaces) : m.given ⊆ later.spaces := by
  intro space ours
  by_cases concerns : event.Concerns space
  case neg => exact ((inv.perform_leaves result).others space (alive ours) concerns).1
  cases event with
  | map target virt phys flags =>
    obtain ⟨-, result⟩ := Option.ite_none_right_eq_some.mp result
    obtain ⟨s, -, rfl⟩ := Option.map_eq_some_iff.mp result
    exact alive ours
  | unmap target virt | protect target virt flags =>
    obtain ⟨-, result⟩ := Option.ite_none_right_eq_some.mp result
    obtain ⟨found, -, rfl⟩ := Option.map_eq_some_iff.mp result
    exact alive ours
  | drop target =>
    cases concerns
    exact absurd ours spares
  | _ => cases concerns

end

/-! ### Where the frames are -/

/-- Under a page of a slot, or with a thread inside `create_thread`. -/
inductive FramePlace where
  | page (slot : Fin maxSlots) (j : Fin slotPages)
  | hand (owner : Nat)
deriving DecidableEq

def Stage.frame : Stage → Option (BitVec 64)
  | .holding _ frame => some frame
  | .freeing _ _ frame => some frame
  | .mapping _ => none
  | .undoing _ _ => none

namespace Machine

def handFrame (m : Machine) (owner : Nat) : Option (BitVec 64) :=
  if (m.kernel.doing owner).slot.isSome then (m.stage owner).frame else none

def stackFrames (m : Machine) : FramePlace → List (BitVec 64)
  | .page slot j => (m.pageAt slot j).toList
  | .hand owner => (m.handFrame owner).toList

/-- The frames taken for stacks are where they should be, and the pages of the
slots that are mapped are the covered ones. -/
structure Stacked (m : Machine) (covered : Nat → Nat → Prop) : Prop where
  memory : Spaces.Inv m.sys
  held : m.frames ⊆ m.sys.held
  nodup : m.frames.Nodup
  placed : Placed m.stackFrames (· ∈ m.frames)
  pages : ∀ (slot : Fin maxSlots) (j : Fin slotPages),
    (m.pageAt slot j).isSome ↔ covered slot j
  /-- The pages are small ones. -/
  tabled : ∀ (slot : Fin maxSlots) (j : Fin slotPages), covered slot j →
    ∃ pt, m.sys.view.tableAt m.sys.kernel (indices (slotPage slot j) 3) =
      some pt

section

variable {m later : Machine} {covered now : Nat → Nat → Prop}

theorem Stacked.lent (stacked : m.Stacked covered) {frame : BitVec 64}
    (ours : frame ∈ m.frames) : m.sys.machine.Lent frame :=
  stacked.memory.lent frame (List.mem_append_left _ (stacked.held ours))

theorem Stacked.tabled_later (stacked : m.Stacked covered) (tables : KeepsTables m.sys later.sys)
    (old : ∀ (slot : Fin maxSlots) (j : Fin slotPages), now slot j → covered slot j) :
    ∀ (slot : Fin maxSlots) (j : Fin slotPages), now slot j →
      ∃ pt, later.sys.view.tableAt later.sys.kernel
        (indices (slotPage slot j) 3) = some pt := by
  intro slot j mapped
  obtain ⟨pt, found⟩ := stacked.tabled slot j (old slot j mapped)
  exact ⟨pt, tables _ _ found⟩

theorem Stacked.congr (stacked : m.Stacked covered) (memory : Spaces.Inv later.sys)
    (frames : later.frames = m.frames) (held : m.frames ⊆ later.sys.held)
    (tables : KeepsTables m.sys later.sys)
    (pages : ∀ (slot : Fin maxSlots) (j : Fin slotPages), later.pageAt slot j = m.pageAt slot j)
    (hands : ∀ owner, later.handFrame owner = m.handFrame owner)
    (same : ∀ (slot : Fin maxSlots) (j : Fin slotPages), now slot j ↔ covered slot j) :
    later.Stacked now := by
  have contents : later.stackFrames = m.stackFrames := by
    funext place
    cases place with
    | page slot j => exact congrArg Option.toList (pages slot j)
    | hand owner => exact congrArg Option.toList (hands owner)
  refine ⟨memory, frames ▸ held, frames ▸ stacked.nodup, ?_, ?_, ?_⟩
  · rw [contents, frames]
    exact stacked.placed
  · intro slot j
    rw [pages, same]
    exact stacked.pages slot j
  · exact stacked.tabled_later tables fun slot j => (same slot j).mp

/-- A section that does nothing to memory. -/
theorem Stacked.still (stacked : m.Stacked covered) (sys : later.sys = m.sys)
    (frames : later.frames = m.frames) (hands : ∀ owner, later.handFrame owner = m.handFrame owner)
    (same : ∀ (slot : Fin maxSlots) (j : Fin slotPages), now slot j ↔ covered slot j) :
    later.Stacked now := by
  refine stacked.congr (sys ▸ stacked.memory) frames (sys ▸ stacked.held)
    (sys ▸ .refl _) (fun slot j => ?_) hands same
  rw [pageAt, sys]
  rfl

/-- A thread inside `create_thread` takes a frame. -/
theorem Stacked.take (stacked : m.Stacked covered) {owner : Nat} {frame : BitVec 64}
    {rest : Spaces.Machine} (granted : m.sys.machine.allocFrame = some (frame, rest))
    (sys : later.sys = m.sys.alloc) (frames : later.frames = frame :: m.frames)
    (empty : m.handFrame owner = none) (hand : later.handFrame owner = some frame)
    (others : ∀ other ≠ owner, later.handFrame other = m.handFrame other)
    (same : ∀ (slot : Fin maxSlots) (j : Fin slotPages), now slot j ↔ covered slot j) :
    later.Stacked now := by
  have lends := stacked.memory.sound.allocFrame_lends granted
  have alloc : m.sys.alloc = { m.sys with machine := rest, held := frame :: m.sys.held } := by
    rw [Spaces.System.alloc, granted]
    rfl
  have fresh : frame ∉ m.frames := fun ours =>
    lends.fresh frame (List.mem_singleton.mpr rfl) (stacked.lent ours)
  have pages : ∀ slot j : Nat, later.pageAt slot j = m.pageAt slot j := by
    intro slot j
    rw [pageAt, sys]
    exact walk_kernel_kept stacked.memory
      (show m.sys.perform .alloc = some m.sys.alloc from rfl) rfl _
  refine ⟨?_, ?_, ?_, ?_, ?_, ?_⟩
  · rw [sys]
    exact stacked.memory.perform (show m.sys.perform .alloc = some m.sys.alloc from rfl)
  · rw [frames, sys, alloc]
    exact List.cons_subset_cons frame stacked.held
  · rw [frames]
    exact List.nodup_cons.mpr ⟨fresh, stacked.nodup⟩
  · refine stacked.placed.add (.hand owner) frame fresh ?_ ?_ ?_
    · intro other
      rw [frames, List.mem_cons]
    · simp [stackFrames, hand, empty]
    · intro place apart
      cases place with
      | page slot j => exact congrArg Option.toList (pages slot j)
      | hand other =>
        refine congrArg Option.toList (others other ?_)
        rintro rfl
        exact apart rfl
  · intro slot j
    rw [pages, same]
    exact stacked.pages slot j
  · refine stacked.tabled_later ?_ fun slot j => (same slot j).mp
    rw [sys]
    exact keepsTables_perform stacked.memory (show m.sys.perform .alloc = some m.sys.alloc from rfl)

theorem Stacked.pages_after (stacked : m.Stacked covered) {slot j : Nat} {page : Option (BitVec 64)}
    (rewires : Rewires m.sys later.sys slot j page)
    (same : ∀ (slot' : Fin maxSlots) (j' : Fin slotPages),
      now slot' j' ↔
        if slot'.val = slot ∧ j'.val = j then page.isSome = true
          else covered slot' j') :
    ∀ (slot' : Fin maxSlots) (j' : Fin slotPages),
      (later.pageAt slot' j').isSome ↔ now slot' j' := by
  intro slot' j'
  rw [same]
  by_cases here : slot'.val = slot ∧ j'.val = j
  · obtain ⟨rfl, rfl⟩ := here
    rw [if_pos ⟨rfl, rfl⟩, pageAt, rewires.here]
  · rw [if_neg here, pageAt, rewires.others _ slot'.isLt _ j'.isLt here]
    exact stacked.pages slot' j'

theorem others_after {slot : Fin maxSlots} {j : Fin slotPages} {owner : Nat}
    {page : Option (BitVec 64)} (rewires : Rewires m.sys later.sys slot j page)
    (others : ∀ other ≠ owner, later.handFrame other = m.handFrame other) :
    ∀ place, place ≠ .hand owner → place ≠ .page slot j →
      later.stackFrames place = m.stackFrames place := by
  intro place notHand notPage
  cases place with
  | page slot' j' =>
    refine congrArg Option.toList (rewires.others _ slot'.isLt _ j'.isLt ?_)
    rintro ⟨sameSlot, samePage⟩
    exact notPage (by rw [Fin.ext sameSlot, Fin.ext samePage])
  | hand other =>
    refine congrArg Option.toList (others other ?_)
    rintro rfl
    exact notHand rfl

theorem Stacked.map (stacked : m.Stacked covered) {slot : Fin maxSlots} {j : Fin slotPages}
    {owner : Nat} {frame : BitVec 64} (rewires : Rewires m.sys later.sys slot j (some frame))
    (frames : later.frames = m.frames) (absent : ¬ covered slot j)
    (hand : m.handFrame owner = some frame) (empty : later.handFrame owner = none)
    (others : ∀ other ≠ owner, later.handFrame other = m.handFrame other)
    (same : ∀ (slot' : Fin maxSlots) (j' : Fin slotPages),
      now slot' j' ↔ slot' = slot ∧ j' = j ∨ covered slot' j') : later.Stacked now := by
  have unmapped : m.pageAt slot j = none := by
    rw [← Option.not_isSome_iff_eq_none, stacked.pages]
    exact absent
  have mapped : later.pageAt slot j = some frame := rewires.here
  refine ⟨rewires.inv, ?_, frames ▸ stacked.nodup, ?_, stacked.pages_after rewires ?_, ?_⟩
  · rw [frames, rewires.held]
    exact stacked.held
  · rw [frames]
    refine @Placed.move _ _ _ _ _ stacked.placed (.hand owner)
      (.page slot j) [frame] (by simp) ?_ ?_ (others_after rewires others)
    · simp [stackFrames, hand, empty]
    · simp [stackFrames, unmapped, mapped]
  · intro slot' j'
    rw [same, Fin.ext_iff, Fin.ext_iff]
    split
    case isTrue here => simp [here]
    case isFalse apart => simp [apart]
  · intro slot' j' nowMapped
    rcases (same slot' j').mp nowMapped with ⟨rfl, rfl⟩ | old
    · exact rewires.reached rfl
    · exact stacked.tabled_later rewires.tables (fun _ _ => id) slot' j' old

/-- The frame under a page goes into a thread's hands. -/
theorem Stacked.unmap (stacked : m.Stacked covered) {slot : Fin maxSlots} {j : Fin slotPages}
    {owner : Nat} {frame : BitVec 64} (rewires : Rewires m.sys later.sys slot j none)
    (frames : later.frames = m.frames) (found : m.pageAt slot j = some frame)
    (empty : m.handFrame owner = none) (hand : later.handFrame owner = some frame)
    (others : ∀ other ≠ owner, later.handFrame other = m.handFrame other)
    (same : ∀ (slot' : Fin maxSlots) (j' : Fin slotPages),
      now slot' j' ↔ ¬ (slot' = slot ∧ j' = j) ∧ covered slot' j') : later.Stacked now := by
  have unmapped : later.pageAt slot j = none := rewires.here
  refine ⟨rewires.inv, ?_, frames ▸ stacked.nodup, ?_, stacked.pages_after rewires ?_,
    stacked.tabled_later rewires.tables fun slot' j' mapped => ((same slot' j').mp mapped).2⟩
  · rw [frames, rewires.held]
    exact stacked.held
  · rw [frames]
    refine @Placed.move _ _ _ _ _ stacked.placed (.page slot j)
      (.hand owner) [frame] (by simp) ?_ ?_ ?_
    · simp [stackFrames, found, unmapped]
    · simp [stackFrames, hand, empty]
    · intro place notPage notHand
      exact others_after rewires others place notHand notPage
  · intro slot' j'
    rw [same, Fin.ext_iff, Fin.ext_iff]
    split
    case isTrue here => simp [here]
    case isFalse apart => simp [apart]

theorem freeFrame_memory {frame : BitVec 64} (inv : Spaces.Inv m.sys) (held : m.frames ⊆ m.sys.held)
    (nodup : m.frames.Nodup) (ours : frame ∈ m.frames) :
    Spaces.Inv (m.freeFrame frame).sys ∧
      (m.freeFrame frame).frames ⊆ (m.freeFrame frame).sys.held ∧
      KeepsTables m.sys (m.freeFrame frame).sys ∧
      ∀ slot j : Nat, (m.freeFrame frame).pageAt slot j = m.pageAt slot j := by
  have performed : m.sys.perform (.free frame) = some (m.sys.free frame) :=
    if_pos (held ours)
  refine ⟨inv.perform performed, ?_, keepsTables_perform inv performed,
    fun slot j => walk_kernel_kept inv performed rfl _⟩
  intro other member
  obtain ⟨distinct, old⟩ := nodup.mem_erase_iff.mp member
  exact (List.mem_erase_of_ne distinct).mpr (held old)

theorem Stacked.free (stacked : m.Stacked covered) {owner : Nat} {frame : BitVec 64}
    (sys : later.sys = (m.freeFrame frame).sys) (frames : later.frames = m.frames.erase frame)
    (hand : m.handFrame owner = some frame) (empty : later.handFrame owner = none)
    (others : ∀ other ≠ owner, later.handFrame other = m.handFrame other)
    (same : ∀ (slot : Fin maxSlots) (j : Fin slotPages), now slot j ↔ covered slot j) :
    later.Stacked now := by
  have ours : frame ∈ m.frames :=
    @Placed.live_of_mem _ _ _ _ stacked.placed (.hand owner) _ (by simp [stackFrames, hand])
  obtain ⟨inv, held, tables, pages⟩ :=
    freeFrame_memory stacked.memory stacked.held stacked.nodup ours
  have kept : ∀ slot j : Nat, later.pageAt slot j = m.pageAt slot j := by
    intro slot j
    rw [← pages, pageAt, pageAt, sys]
  refine ⟨sys ▸ inv, ?_, frames ▸ stacked.nodup.erase _, ?_, ?_,
    stacked.tabled_later (sys ▸ tables) fun slot j => (same slot j).mp⟩
  · rw [frames, sys]
    exact held
  · refine @Placed.clear _ _ _ _ _ stacked.placed (.hand owner) _ ?_ ?_ ?_
    · intro other
      rw [frames, stacked.nodup.mem_erase_iff]
      simp [stackFrames, hand, and_comm]
    · simp [stackFrames, empty]
    · intro place apart
      cases place with
      | page slot j => exact congrArg Option.toList (kept slot j)
      | hand other =>
        refine congrArg Option.toList (others other ?_)
        rintro rfl
        exact apart rfl
  · intro slot j
    rw [kept, same]
    exact stacked.pages slot j

/-- Unmapping a page of a stack takes no frame, so it always succeeds. -/
theorem Stacked.reapPage_total (stacked : m.Stacked covered) {slot : Fin maxSlots} {i : Nat}
    (within : 1 + i < slotPages) (mapped : covered slot (1 + i)) :
    ∃ later, Machine.reapPage slot m i = some later := by
  obtain ⟨pt, found⟩ := stacked.tabled slot ⟨1 + i, within⟩ mapped
  obtain ⟨frame, s, unmapped⟩ := Vmm.unmapPage_of_table found
  exact ⟨_, Option.map_eq_some_iff.mpr ⟨_, Option.map_eq_some_iff.mpr ⟨_, unmapped, rfl⟩, rfl⟩⟩

/-- A page of a dead thread's stack is unmapped and its frame freed. -/
theorem Stacked.reapPage (stacked : m.Stacked covered) {slot : Fin maxSlots} {i : Nat}
    (within : 1 + i < slotPages) (result : Machine.reapPage slot m i = some later)
    (same : ∀ (slot' : Fin maxSlots) (j' : Fin slotPages),
      now slot' j' ↔ ¬ (slot' = slot ∧ j'.val = 1 + i) ∧ covered slot' j') : later.Stacked now := by
  obtain ⟨⟨taken, unmapped⟩, found, rfl⟩ := Option.map_eq_some_iff.mp result
  obtain ⟨was, sys, rfl, rewires⟩ :=
    unmapSlot_rewires stacked.memory slot.isLt within found
  have pages : ∀ (slot' : Fin maxSlots) (j' : Fin slotPages),
      (({ m with sys } : Machine).pageAt slot' j').isSome ↔ now slot' j' := by
    refine @Stacked.pages_after m { m with sys } _ _ stacked _ _ _ rewires ?_
    intro slot' j'
    rw [same, Fin.ext_iff]
    split
    case isTrue here => simp [here]
    case isFalse apart => simp [apart]
  have others : ∀ place, place ≠ .page slot ⟨1 + i, within⟩ →
      ({ m with sys } : Machine).stackFrames place = m.stackFrames place := by
    intro place apart
    cases place with
    | page slot' j' =>
      refine congrArg Option.toList (rewires.others _ slot'.isLt _ j'.isLt ?_)
      rintro ⟨sameSlot, samePage⟩
      refine apart (congrArg₂ FramePlace.page (Fin.ext sameSlot) ?_)
      exact Fin.ext samePage
    | hand other => rfl
  have gone : ({ m with sys } : Machine).pageAt slot (1 + i) = none :=
    rewires.here
  cases taken with
  | none =>
    refine ⟨rewires.inv, ?_, stacked.nodup, ?_, pages, stacked.tabled_later rewires.tables fun slot'
      j' mapped => ((same slot' j').mp mapped).2⟩
    · rw [rewires.held]
      exact stacked.held
    convert stacked.placed using 1
    funext place
    by_cases here : place = .page slot ⟨1 + i, within⟩
    · subst here
      simp only [stackFrames, gone, ← was]
    · exact others place here
  | some frame =>
    have ours : frame ∈ m.frames :=
      @Placed.live_of_mem _ _ _ _ stacked.placed
        (.page slot ⟨1 + i, within⟩) _ (by simp [stackFrames, ← was])
    obtain ⟨inv, held, tables, kept⟩ := freeFrame_memory (show Spaces.Inv ({ m with sys } :
      Machine).sys from rewires.inv) (fun frame ours => rewires.held ▸ stacked.held ours)
      stacked.nodup ours
    refine ⟨inv, held, stacked.nodup.erase _, ?_, fun slot' j' => ?_,
      stacked.tabled_later (fun _ _ found => tables _ _ (rewires.tables _ _ found))
        fun slot' j' mapped => ((same slot' j').mp mapped).2⟩
    · refine @Placed.clear _ _ _ _ _ stacked.placed (.page slot ⟨1 + i, within⟩) _ ?_ ?_ ?_
      · intro other
        refine stacked.nodup.mem_erase_iff.trans ?_
        simp [stackFrames, ← was, and_comm]
      · refine congrArg Option.toList ((kept slot (1 + i)).trans gone)
      · intro place apart
        refine Eq.trans ?_ (others place apart)
        cases place with
        | page slot' j' => exact congrArg Option.toList (kept slot' j')
        | hand other => rfl
    · rw [kept]
      exact pages slot' j'

end

end Machine

end Eonos.Sched
