import Eonos.Spaces.Runs

/-!
# Isolation

What an event on one space leaves alone: the user half of every other space and
the kernel half everywhere.
-/

namespace Eonos.Spaces

open Eonos.Vmm
open Eonos.Lib.TableTree

/-- The events on the tables of `space`. -/
def Event.Concerns (event : Event) (space : BitVec 64) : Prop :=
  match event with
  | .map target _ _ _ => target = space
  | .unmap target _ => target = space
  | .protect target _ _ => target = space
  | .drop target => target = space
  | _ => False

instance (event : Event) (space : BitVec 64) :
    Decidable (event.Concerns space) :=
  match event with
  | .map target _ _ _ | .unmap target _ | .protect target _ _
  | .drop target => inferInstanceAs (Decidable (target = space))
  | .create | .mapPage _ _ _ | .unmapPage _ | .protectPage _ _ | .alloc
  | .allocContiguous _ | .reclaim | .free _ | .store _ _ =>
    inferInstanceAs (Decidable False)

/-- The events on the kernel's tables. -/
def Event.onKernel : Event → Bool
  | .mapPage _ _ _ | .unmapPage _ | .protectPage _ _ => true
  | _ => false

/-- `virt` translates as before in the tables of `root`, through the same leaf
entry. -/
def SameAt (sys later : System) (root virt : BitVec 64) : Prop :=
  AddressSpace.translate later.view root virt =
      AddressSpace.translate sys.view root virt ∧
    leafOf later.view root virt = leafOf sys.view root virt

section

variable {sys later : System} {space virt : BitVec 64}

/-- An address of the kernel half in a space: either its slot is the kernel's
or nothing is there. -/
theorem leafOf_upper {kernel : BitVec 64} {s s' : Vmm.State} (before : SpaceWf kernel space s)
    (after : SpaceWf kernel space s') (high : KernelHalf virt)
    (root : s'.read space (index virt 0) = s.read space (index virt 0))
    (same : leafOf s' kernel virt = leafOf s kernel virt) :
    leafOf s' space virt = leafOf s space virt := by
  have slot := index_kernelHalf high
  cases mapped : has (s.read space (index virt 0)) present with
  | true =>
    rw [leafOf_shared (before.shares _ slot mapped),
      leafOf_shared (after.shares _ slot (root ▸ mapped)), same]
  | false =>
    have top : ∀ state : Vmm.State,
        state.tableAt space (indices virt 0) = some space := fun _ => rfl
    rw [leafOf_absent (by omega) (top s) mapped, leafOf_absent (by omega) (top s') (root ▸ mapped)]

theorem sameAt_of_leafOf {root : BitVec 64} (before : Wf root sys.view) (after : Wf root later.view)
    (same : leafOf later.view root virt = leafOf sys.view root virt) : SameAt sys later root virt :=
  ⟨walk_congr before after same, same⟩

/-- Which tables an event does not write to. -/
structure Leaves (event : Event) (sys later : System) : Prop where
  kernel : later.kernel = sys.kernel
  others : ∀ other ∈ sys.spaces, ¬ event.Concerns other →
    other ∈ later.spaces ∧ SameOwn other sys.view later.view
  shared : event.onKernel = false →
    SameKernel sys.kernel sys.view later.view ∧
      ∀ root ∈ sys.spaces, ∀ i : Fin 512, 256 ≤ i.val →
        later.view.read root i = sys.view.read root i

variable {event : Event}

theorem ActsOn.leaves (acts : ActsOn sys space later) (inv : Inv sys) (member : space ∈ sys.spaces)
    (concerns : ∀ other, ¬ event.Concerns other → other ≠ space) : Leaves event sys later := by
  obtain ⟨virt, s, held, mapped, low, down, -, rfl⟩ := acts
  obtain ⟨used, taken, -, -⟩ := down.taken
  have view : (sys.moved space s held mapped).view = s := inv.moved_view taken
  refine ⟨rfl, ?_, ?_⟩
  · intro other another apart
    refine ⟨another, ?_⟩
    rw [view]
    exact inv.sameOwn_space member low down another (concerns other apart)
  · intro _
    rw [view]
    refine ⟨inv.sameKernel_space member low down, fun root known i high => ?_⟩
    by_cases same : root = space
    · subst same
      exact inv.read_upper member low down high
    · exact inv.sameOwn_space member low down known same i (ownTable_root _ _)

theorem Leaves.of_same (kernel : later.kernel = sys.kernel)
    (spaces : ∀ other ∈ sys.spaces, ¬ event.Concerns other → other ∈ later.spaces)
    (sameKernel : SameKernel sys.kernel sys.view later.view)
    (sameOwn : ∀ space ∈ sys.spaces, SameOwn space sys.view later.view) : Leaves event sys later :=
  ⟨kernel, fun other member apart =>
      ⟨spaces other member apart, sameOwn other member⟩,
    fun _ => ⟨sameKernel, fun root member i _ =>
      sameOwn root member i (ownTable_root _ _)⟩⟩

theorem Leaves.of_mem (kernel : later.kernel = sys.kernel)
    (spaces : ∀ other ∈ sys.spaces, ¬ event.Concerns other → other ∈ later.spaces)
    (mem : later.machine.mem = sys.machine.mem) : Leaves event sys later := by
  have reads : ∀ t i, later.view.read t i = sys.view.read t i :=
    fun t i => congrArg (fun m => readEntry m t i) mem
  exact .of_same kernel spaces (fun _ t i _ => reads t i) (fun _ _ t i _ => reads t i)

theorem Receives.leaves {frames : List (BitVec 64)}
    (receives : Receives sys later frames) : Leaves event sys later := by
  obtain ⟨machine, lends, rfl⟩ := receives
  exact .of_mem rfl (fun _ member _ => member) lends.mem

/-- An operation on the kernel's tables writes to no table of a space. -/
theorem Inv.onKernel_leaves {s : Vmm.State} (inv : Inv sys)
    (down : Descends sys.kernel virt 4 sys.view s)
    (kind : event.onKernel = true) : Leaves event sys (sys.onKernel s) := by
  obtain ⟨used, taken, -, -⟩ := down.taken
  have view : (sys.onKernel s).view = s := (inv.sound.after taken).2.1
  refine ⟨rfl, fun other member _ => ⟨member, ?_⟩, fun other => ?_⟩
  · intro t i own
    rw [view]
    exact inv.onKernel_read down member own i
  · rw [kind] at other
    cases other

theorem Inv.create_leaves (inv : Inv sys) : Leaves .create sys sys.create := by
  unfold System.create
  cases result : sys.machine.createAddressSpace sys.kernel with
  | none => exact .of_mem rfl (fun _ member _ => member) rfl
  | some made =>
    obtain ⟨space, machine⟩ := made
    have creates := inv.creates result
    refine .of_same rfl (fun _ member _ => List.mem_cons_of_mem _ member)
      (creates.sameKernel inv) fun other member => ?_
    exact creates.sameOwn inv member

theorem Inv.perform_leaves (inv : Inv sys)
    (result : sys.perform event = some later) : Leaves event sys later := by
  cases event with
  | create =>
    cases result
    exact inv.create_leaves
  | map space virt phys flags =>
    obtain ⟨allowed, result⟩ := Option.ite_none_right_eq_some.mp result
    exact (inv.map allowed.1 allowed.2 result).2.leaves inv allowed.1
      fun other apart same => apart same.symm
  | unmap space virt =>
    obtain ⟨member, result⟩ := Option.ite_none_right_eq_some.mp result
    exact (inv.unmap member result).2.leaves inv member fun other apart same => apart same.symm
  | protect space virt flags =>
    obtain ⟨member, result⟩ := Option.ite_none_right_eq_some.mp result
    exact (inv.protect member result).2.leaves inv member fun other apart same => apart same.symm
  | drop space =>
    obtain ⟨member, result⟩ := Option.ite_none_right_eq_some.mp result
    rw [← Option.some.inj result]
    refine .of_mem (by rw [System.dropSpace]) ?_ (sys.machine.dropSpace_mem space)
    intro other another apart
    exact (List.mem_erase_of_ne fun same => apart same.symm).mpr another
  | mapPage virt phys flags =>
    obtain ⟨-, result⟩ := Option.ite_none_right_eq_some.mp result
    obtain ⟨s, mapped, rfl⟩ := Option.map_eq_some_iff.mp result
    exact inv.onKernel_leaves (map4k_descends inv.kernel mapped) rfl
  | unmapPage virt =>
    obtain ⟨-, result⟩ := Option.ite_none_right_eq_some.mp result
    obtain ⟨⟨frame, s⟩, unmapped, rfl⟩ := Option.map_eq_some_iff.mp result
    exact inv.onKernel_leaves (unmapPage_descends inv.kernel unmapped) rfl
  | protectPage virt flags =>
    obtain ⟨-, result⟩ := Option.ite_none_right_eq_some.mp result
    obtain ⟨⟨done, s⟩, changed, rfl⟩ := Option.map_eq_some_iff.mp result
    exact inv.onKernel_leaves (protectPage_descends inv.kernel changed) rfl
  | alloc =>
    cases result
    rcases inv.alloc_cases with same | ⟨frames, receives⟩
    · rw [same]
      exact .of_mem rfl (fun _ member _ => member) rfl
    · exact receives.leaves
  | allocContiguous count =>
    cases result
    rcases inv.allocContiguous_cases count with same | ⟨frames, receives⟩
    · rw [same]
      exact .of_mem rfl (fun _ member _ => member) rfl
    · exact receives.leaves
  | reclaim =>
    obtain ⟨first, result⟩ := Option.ite_none_right_eq_some.mp result
    cases result
    exact (inv.reclaim_receives first).leaves
  | free frame =>
    obtain ⟨-, result⟩ := Option.ite_none_right_eq_some.mp result
    cases result
    exact .of_mem rfl (fun _ member _ => member) rfl
  | store frame bytes =>
    obtain ⟨owned, result⟩ := Option.ite_none_right_eq_some.mp result
    cases result
    exact .of_same rfl (fun _ member _ => member)
      (inv.store_sameKernel owned)
      fun _ member => inv.store_sameOwn owned member

end

/-- In every state any run reaches, an event changes no user address of a space
it does not concern and, unless it is the kernel's own, no kernel address of
any tree; the tables of two spaces are disjoint; and where the kernel had a slot
in use when a space was created the two agree. -/
theorem reachable_isolated {map : Physical.MemoryMap} {sys : System}
    (reachable : Reachable map sys) :
    (∀ event later, sys.perform event = some later →
      (∀ other ∈ sys.spaces, ¬ event.Concerns other → other ∈ later.spaces ∧
        ∀ virt : BitVec 64, virt.toNat < 2 ^ 47 →
          SameAt sys later other virt) ∧
      (event.onKernel = false → later.kernel = sys.kernel ∧
        ∀ root, root = sys.kernel ∨ root ∈ sys.spaces ∧ root ∈ later.spaces →
          ∀ virt, KernelHalf virt → SameAt sys later root virt)) ∧
    (∀ first ∈ sys.spaces, ∀ second ∈ sys.spaces, first ≠ second →
      ∀ t, OwnTable sys.view first t → ¬ OwnTable sys.view second t) ∧
    ∀ space ∈ sys.spaces, ∀ virt, KernelHalf virt →
      sys.populated space (index virt 0) = true →
        AddressSpace.translate sys.view space virt =
            AddressSpace.translate sys.view sys.kernel virt ∧
          leafOf sys.view space virt = leafOf sys.view sys.kernel virt := by
  have inv := reachable.inv
  refine ⟨?_, ?_, ?_⟩
  · intro event later result
    have after := inv.perform result
    have leaves := inv.perform_leaves result
    constructor
    · intro other member apart
      obtain ⟨stays, same⟩ := leaves.others other member apart
      refine ⟨stays, fun virt low => ?_⟩
      exact sameAt_of_leafOf (inv.wf member) (after.wf stays) (same.leafOf low)
    · intro kind
      obtain ⟨sameKernel, upper⟩ := leaves.shared kind
      refine ⟨leaves.kernel, ?_⟩
      rintro root (rfl | ⟨member, stays⟩) virt high
      · exact sameAt_of_leafOf inv.kernel (leaves.kernel ▸ after.kernel) (sameKernel.leafOf virt)
      · refine sameAt_of_leafOf (inv.wf member) (after.wf stays) ?_
        refine leafOf_upper (inv.space root member).wf (leaves.kernel ▸ (after.space root stays).wf)
          high ?_ (sameKernel.leafOf virt)
        exact upper root member _ (index_kernelHalf high)
  · intro first one second two distinct t own
    exact inv.own_disjoint one two distinct own
  · intro space member virt high populated
    have agree := ((inv.space space member).agree _ (index_kernelHalf high) populated).2
    exact ⟨walk_shared agree, leafOf_shared agree⟩

theorem sample_map_isolated :
    ∃ sys later, sys.spaces = [0x106000, 0x105000] ∧
      sys.perform (.map 0x106000 0x400000 0x107000 userRw) = some later ∧
      (∀ virt : BitVec 64, virt.toNat < 2 ^ 47 →
        SameAt sys later 0x105000 virt) ∧
      ∀ virt, KernelHalf virt →
        SameAt sys later sys.kernel virt ∧ SameAt sys later 0x106000 virt := by
  have evaluated : ((sampleStart.bind fun start =>
      [Event.create, .create, .alloc].foldlM System.perform start).map fun sys => (sys.spaces,
        (sys.perform (.map 0x106000 0x400000 0x107000 userRw)).isSome)) =
      some ([0x106000, 0x105000], true) := by decide +kernel
  obtain ⟨sys, ran, facts⟩ := Option.map_eq_some_iff.mp evaluated
  have spaces := congrArg Prod.fst facts
  obtain ⟨later, mapped⟩ :=
    Option.isSome_iff_exists.mp (congrArg Prod.snd facts)
  dsimp only at spaces
  have isolated := (reachable_isolated (sample_reachable ran)).1 _ _ mapped
  have stays : ∀ space ∈ sys.spaces, space ∈ later.spaces := by
    intro space member
    obtain ⟨-, placed⟩ := Option.ite_none_right_eq_some.mp mapped
    obtain ⟨s, -, rfl⟩ := Option.map_eq_some_iff.mp placed
    exact member
  refine ⟨sys, later, spaces, mapped, ?_, ?_⟩
  · refine (isolated.1 0x105000 (by rw [spaces]; decide) ?_).2
    change ¬ (0x106000 : BitVec 64) = 0x105000
    decide
  · intro virt high
    have member : 0x106000 ∈ sys.spaces := by
      rw [spaces]
      decide
    have kernel := (isolated.2 rfl).2
    exact ⟨kernel _ (.inl rfl) virt high, kernel _ (.inr ⟨member, stays _ member⟩) virt high⟩

end Eonos.Spaces
