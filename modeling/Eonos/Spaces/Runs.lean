import Eonos.Spaces.Events

/-!
# Runs of the system

A new space shares the kernel's half and owns one empty table.  With that the
ownership of frames holds along every run from the tables `vmm::init` builds.
-/

namespace Eonos.Spaces

open Eonos.Vmm
open Eonos.Lib.TableTree

/-! ### A new space -/

/-- Copying into one table reads another that stays as it is. -/
theorem copy_fold {kernel pml4 : BitVec 64} {contents : Fin 512 → BitVec 64} (one : Frame kernel)
    (two : Frame pml4) (distinct : kernel ≠ pml4) (slots : List (Fin 512)) (m : Memory)
    (held : ∀ i, readEntry m kernel i = contents i) :
    slots.foldl (fun m i => writeEntry m pml4 i (readEntry m kernel i)) m =
      slots.foldl (fun m i => writeEntry m pml4 i (contents i)) m := by
  induction slots generalizing m with
  | nil => exact Eq.refl m
  | cons i slots induction =>
    have kept : ∀ j, readEntry (writeEntry m pml4 i (contents i)) kernel j =
        contents j := by
      intro j
      rw [readEntry_writeEntry_ne two one fun same => distinct same.1]
      exact held j
    have rest := induction _ kept
    simp only [List.foldl_cons]
    rw [held i]
    exact rest

theorem readEntry_copyKernelHalf {m : Memory} {kernel pml4 : BitVec 64}
    (one : Frame kernel) (two : Frame pml4) (distinct : kernel ≠ pml4) :
    (∀ j : Fin 512,
      readEntry (Machine.copyKernelHalf m kernel pml4) pml4 j =
        if 256 ≤ j.val then readEntry m kernel j else readEntry m pml4 j) ∧
    ∀ t j, Frame t → t ≠ pml4 →
      readEntry (Machine.copyKernelHalf m kernel pml4) t j =
        readEntry m t j := by
  unfold Machine.copyKernelHalf
  have slots : ∀ i : Fin 512,
      i ∈ (List.finRange 512).filter (fun i => kernelPml4Start ≤ i.val) ↔
        256 ≤ i.val := by
    intro i
    rw [List.mem_filter, decide_eq_true_iff, kernelPml4Start]
    exact and_iff_right (List.mem_finRange i)
  revert slots
  generalize (List.finRange 512).filter _ = indices
  intro slots
  rw [copy_fold one two distinct indices m fun _ => rfl]
  obtain ⟨here, elsewhere⟩ :=
    @readEntry_fold pml4 (fun i => readEntry m kernel i) two indices m
  refine ⟨fun j => (here j).trans ?_, elsewhere⟩
  exact if_congr (slots j) rfl rfl

section

variable {sys later : System} {space : BitVec 64} {machine : Machine}

/-- What `create_address_space` leaves in the tables. -/
structure Creates (sys : System) (space : BitVec 64) (machine : Machine) :
    Prop where
  takes : Machine.Takes sys.machine machine space
  lower : ∀ i : Fin 512, i.val < 256 → machine.view.read space i = 0
  upper : ∀ i : Fin 512, 256 ≤ i.val →
    machine.view.read space i = sys.view.read sys.kernel i
  others : ∀ t i, t &&& addrMask = t → t ≠ space →
    machine.view.read t i = sys.view.read t i

theorem Inv.creates (inv : Inv sys)
    (result : sys.machine.createAddressSpace sys.kernel = some (space, machine)) :
    Creates sys space machine := by
  obtain ⟨⟨frame, rest⟩, granted, equal⟩ := Option.map_eq_some_iff.mp result
  cases equal
  obtain ⟨takes, mem⟩ := inv.sound.allocFrameZeroed granted
  have inPool : frame ∈ sys.machine.pool := by
    rw [takes.pool]
    exact List.mem_cons_self
  have kernelLent := (inv.kernelLent [] sys.kernel rfl).1
  have distinct : sys.kernel ≠ frame := by
    rintro equal
    exact inv.sound.pool_not_lent inPool (equal ▸ kernelLent)
  have whole := frame_of_masked (inv.sound.pool_spec inPool).1
  have kernelWhole := frame_of_masked kernelLent.masked
  have zeroed : ∀ t i, Frame t → t ≠ frame → readEntry rest.mem t i = sys.view.read t i := by
    intro t i aligned apart
    rw [mem, readEntry_zeroFrame_ne i whole aligned apart]
    rfl
  obtain ⟨written, kept⟩ :=
    @readEntry_copyKernelHalf rest.mem _ _ kernelWhole whole distinct
  revert written kept
  dsimp only
  generalize Machine.copyKernelHalf rest.mem sys.kernel frame = half
  intro written kept
  refine ⟨takes.with_mem _, ?_, ?_, ?_⟩
  · intro i low
    refine (written i).trans ?_
    rw [if_neg (Nat.not_le.mpr low), mem, readEntry_zeroFrame]
  · intro i high
    refine (written i).trans ?_
    rw [if_pos high]
    exact zeroed sys.kernel i kernelWhole distinct
  · intro t i masked apart
    have aligned := frame_of_masked masked
    exact (kept t i aligned apart).trans (zeroed t i aligned apart)

/-- The own part of a new space is its PML4. -/
theorem Creates.own_path (creates : Creates sys space machine)
    {path : List (Fin 512)} {t : BitVec 64} (own : Own path)
    (found : machine.view.tableAt space path = some t) : path = [] := by
  induction path generalizing t with
  | nil => rfl
  | cons i path induction =>
    obtain ⟨parent, above, leads⟩ := Option.bind_eq_some_iff.mp found
    cases induction own.tail above
    cases above
    rw [creates.lower i (own_singleton.mp own), child_absent (by decide)] at leads
    cases leads

theorem Creates.fresh (creates : Creates sys space machine) (inv : Inv sys) :
    ¬ sys.machine.Lent space := by
  refine inv.sound.pool_not_lent ?_
  rw [creates.takes.pool]
  exact List.mem_cons_self

theorem Creates.sameKernel (creates : Creates sys space machine)
    (inv : Inv sys) : SameKernel sys.kernel sys.view machine.view := by
  intro path t i found
  have lent := (inv.kernelLent path t found).1
  refine creates.others t i lent.masked ?_
  rintro rfl
  exact creates.fresh inv lent

theorem Creates.sameOwn (creates : Creates sys space machine) (inv : Inv sys) {other : BitVec 64}
    (member : other ∈ sys.spaces) : SameOwn other sys.view machine.view := by
  intro t i own
  have lent := inv.ownTable_lent member own
  refine creates.others t i lent.masked ?_
  rintro rfl
  exact creates.fresh inv lent

/-- The system with the new space. -/
def System.created (sys : System) (space : BitVec 64) (machine : Machine) : System :=
  { sys with
    machine := machine
    spaces := space :: sys.spaces
    populated := Function.update sys.populated space fun i =>
      has (sys.machine.view.read sys.kernel i) present
    tables := Function.update sys.tables space [space]
    mapped := Function.update sys.mapped space [] }

theorem Creates.kernel_wf (creates : Creates sys space machine)
    (inv : Inv sys) : Wf sys.kernel machine.view :=
  (creates.sameKernel inv).wf inv.kernel creates.takes.sound
    fun path t found => creates.takes.lent.mpr
      (.inl (inv.kernelLent path t found).1)

theorem Creates.space_inv (creates : Creates sys space machine)
    (inv : Inv sys) : SpaceInv (sys.created space machine) space := by
  have masked : space &&& addrMask = space := by
    have lent : machine.Lent space := creates.takes.lent.mpr (.inr rfl)
    exact lent.masked
  have kernelRoot : ∀ i, machine.view.read sys.kernel i = sys.view.read sys.kernel i :=
    fun i => creates.sameKernel inv [] _ i rfl
  have upper : ∀ i : Fin 512, has (machine.view.read space i) present = true → 256 ≤ i.val := by
    intro i mapped
    by_contra low
    rw [creates.lower i (Nat.not_le.mp low)] at mapped
    exact absurd mapped (by decide)
  have flat : ∀ i, has (machine.view.read space i) present = true →
      has (machine.view.read space i) huge = false := by
    intro i mapped
    have high := upper i mapped
    rw [creates.upper i high] at mapped ⊢
    exact inv.kernel.topTables i mapped
  have spaceWf : SpaceWf sys.kernel space machine.view := by
    refine ⟨masked, ?_, flat, ?_, ?_⟩
    · intro i high mapped
      rw [creates.upper i high, kernelRoot]
    · intro first second t firstOwn secondOwn one two
      rw [creates.own_path firstOwn one, creates.own_path secondOwn two]
    · rintro t path ⟨way, own, reached⟩ found
      cases creates.own_path own reached
      cases reached
      rw [(creates.sameKernel inv).tableAt] at found
      exact creates.fresh inv (inv.kernelLent path space found).1
  have noPage : ∀ page f, UserPage page → walk machine.view space page ≠ some f := by
    intro page f user placed
    have own : Own (indices page 1) := own_indices.mpr (index_user user.1)
    have absent : walk machine.view space page = none := by
      unfold walk
      rw [creates.lower _ (index_user user.1)]
      rfl
    cases absent.symm.trans placed
  refine ⟨spaceWf, ?_, ?_, ?_, ?_, ?_⟩
  · intro path t i own _ found mapped
    cases creates.own_path own found
    cases found
    exact flat i mapped
  · intro t
    change t ∈ Function.update sys.tables space [space] space ↔ OwnTable machine.view space t
    rw [Function.update_self, List.mem_singleton]
    constructor
    · rintro rfl
      exact ownTable_root _ _
    · rintro ⟨path, own, found⟩
      cases creates.own_path own found
      exact (Option.some.inj found).symm
  · intro f
    change f ∈ Function.update sys.mapped space [] space ↔ _
    rw [Function.update_self]
    refine iff_of_false List.not_mem_nil ?_
    rintro ⟨page, user, placed⟩
    exact noPage page f user placed
  · intro first second f one _ left
    exact absurd left (noPage first f one)
  · intro i high populated
    change Function.update sys.populated space _ space i = true at populated
    rw [Function.update_self] at populated
    change has (machine.view.read space i) present = true ∧
      machine.view.read space i = machine.view.read sys.kernel i
    rw [creates.upper i high, kernelRoot]
    exact ⟨populated, rfl⟩

theorem Creates.not_mem (creates : Creates sys space machine)
    (inv : Inv sys) : space ∉ sys.spaces := fun member =>
  creates.fresh inv (inv.ownTable_lent member (ownTable_root _ _))

theorem Creates.ledger (creates : Creates sys space machine) (inv : Inv sys) :
    (sys.created space machine).ledger.Perm (space :: sys.ledger) := by
  have apart : ∀ other ∈ sys.spaces, other ≠ space := by
    rintro other member rfl
    exact creates.not_mem inv member
  have rest : (sys.spaces.flatMap fun other =>
      (sys.created space machine).tables other ++ (sys.created space machine).mapped other) =
      sys.spaces.flatMap fun other => sys.tables other ++ sys.mapped other := by
    refine List.flatMap_congr fun other member => ?_
    exact congrArg₂ _ (Function.update_of_ne (apart other member) _ _)
      (Function.update_of_ne (apart other member) _ _)
  have own : (sys.created space machine).tables space ++
      (sys.created space machine).mapped space = [space] :=
    congrArg₂ _ (Function.update_self _ _ _) (Function.update_self _ _ _)
  change (sys.held ++ (space :: sys.spaces).flatMap _).Perm _
  rw [List.flatMap_cons, rest, own]
  exact List.perm_middle

theorem Creates.inv (creates : Creates sys space machine) (inv : Inv sys) :
    Inv (sys.created space machine) := by
  have fresh := creates.fresh inv
  have lent : ∀ {f}, machine.Lent f ↔ sys.machine.Lent f ∨ f = space :=
    creates.takes.lent
  have sameKernel := creates.sameKernel inv
  have outside : space ∉ sys.ledger := fun inside =>
    fresh (inv.lent space inside)
  have ledger := creates.ledger inv
  refine ⟨creates.takes.sound, creates.kernel_wf inv, List.nodup_cons.mpr ⟨creates.not_mem inv,
    inv.nodup⟩, ledger.nodup_iff.mpr (List.nodup_cons.mpr ⟨outside, inv.ledger⟩), ?_, ?_, ?_⟩
  · intro f inside
    rw [ledger.mem_iff, List.mem_cons] at inside
    exact lent.mpr (inside.symm.imp_left (inv.lent f))
  · intro path t found
    change machine.view.tableAt sys.kernel path = some t at found
    rw [sameKernel.tableAt] at found
    obtain ⟨onLoan, unlisted⟩ := inv.kernelLent path t found
    refine ⟨lent.mpr (.inl onLoan), fun inside => ?_⟩
    rw [ledger.mem_iff, List.mem_cons] at inside
    rcases inside with rfl | old
    · exact fresh onLoan
    · exact unlisted old
  · intro other inside
    rcases List.mem_cons.mp inside with rfl | member
    · exact creates.space_inv inv
    · have records := inv.space other member
      have distinct : other ≠ space := by
        rintro rfl
        exact creates.not_mem inv member
      refine records.keep (inv.wf member) rfl (creates.kernel_wf inv) creates.takes.sound
        (creates.sameOwn inv member) ?_ ?_ ?_ (Function.update_of_ne distinct _ _)
        (Function.update_of_ne distinct _ _) (Function.update_of_ne distinct _ _)
      · intro i _
        exact sameKernel [] _ i rfl
      · intro t path own found
        change machine.view.tableAt sys.kernel path = some t at found
        rw [sameKernel.tableAt] at found
        exact records.wf.foreign own found
      · intro t recorded
        exact lent.mpr (.inl (inv.ownTable_lent member ((records.tables t).mp recorded)))

theorem Inv.create (inv : Inv sys) : Inv sys.create := by
  unfold System.create
  cases result : sys.machine.createAddressSpace sys.kernel with
  | none => exact inv
  | some made => exact (inv.creates result).inv inv

/-! ### Runs -/

theorem init_tables {first s : Vmm.State} {boot : BootInfo} {root : BitVec 64}
    (fresh : FreshPool first.pool) (built : Vmm.init boot first = some (root, s)) :
    Wf root s ∧ ∃ used, first.pool = used ++ s.pool ∧
      ∀ path t, s.tableAt root path = some t → t ∈ used := by
  have step : ∀ {s later : Vmm.State} {virt : BitVec 64} {level : Nat},
      (Wf root s ∧ ∃ used, first.pool = used ++ s.pool ∧
        ∀ path t, s.tableAt root path = some t → t ∈ used) →
      Descends root virt level s later →
      Wf root later ∧ ∃ used, first.pool = used ++ later.pool ∧
        ∀ path t, later.tableAt root path = some t → t ∈ used := by
    rintro s later virt level ⟨-, used, pool, tables⟩ down
    obtain ⟨more, taken, new, -⟩ := down.taken
    refine ⟨down.wf, used ++ more, ?_, ?_⟩
    · rw [pool, taken, List.append_assoc]
    · intro path t found
      rcases new found with old | ⟨added, -⟩
      · exact List.mem_append_left _ (tables path t old)
      · exact List.mem_append_right _ added
  refine init_keeps (P := fun s => Wf root s ∧ ∃ used,
      first.pool = used ++ s.pool ∧ ∀ path t, s.tableAt root path = some t → t ∈ used)
    (fun holds mapped => step holds (map2m_descends holds.1 mapped))
    (fun holds mapped => step holds (map4k_descends holds.1 mapped)) ?_ built
  intro empty taken
  refine ⟨wf_zeroed fresh taken, [root], (allocFrameZeroed_some taken).1, ?_⟩
  intro path t found
  cases zeroed_path taken found
  cases found
  exact List.mem_singleton_self _

theorem Machine.Sound.freshPool (sound : machine.Sound) : FreshPool machine.view.pool :=
  ⟨sound.pool_nodup, fun _ member => (sound.pool_spec member).1⟩

theorem Initial.inv {map : Physical.MemoryMap} (initial : Initial map sys) : Inv sys := by
  obtain ⟨first, boot, s, reachable, small, built, machine, spaces, held⟩ :=
    initial
  have sound : first.Sound := ⟨reachable.inv.1, small⟩
  obtain ⟨wf, used, pool, tables⟩ := init_tables sound.freshPool built
  obtain ⟨after, view, -⟩ := sound.after pool
  have empty : sys.ledger = [] := by
    unfold System.ledger
    rw [spaces, held]
    rfl
  have sysView : sys.view = s := by
    rw [System.view, machine, view]
  refine ⟨machine.symm ▸ after, sysView.symm ▸ wf, ?_, ?_, ?_, ?_, ?_⟩
  · rw [spaces]
    exact List.nodup_nil
  · rw [empty]
    exact List.nodup_nil
  · intro f inside
    rw [empty] at inside
    cases inside
  · intro path t found
    rw [sysView] at found
    refine ⟨?_, by rw [empty]; exact List.not_mem_nil⟩
    rw [machine]
    exact (sound.lent_after pool).mpr (.inr (tables path t found))
  · intro space member
    rw [spaces] at member
    cases member

theorem Inv.perform {event : Event} (inv : Inv sys)
    (result : sys.perform event = some later) : Inv later := by
  cases event with
  | create =>
    cases result
    exact inv.create
  | map space virt phys flags =>
    obtain ⟨allowed, result⟩ := Option.ite_none_right_eq_some.mp result
    exact (inv.map allowed.1 allowed.2 result).1
  | unmap space virt =>
    obtain ⟨member, result⟩ := Option.ite_none_right_eq_some.mp result
    exact (inv.unmap member result).1
  | protect space virt flags =>
    obtain ⟨member, result⟩ := Option.ite_none_right_eq_some.mp result
    exact (inv.protect member result).1
  | drop space =>
    obtain ⟨member, result⟩ := Option.ite_none_right_eq_some.mp result
    rw [← Option.some.inj result]
    exact inv.drop member
  | mapPage virt phys flags =>
    obtain ⟨-, result⟩ := Option.ite_none_right_eq_some.mp result
    obtain ⟨s, mapped, rfl⟩ := Option.map_eq_some_iff.mp result
    exact inv.onKernel (map4k_descends inv.kernel mapped)
  | unmapPage virt =>
    obtain ⟨-, result⟩ := Option.ite_none_right_eq_some.mp result
    obtain ⟨⟨frame, s⟩, unmapped, rfl⟩ := Option.map_eq_some_iff.mp result
    exact inv.onKernel (unmapPage_descends inv.kernel unmapped)
  | protectPage virt flags =>
    obtain ⟨-, result⟩ := Option.ite_none_right_eq_some.mp result
    obtain ⟨⟨done, s⟩, changed, rfl⟩ := Option.map_eq_some_iff.mp result
    exact inv.onKernel (protectPage_descends inv.kernel changed)
  | alloc =>
    cases result
    rcases inv.alloc_cases with same | ⟨frames, receives⟩
    · rw [same]
      exact inv
    · exact receives.inv inv
  | allocContiguous count =>
    cases result
    rcases inv.allocContiguous_cases count with same | ⟨frames, receives⟩
    · rw [same]
      exact inv
    · exact receives.inv inv
  | reclaim =>
    obtain ⟨first, result⟩ := Option.ite_none_right_eq_some.mp result
    cases result
    exact (inv.reclaim_receives first).inv inv
  | free frame =>
    obtain ⟨ours, result⟩ := Option.ite_none_right_eq_some.mp result
    cases result
    exact inv.free ours
  | store frame bytes =>
    obtain ⟨owned, result⟩ := Option.ite_none_right_eq_some.mp result
    cases result
    exact inv.store owned

theorem Reachable.inv {map : Physical.MemoryMap} (reachable : Reachable map sys) : Inv sys := by
  refine Lib.Reachable.invariant (fun _ initial => initial.inv) ?_ reachable
  rintro sys later inv ⟨event, performed⟩
  exact inv.perform performed

end

/-! ### A small machine -/

/-- A kernel of one page. -/
def sampleBoot : BootInfo where
  hhdm := 0xffff800000000000
  ranges := []
  framebuffer := none
  kernelPhys := 0x200000
  kernelVirt := 0xffffffff80000000
  text := (0xffffffff80000000, 0xffffffff80001000)
  rodata := (0, 0)
  data := (0, 0)

/-- The system `vmm::init` leaves on a machine. -/
def bootSystem (boot : BootInfo) (first : Machine) : Option System :=
  (Vmm.init boot first.view).map fun built =>
    ⟨first.after built.2, built.1, [], [], fun _ _ => false, fun _ => [],
      fun _ => []⟩

theorem bootSystem_initial {map : Physical.MemoryMap} {boot : BootInfo} {first : Machine}
    {start : System} (reachable : Physical.Reachable map first.frames)
    (small : first.frames.pmm.totalFrames ≤ 2 ^ 40) (built : bootSystem boot first = some start) :
    Initial map start := by
  obtain ⟨⟨root, s⟩, tables, rfl⟩ := Option.map_eq_some_iff.mp built
  exact ⟨first, boot, s, reachable, small, tables, rfl, rfl, rfl⟩

def sampleStart : Option System :=
  (Physical.init Physical.sampleMap.entries).bind fun p =>
    bootSystem sampleBoot ⟨fun _ => 0, ⟨p, ∅, false⟩⟩

theorem sampleStart_initial {start : System} (built : sampleStart = some start) :
    Initial Physical.sampleMap start := by
  obtain ⟨p, started, built⟩ := Option.bind_eq_some_iff.mp built
  have size : (Physical.init Physical.sampleMap.entries).map
      (·.totalFrames) = some 276 := by decide +kernel
  rw [started, Option.map_some, Option.some_inj] at size
  refine bootSystem_initial (Lib.Reachable.start ⟨started, rfl, rfl⟩) ?_ built
  exact size.le.trans (by decide)

/-- The states runs on the small machine end in. -/
theorem sample_reachable {events : List Event} {sys : System}
    (ran : (sampleStart.bind fun start => events.foldlM System.perform start) = some sys) :
    Reachable Physical.sampleMap sys := by
  obtain ⟨start, built, ran⟩ := Option.bind_eq_some_iff.mp ran
  exact Lib.Reachable.run (fun _ event _ taken => ⟨event, taken⟩) events
    (Lib.Reachable.start (sampleStart_initial built)) ran

end Eonos.Spaces
