import Eonos.Spaces.Steps

/-!
# Every event keeps the ownership of frames
-/

namespace Eonos.Spaces

open Eonos.Vmm
open Eonos.Lib.TableTree

section

variable {sys later : System} {space other virt phys flags : BitVec 64}
  {s : Vmm.State}

/-! ### Operations on a space -/

/-- `later` follows by an operation on the tables of `space`. -/
def ActsOn (sys : System) (space : BitVec 64) (later : System) : Prop :=
  ∃ virt s held mapped, virt.toNat < 2 ^ 47 ∧
    Descends space virt 4 sys.view s ∧
    (held ++ mapped).Perm (sys.held ++ sys.mapped space) ∧
    later = sys.moved space s held mapped

theorem Inv.map (inv : Inv sys) (member : space ∈ sys.spaces) (ours : phys ∈ sys.held)
    (result : sys.map space virt phys flags = some later) : Inv later ∧ ActsOn sys space later := by
  obtain ⟨s, mapped, rfl⟩ := Option.map_eq_some_iff.mp result
  have wf := inv.wf member
  have records := inv.space space member
  have inLedger : phys ∈ sys.ledger := List.mem_append_left _ ours
  have fresh : phys ∉ sys.mapped space := by
    intro placed
    exact (List.nodup_append.mp inv.ledger).2.2 phys ours phys
      (List.mem_flatMap.mpr ⟨space, member, List.mem_append_right _ placed⟩)
      rfl
  obtain ⟨user, absent, here, elsewhere⟩ :=
    map_effect wf (inv.lent phys inLedger).masked mapped
  have written := (AddressSpace.map_eq mapped).2.2.2.2.2
  have down := map4k_descends wf written
  have moves : (sys.held.erase phys ++ phys :: sys.mapped space).Perm
      (sys.held ++ sys.mapped space) :=
    List.perm_middle.trans ((List.perm_cons_erase ours).symm.append_right _)
  refine ⟨?_, virt, s, _, _, user.1, down, moves, rfl⟩
  refine inv.moved member user.1 down
    (map4k_hugeFree wf records.hugeFree user.1 written) moves ?_ ?_
  · intro f
    rw [List.mem_cons, records.frames]
    constructor
    · rintro (rfl | ⟨page, other, placed⟩)
      · exact ⟨virt, user, here⟩
      · refine ⟨page, other, (elsewhere page other ?_).trans placed⟩
        rintro rfl
        cases absent.symm.trans placed
    · rintro ⟨page, other, placed⟩
      by_cases same : page = virt
      · subst same
        exact .inl (Option.some.inj (placed.symm.trans here))
      · exact .inr ⟨page, other, (elsewhere page other same).symm.trans placed⟩
  · have only : ∀ page, UserPage page → walk s space page = some phys → page = virt := by
      intro page other placed
      by_contra distinct
      refine fresh ((records.frames phys).mpr ⟨page, other, ?_⟩)
      exact (elsewhere page other distinct).symm.trans placed
    intro first second f one two left right
    by_cases same : first = virt
    · subst same
      cases here.symm.trans left
      exact (only second two right).symm
    · by_cases also : second = virt
      · subst also
        cases here.symm.trans right
        exact only first one left
      · rw [elsewhere first one same] at left
        rw [elsewhere second two also] at right
        exact records.once first second f one two left right

theorem Inv.unmap (inv : Inv sys) (member : space ∈ sys.spaces)
    (result : sys.unmap space virt = some later) : Inv later ∧ ActsOn sys space later := by
  obtain ⟨⟨frame, s⟩, unmapped, rfl⟩ := Option.map_eq_some_iff.mp result
  have wf := inv.wf member
  have records := inv.space space member
  have nodup : (sys.mapped space).Nodup :=
    (List.nodup_append.mp ((List.nodup_flatMap.mp
      (List.nodup_append.mp inv.ledger).2.1).1 _ member)).2.1
  obtain ⟨low, page, user, equal, gone, elsewhere⟩ := unmap_effect wf unmapped
  have written := AddressSpace.unmap_eq unmapped
  have down := unmapPage_descends wf written
  have moves : (frame.toList ++ sys.held ++
      (sys.mapped space).diff frame.toList).Perm
        (sys.held ++ sys.mapped space) := by
    cases found : frame with
    | none => exact List.Perm.refl _
    | some f =>
      have placed := (records.frames f).mpr ⟨page, user, equal.symm.trans found⟩
      rw [Option.toList_some, List.diff_cons, List.diff_nil]
      have front : (f :: sys.held ++ (sys.mapped space).erase f).Perm
          (sys.held ++ f :: (sys.mapped space).erase f) :=
        List.perm_middle.symm
      exact front.trans ((List.perm_cons_erase placed).symm.append_left _)
  refine ⟨?_, virt, s, _, _, low, down, moves, rfl⟩
  refine inv.moved member low down (unmapPage_hugeFree wf records.hugeFree low written) moves ?_ ?_
  · intro f
    have split : f ∈ (sys.mapped space).diff frame.toList ↔
        f ∈ sys.mapped space ∧ frame ≠ some f := by
      rw [nodup.mem_sdiff_iff]
      simp
    rw [split, records.frames, equal]
    constructor
    · rintro ⟨⟨other, otherUser, placed⟩, distinct⟩
      refine ⟨other, otherUser, ?_⟩
      rw [elsewhere other otherUser, placed]
      rintro rfl
      exact distinct placed
    · rintro ⟨other, otherUser, placed⟩
      have moved : other ≠ page := by
        rintro rfl
        cases gone.symm.trans placed
      rw [elsewhere other otherUser moved] at placed
      exact ⟨⟨other, otherUser, placed⟩, fun same =>
        moved (records.once other page f otherUser user placed same)⟩
  · have before : ∀ other f, UserPage other →
        walk s space other = some f → walk sys.view space other = some f := by
      intro other f otherUser placed
      rw [← elsewhere other otherUser, placed]
      rintro rfl
      cases gone.symm.trans placed
    intro first second f one two left right
    exact records.once first second f one two (before first f one left) (before second f two right)

/-- A space whose records do not change. -/
theorem System.moved_self (sys : System) (space : BitVec 64) (s : Vmm.State) :
    sys.onSpace space s = sys.moved space s sys.held (sys.mapped space) := by
  unfold System.moved
  rw [Function.update_eq_self]
  rfl

theorem Inv.protect (inv : Inv sys) (member : space ∈ sys.spaces)
    (result : sys.protect space virt flags = some later) : Inv later ∧ ActsOn sys space later := by
  obtain ⟨⟨done, s⟩, changed, rfl⟩ := Option.map_eq_some_iff.mp result
  have wf := inv.wf member
  have records := inv.space space member
  have way : ∃ virt : BitVec 64, virt.toNat < 2 ^ 47 ∧
      Descends space virt 4 sys.view s ∧ HugeFree s space := by
    unfold AddressSpace.protect at changed
    split at changed
    · cases changed
      exact ⟨0, by decide, Descends.refl wf 4, records.hugeFree⟩
    · rename_i refused
      have low : virt.toNat < 2 ^ 47 := by
        rw [← userSpaceEnd_toNat]
        exact BitVec.lt_def.mp (BitVec.not_le.mp (not_or.mp refused).1)
      exact ⟨virt, low, protectLeaf_descends wf changed,
        protectLeaf_hugeFree wf records.hugeFree low changed⟩
  obtain ⟨virt, low, down, free⟩ := way
  have same := protect_effect wf changed
  refine ⟨?_, virt, s, _, _, low, down, List.Perm.refl _, sys.moved_self space s⟩
  dsimp only
  rw [sys.moved_self]
  refine inv.moved member low down free (List.Perm.refl _) ?_ ?_
  · intro f
    rw [records.frames]
    simp only [same]
  · simp only [same]
    exact records.once

/-! ### Operations on the kernel's tables -/

theorem Inv.onKernel_read (inv : Inv sys) (down : Descends sys.kernel virt 4 sys.view s)
    (member : space ∈ sys.spaces) {t : BitVec 64} (own : OwnTable sys.view space t) (i : Fin 512) :
    s.read t i = sys.view.read t i := by
  have onLoan := inv.ownTable_lent member own
  refine down.read_other inv.kernel onLoan.masked (inv.not_pool onLoan) ?_
  rintro l below u found ⟨rfl, -⟩
  exact (inv.space space member).wf.foreign own found

theorem Inv.onKernel (inv : Inv sys) (down : Descends sys.kernel virt 4 sys.view s) :
    Inv (sys.onKernel s) := by
  obtain ⟨used, taken, new, linked⟩ := down.taken
  obtain ⟨sound, after, -⟩ := inv.sound.after taken
  have view : (sys.onKernel s).view = s := after
  have lent : ∀ {f}, (sys.onKernel s).machine.Lent f ↔
      sys.machine.Lent f ∨ f ∈ used := inv.sound.lent_after taken
  have kernelWf : Wf sys.kernel (sys.onKernel s).view := view.symm ▸ down.wf
  refine ⟨sound, kernelWf, inv.nodup, inv.ledger,
    fun f inside => lent.mpr (.inl (inv.lent f inside)), ?_, ?_⟩
  · intro path t found
    rw [view] at found
    rcases new found with old | ⟨fresh, -⟩
    · obtain ⟨onLoan, outside⟩ := inv.kernelLent path t old
      exact ⟨lent.mpr (.inl onLoan), outside⟩
    · exact ⟨lent.mpr (.inr fresh), fun inside =>
        inv.used_not_lent taken fresh (inv.lent t inside)⟩
  · intro space member
    have records := inv.space space member
    refine records.keep (inv.wf member) rfl kernelWf sound ?_ ?_ ?_ ?_ rfl rfl
      rfl
    · intro t i own
      rw [view]
      exact inv.onKernel_read down member own i
    · intro i mapped
      have top : sys.view.tableAt sys.kernel [] = some sys.kernel := rfl
      rw [view]
      refine down.kept i top ?_
      rw [child_table (by decide) mapped (inv.kernel.topTables i mapped)]
      rfl
    · intro t path own found
      rw [view] at found
      rcases new found with old | ⟨fresh, -⟩
      · exact records.wf.foreign own old
      · exact inv.used_not_lent taken fresh (inv.ownTable_lent member own)
    · intro t inside
      exact lent.mpr (.inl (inv.ownTable_lent member ((records.tables t).mp inside)))

/-! ### Events that write no table -/

/-- Callers receive frames. -/
theorem Inv.lends {machine : Machine} {frames : List (BitVec 64)}
    (inv : Inv sys) (lends : Machine.Lends sys.machine machine frames) :
    Inv { sys with machine := machine, held := frames ++ sys.held } := by
  have reads : ∀ t i, machine.view.read t i = sys.view.read t i := by
    intro t i
    exact congrArg (fun m => readEntry m t i) lends.mem
  have ledger : ({ sys with
      machine := machine
      held := frames ++ sys.held } : System).ledger = frames ++ sys.ledger :=
    List.append_assoc _ _ _
  refine inv.quiet rfl (List.Sublist.refl _) rfl rfl rfl lends.sound
    (fun _ t i _ => reads t i) (fun _ _ t i _ => reads t i) ?_ ?_ ?_
  · rw [ledger]
    refine List.nodup_append.mpr ⟨lends.nodup, inv.ledger, ?_⟩
    rintro f fresh g old rfl
    exact lends.fresh f fresh (inv.lent f old)
  · intro f inside
    rw [ledger, List.mem_append] at inside
    exact lends.lent.mpr (inside.symm.imp_left (inv.lent f))
  · intro path t found
    obtain ⟨lent, outside⟩ := inv.kernelLent path t found
    refine ⟨lends.lent.mpr (.inl lent), fun inside => ?_⟩
    rw [ledger, List.mem_append] at inside
    rcases inside with fresh | old
    · exact lends.fresh t fresh lent
    · exact outside old

/-- The events in which callers receive frames from the allocator. -/
def Receives (sys later : System) (frames : List (BitVec 64)) : Prop :=
  ∃ machine, Machine.Lends sys.machine machine frames ∧
    later = { sys with machine := machine, held := frames ++ sys.held }

theorem Inv.alloc_cases (inv : Inv sys) :
    sys.alloc = sys ∨ ∃ frames, Receives sys sys.alloc frames := by
  unfold System.alloc
  cases granted : sys.machine.allocFrame with
  | none => exact .inl rfl
  | some result =>
    exact .inr ⟨_, _, inv.sound.allocFrame_lends granted, rfl⟩

theorem Inv.allocContiguous_cases (inv : Inv sys) (count : Nat) :
    sys.allocContiguous count = sys ∨
      ∃ frames, Receives sys (sys.allocContiguous count) frames := by
  unfold System.allocContiguous
  cases granted : sys.machine.allocContiguous count with
  | none => exact .inl rfl
  | some result =>
    exact .inr ⟨_, _, inv.sound.allocContiguous_lends granted, rfl⟩

theorem Inv.reclaim_receives (inv : Inv sys) (first : sys.machine.frames.reclaimed = false) :
    Receives sys sys.reclaim [] :=
  ⟨_, inv.sound.reclaim_lends first, rfl⟩

theorem Receives.inv {frames : List (BitVec 64)} (receives : Receives sys later frames)
    (inv : Inv sys) : Inv later := by
  obtain ⟨machine, lends, rfl⟩ := receives
  exact inv.lends lends

theorem System.free_ledger {frame : BitVec 64} (ours : frame ∈ sys.held) :
    sys.ledger.Perm (frame :: (sys.free frame).ledger) :=
  (List.perm_cons_erase ours).append_right _

theorem Inv.free (inv : Inv sys) {frame : BitVec 64}
    (ours : frame ∈ sys.held) : Inv (sys.free frame) := by
  have split := System.free_ledger ours
  have nodup := List.nodup_cons.mp (split.nodup_iff.mp inv.ledger)
  have inLedger : ∀ {f}, f ∈ (sys.free frame).ledger → f ∈ sys.ledger :=
    fun inside => split.mem_iff.mpr (List.mem_cons_of_mem _ inside)
  have onLoan := inv.lent frame (split.mem_iff.mpr List.mem_cons_self)
  obtain ⟨sound, -, lent⟩ := inv.sound.freeFrame onLoan
  refine inv.quiet rfl (List.Sublist.refl _) rfl rfl rfl sound
    (fun _ _ _ _ => rfl) (fun _ _ _ _ _ => rfl) nodup.2 ?_ ?_
  · intro f inside
    refine lent.mpr ⟨inv.lent f (inLedger inside), ?_⟩
    rintro rfl
    exact nodup.1 inside
  · intro path t found
    obtain ⟨tableLent, outside⟩ := inv.kernelLent path t found
    refine ⟨lent.mpr ⟨tableLent, ?_⟩, fun inside => outside (inLedger inside)⟩
    rintro rfl
    exact outside (split.mem_iff.mpr List.mem_cons_self)

/-- The system without `space`, after the calls its teardown makes. -/
def System.without (sys : System) (space : BitVec 64) (calls : List (BitVec 64)) : System :=
  { sys with
    machine := calls.foldl Machine.freeFrame sys.machine
    spaces := sys.spaces.erase space }

theorem System.dropSpace_eq (sys : System) (space : BitVec 64) :
    sys.dropSpace space = sys.without space (freeUserHalf sys.machine.mem space) := by
  rw [System.dropSpace, Machine.dropSpace, System.without]

theorem System.without_ledger {calls : List (BitVec 64)} (member : space ∈ sys.spaces)
    (all : calls.Perm (sys.tables space ++ sys.mapped space)) :
    sys.ledger.Perm (calls ++ (sys.without space calls).ledger) := by
  refine (System.ledger_perm member).trans ?_
  refine List.Perm.trans ?_ (all.symm.append_right _)
  exact List.perm_append_comm_assoc _ _ _

/-- Giving back everything a space has. -/
theorem Inv.without {calls : List (BitVec 64)} (inv : Inv sys) (member : space ∈ sys.spaces)
    (all : calls.Perm (sys.tables space ++ sys.mapped space)) :
    Accepted sys.machine calls ∧
      (∀ f, (sys.without space calls).machine.Lent f ↔
        sys.machine.Lent f ∧ f ∉ calls) ∧
      Inv (sys.without space calls) := by
  have split := System.without_ledger member all
  obtain ⟨callsNodup, restNodup, apart⟩ :=
    List.nodup_append.mp (split.nodup_iff.mp inv.ledger)
  have inLedger : ∀ {f}, f ∈ (sys.without space calls).ledger → f ∈ sys.ledger :=
    fun inside => split.mem_iff.mpr (List.mem_append_right _ inside)
  obtain ⟨sound, accepted, lent⟩ := freeFrames_spec inv.sound callsNodup fun f inside => inv.lent f
    (split.mem_iff.mpr (List.mem_append_left _ inside))
  have reads : ∀ t i, (sys.without space calls).view.read t i =
      sys.view.read t i := by
    intro t i
    exact congrArg (fun m => readEntry m t i) (freeFrames_mem _ _)
  refine ⟨accepted, lent, ?_⟩
  refine inv.quiet rfl List.erase_sublist rfl rfl rfl sound
    (fun _ t i _ => reads t i) (fun _ _ t i _ => reads t i) restNodup ?_ ?_
  · intro f inside
    exact (lent f).mpr ⟨inv.lent f (inLedger inside), fun freed =>
      apart f freed f inside rfl⟩
  · intro path t found
    obtain ⟨onLoan, outside⟩ := inv.kernelLent path t found
    refine ⟨(lent t).mpr ⟨onLoan, fun freed => ?_⟩, fun inside => outside (inLedger inside)⟩
    exact outside (split.mem_iff.mpr (List.mem_append_left _ freed))

theorem Inv.drop (inv : Inv sys) (member : space ∈ sys.spaces) : Inv (sys.dropSpace space) := by
  rw [System.dropSpace_eq]
  exact (inv.without member (inv.freeUserHalf_perm member)).2.2

/-- Writing to one frame changes no entry of another. -/
theorem store_read {frame t : BitVec 64} {bytes : Nat → UInt8} (one : frame &&& addrMask = frame)
    (two : t &&& addrMask = t) (distinct : frame ≠ t) (i : Fin 512) :
    (sys.store frame bytes).view.read t i = sys.view.read t i := by
  refine read_of_bytes fun b inside => ?_
  refine if_neg fun hit => ?_
  exact (frame_of_masked one).apart (frame_of_masked two) distinct hit inside.inFrame

section

variable {frame : BitVec 64} {bytes : Nat → UInt8}

theorem System.Owned.mem_ledger (owned : sys.Owned frame) : frame ∈ sys.ledger := by
  rcases owned with ours | ⟨space, member, placed⟩
  · exact List.mem_append_left _ ours
  · exact System.mem_ledger member (List.mem_append_right _ placed)

/-- What a process or a caller writes to is no table. -/
theorem Inv.owned_not_table (inv : Inv sys) (owned : sys.Owned frame)
    (member : space ∈ sys.spaces) : ¬ OwnTable sys.view space frame := by
  intro own
  have inside := ((inv.space space member).tables frame).mpr own
  rcases owned with ours | ⟨other, another, placed⟩
  · exact (List.nodup_append.mp inv.ledger).2.2 frame ours frame
      (List.mem_flatMap.mpr ⟨space, member, List.mem_append_left _ inside⟩)
      rfl
  · by_cases same : space = other
    · subst same
      have parts := (List.nodup_flatMap.mp (List.nodup_append.mp inv.ledger).2.1).1 _ member
      exact (List.nodup_append.mp parts).2.2 frame inside frame placed rfl
    · exact inv.disjoint member another same
        (List.mem_append_left _ inside) (List.mem_append_right _ placed)

theorem Inv.store_sameKernel (inv : Inv sys) (owned : sys.Owned frame) :
    SameKernel sys.kernel sys.view (sys.store frame bytes).view := by
  intro path t i found
  obtain ⟨lent, outside⟩ := inv.kernelLent path t found
  refine store_read (inv.lent frame owned.mem_ledger).masked lent.masked ?_ i
  rintro rfl
  exact outside owned.mem_ledger

theorem Inv.store_sameOwn (inv : Inv sys) (owned : sys.Owned frame) (member : space ∈ sys.spaces) :
    SameOwn space sys.view (sys.store frame bytes).view := by
  intro t i own
  refine store_read (inv.lent frame owned.mem_ledger).masked
    (inv.ownTable_lent member own).masked ?_ i
  rintro rfl
  exact inv.owned_not_table owned member own

theorem Inv.store (inv : Inv sys) (owned : sys.Owned frame) : Inv (sys.store frame bytes) := by
  refine inv.quiet rfl (List.Sublist.refl _) rfl rfl rfl ⟨inv.sound.frames, inv.sound.small⟩
    (inv.store_sameKernel owned) (fun _ member => inv.store_sameOwn owned member) inv.ledger ?_ ?_
  · intro f inside
    obtain ⟨whole, loan⟩ := inv.lent f inside
    exact ⟨whole, loan⟩
  · intro path t found
    obtain ⟨⟨whole, loan⟩, outside⟩ := inv.kernelLent path t found
    exact ⟨⟨whole, loan⟩, outside⟩

end

end

end Eonos.Spaces
