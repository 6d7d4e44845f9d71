import Eonos.Sched.Stacks

/-!
# Slots that change hands

A slot goes to `create_thread`, from there to the new thread or back to the free
list, and from a thread back to the free list once its pages are unmapped.  The
address space of a user thread goes the same way.
-/

namespace Eonos.Sched

open Eonos.Lib

namespace Machine

section

variable {m later : Machine} {slot j owner id : Nat} {aspace : Option Nat}

/-! ### Threads come and go -/

theorem covered_handover {before after : Nat → Prop} (was : Placed m.slots before)
    (is : Placed later.slots after) (source target : Holder) (gives : slot ∈ m.slots source)
    (takes : slot ∈ later.slots target)
    (seamless : ∀ j, 1 ≤ j → j ≤ stackPages → (later.covers target j ↔ m.covers source j))
    (others : ∀ other ≠ slot, ∀ holder,
      (other ∈ later.slots holder ↔ other ∈ m.slots holder) ∧
        (other ∈ m.slots holder → ∀ j,
          (later.covers holder j ↔ m.covers holder j))) (other j : Nat) :
    later.Covered other j ↔ m.Covered other j := by
  by_cases same : other = slot
  · subst same
    rw [covered_of_holder was source gives, covered_of_holder is target takes]
    exact and_congr_right fun low => and_congr_right (seamless j low)
  · exact covered_congr (fun holder => (others other same holder).1)
      fun holder member => (others other same holder).2 member j

section

variable {sched : Scheduler} {space : Option (BitVec 64)}

theorem reserved_builder :
    (m.reserved owner slot id sched space).slots (.builder owner) = [slot] := by
  simp [slots, reserved, setStage, setDoing_self, Doing.slot]

theorem reserved_slots {holder : Holder} (notFree : holder ≠ .free)
    (distinct : holder ≠ .builder owner) :
    (m.reserved owner slot id sched space).slots holder = m.slots holder := by
  cases holder with
  | thread id => rfl
  | free => exact absurd rfl notFree
  | builder other =>
    have apart : other ≠ owner := fun same => distinct (same ▸ rfl)
    simp [slots, reserved, setStage, setDoing_doing, apart]

theorem reserved_placed (core : m.Core) (resting : m.kernel.doing owner = .nothing)
    (reserves : reserve m.kernel.sched = some (slot, id, sched)) :
    Placed (m.reserved owner slot id sched space).slots (· < sched.nextSlot) ∧
      sched.nextSlot ≤ maxSlots ∧ ¬ ∃ j, m.Covered slot j := by
  have idle : m.slots (.builder owner) = [] := by
    simp [slots, resting, Doing.slot]
  rcases reserve_cases reserves with ⟨free, next⟩ | ⟨fresh, room, next, free⟩
  · have given : m.slots .free = slot :: sched.freeSlots := free
    refine ⟨?_, next ▸ core.bound, ?_⟩
    · rw [next]
      refine @Placed.move _ _ _ _ _ core.slots .free (.builder owner) [slot]
        (by simp) ?_ ?_ fun holder => reserved_slots
      · rw [given]
        rfl
      · rw [reserved_builder, idle]
        rfl
    · rintro ⟨j, covered⟩
      rw [covered_of_holder core.slots .free (by rw [given]; exact List.mem_cons_self)] at covered
      exact covered.2.2
  · refine ⟨?_, next ▸ room, ?_⟩
    · refine core.slots.add (.builder owner) slot (by omega) ?_ ?_ ?_
      · intro other
        omega
      · rw [reserved_builder, idle]
      · intro holder distinct
        by_cases notFree : holder = .free
        · subst notFree
          exact free
        · exact reserved_slots notFree distinct
    · rintro ⟨j, -, -, holder, member, -⟩
      have below := core.slots.live_of_mem member
      omega

theorem reserved_covered (core : m.Core) (resting : m.kernel.doing owner = .nothing)
    (reserves : reserve m.kernel.sched = some (slot, id, sched)) (other j : Nat) :
    (m.reserved owner slot id sched space).Covered other j ↔ m.Covered other j := by
  obtain ⟨placed, -, unused⟩ := @reserved_placed _ _ _ _ _ space core resting reserves
  have idle : m.slots (.builder owner) = [] := by
    simp [slots, resting, Doing.slot]
  by_cases same : other = slot
  · subst same
    rw [covered_of_holder placed (.builder owner)
      (by rw [reserved_builder]; exact List.mem_singleton.mpr rfl)]
    refine iff_of_false ?_ fun covered => unused ⟨j, covered⟩
    simp only [covers, reserved, setStage, Function.update_self, Stage.Covers]
    omega
  refine covered_congr (fun holder => ?_) fun holder member => ?_
  · by_cases builder : holder = .builder owner
    · subst builder
      rw [reserved_builder, idle, List.mem_singleton]
      exact iff_of_false same List.not_mem_nil
    by_cases free : holder = .free
    · subst free
      rcases reserve_cases reserves with ⟨free, -⟩ | ⟨-, -, -, free⟩
      · have given : m.slots .free = slot :: sched.freeSlots := free
        rw [given, List.mem_cons]
        exact (or_iff_right same).symm
      · exact iff_of_eq (congrArg (other ∈ ·) free)
    · rw [reserved_slots free builder]
  · cases holder with
    | thread id => rfl
    | free => rfl
    | builder another =>
      have apart : another ≠ owner := by
        rintro rfl
        rw [idle] at member
        cases member
      simp [covers, reserved, setStage, apart]

theorem Core.spawn (core : m.Core) (resting : m.kernel.doing owner = .nothing)
    (reserves : reserve m.kernel.sched = some (slot, id, sched)) (available : m.Available space) :
    (m.reserved owner slot id sched space).Core := by
  obtain ⟨placed, bound, -⟩ := @reserved_placed _ _ _ _ _ space core resting reserves
  have fresh : ∀ holder, holder ≠ .builder owner →
      (m.reserved owner slot id sched space).aspaces holder =
        m.aspaces holder := by
    intro holder distinct
    cases holder with
    | thread id => rfl
    | free => rfl
    | builder other =>
      have apart : other ≠ owner := fun same => distinct (same ▸ rfl)
      simp [aspaces, reserved, setStage, setDoing_doing, apart]
  have holding : (m.reserved owner slot id sched space).aspaces
      (.builder owner) = space.toList := by
    cases space <;> simp [aspaces, reserved, setStage, setDoing_self, Doing.space]
  have nothing : m.aspaces (.builder owner) = [] := by
    simp [aspaces, resting, Doing.space]
  refine ⟨placed, bound, ?_, ?_, ?_, ?_⟩
  · refine core.stacked.still rfl rfl ?_ fun other j =>
      reserved_covered core resting reserves other j
    intro other
    by_cases same : other = owner
    · subst same
      simp [handFrame, reserved, setStage, setDoing_self, resting, Doing.slot, Stage.frame]
    · simp [handFrame, reserved, setStage, setDoing_doing, same]
  · intro other given member
    by_cases same : other = owner
    · subst same
      simp [reserved, setStage, Stage.Fits]
    · rw [reserved_slots (by simp) (by simpa using same)] at member
      simpa [reserved, setStage, same] using core.stages other given member
  · change Placed _ (· ∈ space.toList ++ m.given)
    cases space with
    | none =>
      have same : (m.reserved owner slot id sched none).aspaces =
          m.aspaces := by
        funext holder
        by_cases builder : holder = .builder owner
        · rw [builder, holding, nothing]
          rfl
        · exact fresh holder builder
      rw [same]
      exact core.spaces
    | some root =>
      refine core.spaces.add (.builder owner) root (available root (by simp)).2 ?_ ?_ fresh
      · intro other
        simp
      · rw [holding, nothing]
        rfl
  · intro root member
    rcases List.mem_append.mp member with new | old
    · exact (available root new).1
    · exact core.alive old

end

/-- `create_thread` gives up: the slot and the address space go back. -/
theorem Core.spawnFails (core : m.Core) (doing : m.kernel.doing owner = .creating slot id aspace)
    {pages : Nat} (stage : m.stage owner = .undoing pages pages) :
    (m.abandoned owner slot aspace).Core := by
  obtain ⟨here, -, -⟩ := core.builder doing
  have emptied : (m.abandoned owner slot aspace).slots (.builder owner) = [] := by
    simp [Machine.slots, abandoned, setDoing_self, Doing.slot]
  have others : ∀ holder, holder ≠ .builder owner → holder ≠ .free →
      (m.abandoned owner slot aspace).slots holder = m.slots holder := by
    intro holder distinct notFree
    cases holder with
    | thread id => rfl
    | free => exact absurd rfl notFree
    | builder other =>
      have apart : other ≠ owner := fun same => distinct (same ▸ rfl)
      simp [Machine.slots, abandoned, setDoing_doing, apart]
  have free : (m.abandoned owner slot aspace).slots .free =
      slot :: m.slots .free := rfl
  have placed : Placed (m.abandoned owner slot aspace).slots (· < m.kernel.sched.nextSlot) := by
    refine @Placed.move _ _ _ _ _ core.slots (.builder owner) .free [slot] (by simp) ?_ ?_ others
    · rw [mem_builder doing, emptied]
      rfl
    · rw [free]
      rfl
  refine ⟨placed, core.bound, ?_, ?_, ?_, ?_⟩
  · refine core.stacked.still rfl rfl ?_ ?_
    · intro other
      by_cases same : other = owner
      · subst same
        simp [handFrame, abandoned, setDoing_self, doing, stage, Doing.slot, Stage.frame]
      · simp [handFrame, abandoned, setDoing_doing, same]
    · intro other j
      refine covered_handover core.slots placed (.builder owner) .free here
        (by rw [free]; exact List.mem_cons_self) ?_ ?_ other j
      · intro j low high
        refine iff_of_false not_false ?_
        simp only [covers, stage, Stage.Covers]
        omega
      · intro another distinct holder
        refine ⟨?_, fun _ j => by cases holder <;> rfl⟩
        by_cases builder : holder = .builder owner
        · subst builder
          rw [emptied, mem_builder doing, List.mem_singleton]
          exact iff_of_false List.not_mem_nil distinct
        by_cases isFree : holder = .free
        · subst isFree
          rw [free, List.mem_cons]
          exact or_iff_right distinct
        · rw [others holder builder isFree]
  · intro other given member
    by_cases same : other = owner
    · subst same
      rw [emptied] at member
      cases member
    · rw [others _ (by simpa using same) (by simp)] at member
      exact core.stages other given member
  · refine @Placed.clear _ _ _ _ _ core.spaces (.builder owner) _ ?_ ?_ ?_
    · intro root
      simp only [abandoned, List.mem_filter, aspaces, doing, Doing.space]
      cases aspace with
      | none => simp
      | some root' => simp [@eq_comm _ root]
    · simp [aspaces, abandoned, setDoing_self, Doing.space]
    · intro holder distinct
      cases holder with
      | thread id => rfl
      | free => rfl
      | builder other =>
        have apart : other ≠ owner := fun same => distinct (same ▸ rfl)
        simp [aspaces, abandoned, setDoing_doing, apart]
  · exact fun root member => core.alive (List.mem_of_mem_filter member)

/-- `create_thread` is done: the slot is the new thread's. -/
theorem Core.spawnBuilt (core : m.Core) (doing : m.kernel.doing owner = .creating slot id aspace)
    (stage : m.stage owner = .mapping stackPages) (fresh : id ∉ m.kernel.created)
    (unfreed : id ∉ m.kernel.freed) : (m.built owner slot id aspace).Core := by
  obtain ⟨here, -, -⟩ := core.builder doing
  have lives : (m.built owner slot id aspace).kernel.Lives id :=
    ⟨List.mem_cons_self, unfreed⟩
  have same : ∀ other, other ≠ id →
      ((m.built owner slot id aspace).kernel.Lives other ↔
        m.kernel.Lives other) := by
    intro other distinct
    refine and_congr_left fun _ => List.mem_cons.trans ?_
    exact or_iff_right distinct
  have emptied : (m.built owner slot id aspace).slots (.builder owner) = [] := by
    simp [Machine.slots, built, setDoing_self, Doing.slot]
  have others : ∀ holder, holder ≠ .builder owner → holder ≠ .thread id →
      (m.built owner slot id aspace).slots holder = m.slots holder ∧
        (m.built owner slot id aspace).aspaces holder = m.aspaces holder := by
    intro holder distinct another
    cases holder with
    | thread other =>
      have apart : other ≠ id := fun equal => another (equal ▸ rfl)
      simp only [Machine.slots, aspaces, same other apart]
      simp [built, apart]
    | free => exact ⟨rfl, rfl⟩
    | builder other =>
      have apart : other ≠ owner := fun equal => distinct (equal ▸ rfl)
      simp [Machine.slots, aspaces, built, setDoing_doing, apart]
  have dead : ¬ m.kernel.Lives id := fun alive => fresh alive.1
  have taken : (m.built owner slot id aspace).slots (.thread id) = [slot] := by
    rw [Machine.slots, if_pos lives]
    simp [built]
  have placed : Placed (m.built owner slot id aspace).slots (· < m.kernel.sched.nextSlot) := by
    refine @Placed.move _ _ _ _ _ core.slots (.builder owner) (.thread id)
      [slot] (by simp) ?_ ?_ fun holder one two => (others holder one two).1
    · rw [mem_builder doing, emptied]
      rfl
    · rw [taken]
      simp [Machine.slots, dead]
  refine ⟨placed, core.bound, ?_, ?_, ?_, core.alive⟩
  · refine core.stacked.still rfl rfl ?_ ?_
    · intro other
      by_cases equal : other = owner
      · subst equal
        simp [handFrame, built, setDoing_self, doing, stage, Doing.slot, Stage.frame]
      · simp [handFrame, built, setDoing_doing, equal]
    · intro other j
      refine covered_handover core.slots placed (.builder owner) (.thread id)
        here (by rw [taken]; exact List.mem_singleton.mpr rfl) ?_ ?_ other j
      · intro j low high
        refine iff_of_true trivial ?_
        simp only [covers, stage, Stage.Covers]
        exact high
      · intro another distinct holder
        refine ⟨?_, fun _ j => by cases holder <;> rfl⟩
        by_cases builder : holder = .builder owner
        · subst builder
          rw [emptied, mem_builder doing, List.mem_singleton]
          exact iff_of_false List.not_mem_nil distinct
        by_cases thread : holder = .thread id
        · subst thread
          rw [taken, List.mem_singleton]
          refine iff_of_false distinct ?_
          simp [Machine.slots, dead]
        · rw [(others holder builder thread).1]
  · intro other given member
    by_cases equal : other = owner
    · subst equal
      rw [emptied] at member
      cases member
    · rw [(others _ (by simpa using equal) (by simp)).1] at member
      exact core.stages other given member
  · refine @Placed.move _ _ _ _ _ core.spaces (.builder owner) (.thread id)
      (aspace.map (BitVec.ofNat 64)).toList (by simp) ?_ ?_
      fun holder one two => (others holder one two).2
    · simp [aspaces, built, doing, setDoing_self, Doing.space]
    · rw [aspaces, if_pos lives, aspaces, if_neg dead, List.append_nil]
      simp [built]

/-! ### Reaping -/

/-- What is mapped when the first `pages` stack pages of `slot` are gone. -/
def CoveredBut (m : Machine) (slot pages other j : Nat) : Prop :=
  ¬ (other = slot ∧ j ≤ pages) ∧ m.Covered other j

theorem Core.reapPages (core : m.Core) (thread : slot ∈ m.slots (.thread id)) :
    ∃ sys frames, (List.range stackPages).foldlM (Machine.reapPage slot) m =
        some { m with sys, frames } ∧
      sys.spaces = m.sys.spaces ∧ sys.kernel = m.sys.kernel ∧
      ({ m with sys, frames } : Machine).Stacked
        (m.CoveredBut slot stackPages) := by
  have inside := core.slot_lt thread
  suffices ∃ later, (List.range stackPages).foldlM (Machine.reapPage slot) m =
      some later ∧ ∃ sys frames, later = { m with sys, frames } ∧
        sys.spaces = m.sys.spaces ∧ sys.kernel = m.sys.kernel ∧
        later.Stacked (m.CoveredBut slot stackPages) by
    obtain ⟨later, ran, sys, frames, rfl, facts⟩ := this
    exact ⟨sys, frames, ran, facts⟩
  refine @foldlM_range _ (fun i state => ∃ sys frames,
    state = { m with sys, frames } ∧ sys.spaces = m.sys.spaces ∧
      sys.kernel = m.sys.kernel ∧ state.Stacked (m.CoveredBut slot i))
    _ _ ?_ _ ?_
  · rintro i below state ⟨sys, frames, rfl, spaces, kernel, stacked⟩
    have within : 1 + i < slotPages := by
      simp only [stackPages, slotPages, slotSize, pageSize] at below ⊢
      omega
    have mapped : m.CoveredBut slot i slot (1 + i) := by
      refine ⟨by omega, ?_⟩
      rw [covered_of_holder core.slots (.thread id) thread]
      exact ⟨by omega, by omega, trivial⟩
    obtain ⟨later, reaped⟩ := @Stacked.reapPage_total _ _ stacked ⟨slot, inside⟩ i within mapped
    obtain ⟨sys', frames', same, kept, root⟩ := reapPage_rest reaped
    refine ⟨later, reaped, sys', frames', same, kept.trans spaces, root.trans kernel, ?_⟩
    refine @Stacked.reapPage _ _ _ _ stacked ⟨slot, inside⟩ _ within reaped ?_
    intro other j
    simp only [CoveredBut, Fin.ext_iff]
    by_cases equal : other.val = slot
    · simp only [equal, true_and]
      rw [← and_assoc]
      refine and_congr_left fun _ => ?_
      omega
    · simp [equal]
  · refine ⟨_, _, rfl, rfl, rfl, core.stacked.still rfl rfl (fun _ => rfl) fun other j => ?_⟩
    refine and_iff_right_of_imp fun covered => ?_
    have low := covered.1
    omega

theorem Core.reapStack (core : m.Core) {slot : Option Nat}
    (mine : ∀ s ∈ slot, s ∈ m.slots (.thread id)) :
    ∃ sys frames, m.reapStack slot = some { m with sys, frames } ∧
      sys.spaces = m.sys.spaces ∧ sys.kernel = m.sys.kernel ∧
      ({ m with sys, frames } : Machine).Stacked fun other j =>
        other ∉ slot ∧ m.Covered other j := by
  cases slot with
  | none =>
    refine ⟨m.sys, m.frames, rfl, rfl, rfl,
      core.stacked.still rfl rfl (fun _ => rfl) fun other j => ?_⟩
    simp
  | some slot =>
    obtain ⟨sys, frames, ran, spaces, kernel, stacked⟩ :=
      core.reapPages (mine slot rfl)
    refine ⟨sys, frames, ran, spaces, kernel,
      stacked.still rfl rfl (fun _ => rfl) fun other j => ?_⟩
    refine and_congr_left fun covered => ?_
    have high := covered.2.1
    simp only [Option.mem_def, Option.some.injEq, eq_comm]
    tauto

theorem dropSpace_performs {sys : Spaces.System} {space : BitVec 64} (alive : space ∈ sys.spaces) :
    ∃ after, sys.dropSpace space = after ∧
      sys.perform (.drop space) = some after ∧ after.held = sys.held ∧
      after.spaces = sys.spaces.erase space ∧ after.kernel = sys.kernel := by
  refine ⟨_, rfl, ?_, ?_⟩
  · rw [Spaces.System.perform, if_pos (show sys.Alive _ from alive)]
  · rw [Spaces.System.dropSpace]
    exact ⟨rfl, rfl, rfl⟩

/-- An event that writes no table of the kernel and takes no frame of a
stack. -/
theorem Stacked.event {covered : Nat → Nat → Prop} (stacked : m.Stacked covered)
    {event : Spaces.Event} {sys : Spaces.System} {given : List (BitVec 64)}
    (performed : m.sys.perform event = some sys) (kind : event.onKernel = false)
    (held : m.frames ⊆ sys.held) : ({ m with sys, given } : Machine).Stacked covered :=
  stacked.congr (stacked.memory.perform performed) rfl held
    (keepsTables_perform stacked.memory performed)
    (fun _ _ => walk_kernel_kept stacked.memory performed kind _)
    (fun _ => rfl) fun _ _ => Iff.rfl

/-- The page tables of a thread go, and nothing of the stacks notices. -/
theorem Stacked.dropAspace {covered : Nat → Nat → Prop} (stacked : m.Stacked covered)
    {aspace : Option Nat} (alive : ∀ space ∈ aspace, BitVec.ofNat 64 space ∈ m.sys.spaces) :
    (m.dropAspace aspace).Stacked covered := by
  cases aspace with
  | none => exact stacked
  | some space =>
    obtain ⟨sys, same, performed, held, -⟩ :=
      dropSpace_performs (alive space rfl)
    rw [Machine.dropAspace, same]
    exact stacked.event performed rfl (held ▸ stacked.held)

theorem dropAspace_rest (m : Machine) (aspace : Option Nat) :
    (m.dropAspace aspace).kernel = m.kernel ∧
      (m.dropAspace aspace).stage = m.stage ∧
      (m.dropAspace aspace).slotOf = m.slotOf ∧
      (m.dropAspace aspace).spaceOf = m.spaceOf ∧
      (m.dropAspace aspace).sys.kernel = m.sys.kernel := by
  cases aspace with
  | none => exact ⟨rfl, rfl, rfl, rfl, rfl⟩
  | some space =>
    have root : (m.sys.dropSpace (BitVec.ofNat 64 space)).kernel =
        m.sys.kernel := by
      rw [Spaces.System.dropSpace]
    rw [dropAspace]
    exact ⟨rfl, rfl, rfl, rfl, root⟩

theorem mem_dropAspace_given {aspace : Option Nat} {space : BitVec 64} :
    space ∈ (m.dropAspace aspace).given ↔
      space ∈ m.given ∧
        space ∉ (aspace.map (BitVec.ofNat 64)).toList := by
  cases aspace with
  | none => simp [dropAspace]
  | some root => simp [dropAspace]

theorem dropAspace_alive {aspace : Option Nat} (alive : m.given ⊆ m.sys.spaces)
    (ours : ∀ space ∈ aspace, BitVec.ofNat 64 space ∈ m.sys.spaces) :
    (m.dropAspace aspace).given ⊆ (m.dropAspace aspace).sys.spaces := by
  intro space member
  obtain ⟨given, distinct⟩ := mem_dropAspace_given.mp member
  cases aspace with
  | none => exact alive given
  | some root =>
    obtain ⟨sys, same, -, -, spaces, -⟩ :=
      dropSpace_performs (ours root rfl)
    rw [dropAspace, same]
    dsimp only
    rw [spaces]
    refine (List.mem_erase_of_ne ?_).mpr (alive given)
    rintro rfl
    exact distinct (by simp)

/-- The bookkeeping of `free_thread`, once the memory is gone. -/
theorem Core.released (core : m.Core) {t : Thread} (lives : m.kernel.Lives t.id)
    (slot : t.stackSlot = m.slotOf t.id) (space : t.aspace = m.spaceOf t.id) {last : Machine}
    (kernel : last.kernel = m.kernel) (stage : last.stage = m.stage)
    (slotOf : last.slotOf = m.slotOf) (spaceOf : last.spaceOf = m.spaceOf)
    (stacked : last.Stacked fun other j => other ∉ t.stackSlot ∧ m.Covered other j)
    (given : ∀ {root}, root ∈ last.given ↔ root ∈ m.given ∧
      root ∉ (t.aspace.map (BitVec.ofNat 64)).toList) (alive : last.given ⊆ last.sys.spaces) :
    ({ last with kernel := Sched.freeThread last.kernel t } : Machine).Core := by
  obtain ⟨k, sys, stage', slotOf', spaceOf', frames, given'⟩ := last
  dsimp only at kernel stage slotOf spaceOf given alive ⊢
  subst kernel stage slotOf spaceOf
  have dies : ∀ id, (Sched.freeThread m.kernel t).Lives id ↔ id ≠ t.id ∧ m.kernel.Lives id := by
    intro id
    simp only [Kernel.Lives, Sched.freeThread, List.mem_cons, not_or]
    tauto
  have gone : ¬ (Sched.freeThread m.kernel t).Lives t.id := fun still =>
    ((dies t.id).mp still).1 rfl
  have lasts : ∀ holder, holder ≠ .thread t.id → holder ≠ .free → ({ m with
        kernel := Sched.freeThread m.kernel t
        sys, frames
        given := given' } : Machine).slots holder = m.slots holder := by
    intro holder distinct notFree
    cases holder with
    | thread id =>
      have apart : id ≠ t.id := fun equal => distinct (equal ▸ rfl)
      simp only [Machine.slots, dies, apart, ne_eq, not_false_eq_true, true_and]
    | builder owner => rfl
    | free => exact absurd rfl notFree
  have emptied : ({ m with
      kernel := Sched.freeThread m.kernel t
      sys, frames
      given := given' } : Machine).slots (.thread t.id) = [] := by
    rw [Machine.slots, if_neg gone]
  have mine : m.slots (.thread t.id) = t.stackSlot.toList := by
    rw [Machine.slots, if_pos lives, slot]
  have placed : Placed ({ m with
      kernel := Sched.freeThread m.kernel t
      sys, frames
      given := given' } : Machine).slots (· < m.kernel.sched.nextSlot) := by
    refine @Placed.move _ _ _ _ _ core.slots (.thread t.id) .free
      t.stackSlot.toList (by simp) ?_ ?_ lasts
    · rw [mine, emptied, List.append_nil]
    · exact List.Perm.refl _
  refine ⟨placed, core.bound, ?_, ?_, ?_, alive⟩
  · refine stacked.still rfl rfl (fun _ => rfl) fun other j => ?_
    by_cases here : other.val ∈ t.stackSlot
    · refine iff_of_false ?_ fun covered => covered.1 here
      rw [covered_of_holder placed .free (List.mem_append_left _ (Option.mem_toList.mpr here))]
      exact fun covered => covered.2.2
    · rw [and_iff_right here]
      refine covered_congr (fun holder => ?_) fun holder _ => by
        cases holder <;> rfl
      by_cases thread : holder = .thread t.id
      · subst thread
        rw [emptied, mine, Option.mem_toList]
        exact iff_of_false List.not_mem_nil here
      by_cases isFree : holder = .free
      · subst isFree
        refine List.mem_append.trans (or_iff_right ?_)
        rwa [Option.mem_toList]
      · rw [lasts holder thread isFree]
  · exact core.stages
  · refine @Placed.clear _ _ _ _ _ core.spaces (.thread t.id) _ ?_ ?_ ?_
    · intro root
      rw [aspaces, if_pos lives, ← space]
      exact given
    · rw [aspaces, if_neg gone]
    · intro holder distinct
      cases holder with
      | thread id =>
        have apart : id ≠ t.id := fun equal => distinct (equal ▸ rfl)
        simp only [aspaces, dies, apart, ne_eq, not_false_eq_true, true_and]
      | builder owner => rfl
      | free => rfl

/-- `free_thread`: the slot is free again once its pages are unmapped. -/
theorem Core.freeThread (core : m.Core) {t : Thread} (lives : m.kernel.Lives t.id)
    (slot : t.stackSlot = m.slotOf t.id) (space : t.aspace = m.spaceOf t.id) :
    ∃ later, Machine.freeThread m t = some later ∧ later.Core ∧
      later.slotOf = m.slotOf ∧ later.spaceOf = m.spaceOf ∧
      later.sys.kernel = m.sys.kernel := by
  have mine : ∀ s ∈ t.stackSlot, s ∈ m.slots (.thread t.id) := by
    intro s member
    rw [Machine.slots, if_pos lives, ← slot]
    exact Option.mem_toList.mpr member
  have ours : ∀ root ∈ t.aspace, BitVec.ofNat 64 root ∈ m.sys.spaces := by
    intro root member
    refine core.alive (@Placed.live_of_mem _ _ _ _ core.spaces (.thread t.id) _ ?_)
    rw [aspaces, if_pos lives, ← space, Option.mem_toList]
    exact Option.mem_map_of_mem _ member
  obtain ⟨sys, frames, reaped, spaces, root, stacked⟩ := core.reapStack mine
  rw [← spaces] at ours
  have dropped := @Stacked.dropAspace { m with sys, frames } _ stacked _ ours
  have kept := @dropAspace_alive { m with sys, frames } t.aspace (spaces ▸ core.alive) ours
  obtain ⟨kernel, stage, slotOf, spaceOf, still⟩ :=
    dropAspace_rest { m with sys, frames } t.aspace
  refine ⟨_, Option.map_eq_some_iff.mpr ⟨_, reaped, rfl⟩, ?_, slotOf, spaceOf, still.trans root⟩
  have released := core.released lives slot space kernel stage slotOf spaceOf
    dropped mem_dropAspace_given kept
  rwa [kernel] at released

theorem Core.freeThreads (dead : List Thread) (core : m.Core)
    (lives : ∀ t ∈ dead, m.kernel.Lives t.id) (distinct : (dead.map Thread.id).Nodup)
    (known : ∀ t ∈ dead, t.stackSlot = m.slotOf t.id ∧ t.aspace = m.spaceOf t.id) :
    ∃ later, dead.foldlM Machine.freeThread m = some later ∧ later.Core ∧
      later.slotOf = m.slotOf ∧ later.spaceOf = m.spaceOf ∧
      later.sys.kernel = m.sys.kernel := by
  induction dead generalizing m with
  | nil => exact ⟨m, rfl, core, rfl, rfl, rfl⟩
  | cons t rest induction =>
    obtain ⟨slot, space⟩ := known t List.mem_cons_self
    obtain ⟨middle, first, middleCore, slots, spaces, root⟩ :=
      core.freeThread (lives t List.mem_cons_self) slot space
    rw [List.map_cons, List.nodup_cons] at distinct
    have still : ∀ other ∈ rest, middle.kernel.Lives other.id := by
      intro other member
      obtain ⟨made, unfreed⟩ := lives other (List.mem_cons_of_mem _ member)
      rw [freeThread_kernel first]
      refine ⟨made, fun freed => ?_⟩
      rcases List.mem_cons.mp freed with same | old
      · exact distinct.1 (same ▸ List.mem_map_of_mem member)
      · exact unfreed old
    obtain ⟨later, ran, lateCore, lateSlots, lateSpaces, lateRoot⟩ :=
      induction middleCore still distinct.2 fun other member => by
        rw [slots, spaces]
        exact known other (List.mem_cons_of_mem _ member)
    refine ⟨later, ?_, lateCore, lateSlots.trans slots,
      lateSpaces.trans spaces, lateRoot.trans root⟩
    rw [List.foldlM_cons, first]
    exact ran

end

end Machine

end Eonos.Sched
