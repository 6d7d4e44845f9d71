import Eonos.Sched.StackPages

/-!
# Stack slots

Every slot below `next_slot` belongs to one thread, to one thread under
construction or to the free list, and its sixteen stack pages are mapped while
it belongs to a thread.
-/

namespace Eonos.Sched

open Eonos.Lib

/-- Who has a slot or an address space. -/
inductive Holder where
  | thread (id : Nat)
  | builder (owner : Nat)
  | free
deriving DecidableEq

/-- Made and not reaped. -/
def Kernel.Lives (k : Kernel) (id : Nat) : Prop :=
  id ∈ k.created ∧ id ∉ k.freed

instance (k : Kernel) (id : Nat) : Decidable (k.Lives id) :=
  inferInstanceAs (Decidable (_ ∧ _))

/-- Which pages of its slot `create_thread` has mapped. -/
def Stage.Covers : Stage → Nat → Prop
  | .mapping pages, j => j ≤ pages
  | .holding pages _, j => j ≤ pages
  | .undoing done pages, j => done < j ∧ j ≤ pages
  | .freeing done pages _, j => done + 1 < j ∧ j ≤ pages

/-- Within the bounds of the loops. -/
def Stage.Fits : Stage → Prop
  | .mapping pages => pages ≤ stackPages
  | .holding pages _ => pages < stackPages
  | .undoing done pages => done ≤ pages ∧ pages ≤ stackPages
  | .freeing done pages _ => done < pages ∧ pages ≤ stackPages

namespace Machine

def slots (m : Machine) : Holder → List Nat
  | .thread id => if m.kernel.Lives id then (m.slotOf id).toList else []
  | .builder owner => (m.kernel.doing owner).slot.toList
  | .free => m.kernel.sched.freeSlots

def aspaces (m : Machine) : Holder → List (BitVec 64)
  | .thread id =>
    if m.kernel.Lives id then
      ((m.spaceOf id).map (BitVec.ofNat 64)).toList
    else []
  | .builder owner =>
    ((m.kernel.doing owner).space.map (BitVec.ofNat 64)).toList
  | .free => []

def covers (m : Machine) : Holder → Nat → Prop
  | .thread _, _ => True
  | .builder owner, j => (m.stage owner).Covers j
  | .free, _ => False

/-- The pages that are mapped. -/
def Covered (m : Machine) (slot j : Nat) : Prop :=
  1 ≤ j ∧ j ≤ stackPages ∧ ∃ holder, slot ∈ m.slots holder ∧ m.covers holder j

/-- What holds of slots, stacks and page tables, also between the threads that
`finish_switch` frees. -/
structure Core (m : Machine) : Prop where
  slots : Placed m.slots (· < m.kernel.sched.nextSlot)
  bound : m.kernel.sched.nextSlot ≤ maxSlots
  stacked : m.Stacked m.Covered
  stages : ∀ owner, ∀ slot ∈ m.slots (.builder owner), (m.stage owner).Fits
  spaces : Placed m.aspaces (· ∈ m.given)
  alive : m.given ⊆ m.sys.spaces

section

variable {m later : Machine} {slot j : Nat}

theorem covered_of_holder {live : Nat → Prop} (placed : Placed m.slots live)
    (holder : Holder) (member : slot ∈ m.slots holder) :
    m.Covered slot j ↔ 1 ≤ j ∧ j ≤ stackPages ∧ m.covers holder j := by
  refine and_congr_right fun _ => and_congr_right fun _ => ?_
  constructor
  · rintro ⟨other, also, covers⟩
    rwa [placed.apart member also]
  · exact fun covers => ⟨holder, member, covers⟩

theorem covered_congr (slots : ∀ holder, slot ∈ later.slots holder ↔ slot ∈ m.slots holder)
    (covers : ∀ holder, slot ∈ m.slots holder → (later.covers holder j ↔ m.covers holder j)) :
    later.Covered slot j ↔ m.Covered slot j := by
  refine and_congr_right fun _ => and_congr_right fun _ =>
    exists_congr fun holder => ?_
  rw [slots]
  exact and_congr_right (covers holder)

theorem Core.slot_lt (core : m.Core) {holder : Holder}
    (member : slot ∈ m.slots holder) : slot < maxSlots :=
  lt_of_lt_of_le (core.slots.live_of_mem member) core.bound

theorem mem_builder {owner slot id : Nat} {aspace : Option Nat}
    (doing : m.kernel.doing owner = .creating slot id aspace) :
    m.slots (.builder owner) = [slot] := by
  simp [slots, doing, Doing.slot]

/-! ### Sections that move no slot -/

/-- Nothing about slots and page tables changes but the frames and stages. -/
structure SameHolders (m later : Machine) : Prop where
  slots : later.slots = m.slots
  nextSlot : later.kernel.sched.nextSlot = m.kernel.sched.nextSlot
  aspaces : later.aspaces = m.aspaces
  given : later.given = m.given

theorem SameHolders.of_kernel (created : later.kernel.created = m.kernel.created)
    (freed : later.kernel.freed = m.kernel.freed)
    (freeSlots : later.kernel.sched.freeSlots = m.kernel.sched.freeSlots)
    (nextSlot : later.kernel.sched.nextSlot = m.kernel.sched.nextSlot)
    (doing : ∀ owner,
      (later.kernel.doing owner).slot = (m.kernel.doing owner).slot ∧
        (later.kernel.doing owner).space = (m.kernel.doing owner).space)
    (slotOf : later.slotOf = m.slotOf) (spaceOf : later.spaceOf = m.spaceOf)
    (given : later.given = m.given) : SameHolders m later := by
  have lives : ∀ id, later.kernel.Lives id ↔ m.kernel.Lives id := by
    intro id
    rw [Kernel.Lives, Kernel.Lives, created, freed]
  refine ⟨?_, nextSlot, ?_, given⟩
  · funext holder
    cases holder with
    | thread id => simp only [Machine.slots, lives, slotOf]
    | builder owner => simp only [Machine.slots, (doing owner).1]
    | free => exact freeSlots
  · funext holder
    cases holder with
    | thread id => simp only [Machine.aspaces, lives, spaceOf]
    | builder owner => simp only [Machine.aspaces, (doing owner).2]
    | free => rfl

/-- A section after which the stacks are in order. -/
theorem Core.same (core : m.Core) (same : SameHolders m later)
    (stacked : later.Stacked later.Covered)
    (stages : ∀ owner, ∀ slot ∈ m.slots (.builder owner), (later.stage owner).Fits)
    (alive : m.given ⊆ later.sys.spaces) : later.Core := by
  refine ⟨?_, same.nextSlot ▸ core.bound, stacked, ?_, ?_, ?_⟩
  · rw [same.slots, same.nextSlot]
    exact core.slots
  · rw [same.slots]
    exact stages
  · rw [same.aspaces, same.given]
    exact core.spaces
  · rw [same.given]
    exact alive

/-- A section of the scheduler alone. -/
theorem Core.quiet (core : m.Core) {kernel : Kernel}
    (quiet : Quiet m.kernel kernel) : ({ m with kernel } : Machine).Core := by
  have doing : ∀ owner, (kernel.doing owner).slot = (m.kernel.doing owner).slot ∧
      (kernel.doing owner).space = (m.kernel.doing owner).space :=
    fun owner => Doing.reserved_congr quiet.building
  have same : SameHolders m { m with kernel } :=
    .of_kernel quiet.created quiet.freed quiet.freeSlots quiet.nextSlot doing
      rfl rfl rfl
  refine core.same same ?_ core.stages core.alive
  refine core.stacked.still rfl rfl ?_ ?_
  · intro owner
    simp only [handFrame, (doing owner).1]
  · intro slot j
    exact covered_congr (fun holder => by rw [same.slots]) fun holder _ => by cases holder <;> rfl

/-- Something else happens to memory. -/
theorem Core.memory (core : m.Core) {event : Spaces.Event} {sys : Spaces.System}
    (spares : m.Spares event) (result : m.sys.perform event = some sys) :
    ({ m with sys } : Machine).Core := by
  have inv := core.stacked.memory
  have same : SameHolders m { m with sys } := ⟨rfl, rfl, rfl, rfl⟩
  refine core.same same ?_ core.stages (spares.given inv result core.alive)
  refine core.stacked.congr (inv.perform result) rfl
    (spares.held inv result core.stacked.held)
    (keepsTables_perform inv result) ?_ (fun _ => rfl)
    fun slot j => covered_congr (fun _ => Iff.rfl) fun holder _ => by
      cases holder <;> rfl
  intro slot j
  exact spares.pages inv result slot slot.isLt j j.isLt

/-! ### Building a stack -/

variable {owner id : Nat} {aspace : Option Nat}

/-- What is mapped once the thread that builds in `slot` is at `stage`. -/
def CoveredAt (m : Machine) (slot : Nat) (stage : Stage) (other j : Nat) : Prop :=
  if other = slot then 1 ≤ j ∧ j ≤ stackPages ∧ stage.Covers j
  else m.Covered other j

theorem coveredAt_self (core : m.Core) (doing : m.kernel.doing owner = .creating slot id aspace)
    (other j : Nat) : m.CoveredAt slot (m.stage owner) other j ↔ m.Covered other j := by
  unfold CoveredAt
  split
  case isTrue same =>
    subst same
    rw [covered_of_holder core.slots (.builder owner)
      (by rw [mem_builder doing]; exact List.mem_singleton.mpr rfl)]
    rfl
  case isFalse => rfl

/-! ### Slots and page tables that change hands -/

/-- The slot `reserve` gives out was free, or is the first never used. -/
theorem reserve_cases {s sched : Scheduler} (reserves : reserve s = some (slot, id, sched)) :
    (s.freeSlots = slot :: sched.freeSlots ∧ sched.nextSlot = s.nextSlot) ∨
      slot = s.nextSlot ∧ slot < maxSlots ∧ sched.nextSlot = slot + 1 ∧
        sched.freeSlots = s.freeSlots := by
  unfold reserve at reserves
  split at reserves
  case h_1 first rest free =>
    cases reserves
    exact .inl ⟨free, rfl⟩
  case h_2 free =>
    split at reserves
    · cases reserves
      exact .inr ⟨rfl, ‹_›, rfl, rfl⟩
    · cases reserves

theorem Core.builder (core : m.Core) (doing : m.kernel.doing owner = .creating slot id aspace) :
    slot ∈ m.slots (.builder owner) ∧ slot < maxSlots ∧ (m.stage owner).Fits := by
  have here : slot ∈ m.slots (.builder owner) := by
    rw [mem_builder doing]
    exact List.mem_singleton.mpr rfl
  exact ⟨here, core.slot_lt here, core.stages owner slot here⟩

theorem Core.building (core : m.Core) (doing : m.kernel.doing owner = .creating slot id aspace)
    {stage : Stage} {sys : Spaces.System} {frames : List (BitVec 64)} (fits : stage.Fits)
    (spaces : sys.spaces = m.sys.spaces)
    (stacked : (({ m with sys, frames } : Machine).setStage owner
      stage).Stacked (m.CoveredAt slot stage)) :
    (({ m with sys, frames } : Machine).setStage owner stage).Core := by
  have same : SameHolders m (({ m with sys, frames } : Machine).setStage owner stage) :=
    ⟨rfl, rfl, rfl, rfl⟩
  have here := (core.builder doing).1
  refine core.same same ?_ ?_ ?_
  · refine stacked.still rfl rfl (fun _ => rfl) fun other j => ?_
    unfold CoveredAt
    split
    case isTrue equal =>
      rw [equal]
      refine (@covered_of_holder (({ m with sys, frames } : Machine).setStage owner stage) slot j _
        core.slots (.builder owner) here).trans ?_
      simp [covers, setStage]
    case isFalse distinct =>
      refine covered_congr (fun _ => Iff.rfl) fun holder member => ?_
      cases holder with
      | thread id => rfl
      | free => rfl
      | builder another =>
        have apart : another ≠ owner := by
          rintro rfl
          rw [mem_builder doing, List.mem_singleton] at member
          exact distinct member
        simp [covers, setStage, apart]
  · intro another other member
    by_cases equal : another = owner
    · subst equal
      simpa [setStage] using fits
    · simpa [setStage, equal] using core.stages another other member
  · exact spaces ▸ core.alive

theorem handFrame_builder (doing : m.kernel.doing owner = .creating slot id aspace) :
    m.handFrame owner = (m.stage owner).frame := by
  simp [handFrame, doing, Doing.slot]

theorem handFrame_setStage (owner other : Nat) (stage : Stage) (distinct : other ≠ owner) :
    (m.setStage owner stage).handFrame other = m.handFrame other := by
  simp [handFrame, setStage, distinct]

/-- `create_thread` gets a frame, or turns back. -/
theorem Core.allocStack (core : m.Core) (doing : m.kernel.doing owner = .creating slot id aspace)
    {pages : Nat} (stage : m.stage owner = .mapping pages) (more : pages < stackPages) :
    (∀ {frame rest}, m.sys.machine.allocFrame = some (frame, rest) →
      ({ m with
        sys := m.sys.alloc
        frames := frame :: m.frames }.setStage owner
          (.holding pages frame)).Core) ∧
    (m.setStage owner (.undoing 0 pages)).Core := by
  have empty : m.handFrame owner = none := by
    rw [handFrame_builder doing, stage]
    rfl
  have before := coveredAt_self core doing
  rw [stage] at before
  constructor
  · intro frame rest granted
    refine core.building doing more ?_ ?_
    · rw [Spaces.System.alloc, granted]
      rfl
    · refine core.stacked.take granted rfl rfl empty ?_ ?_ ?_
      · simp [handFrame, setStage, doing, Doing.slot, Stage.frame]
      · exact fun other distinct => handFrame_setStage owner other _ distinct
      · exact fun other j => before other j
  · refine core.building doing ⟨Nat.zero_le _, Nat.le_of_lt more⟩ rfl ?_
    refine core.stacked.still rfl rfl ?_ ?_
    · intro other
      by_cases same : other = owner
      · subst same
        simp [handFrame, setStage, stage, Stage.frame]
      · exact handFrame_setStage owner other _ same
    · intro other j
      rw [← before]
      unfold CoveredAt
      split
      · simp only [Stage.Covers]
        omega
      · rfl

/-- A frame goes under the next page. -/
theorem Core.mapStack (core : m.Core) (doing : m.kernel.doing owner = .creating slot id aspace)
    {pages : Nat} {frame : BitVec 64} (stage : m.stage owner = .holding pages frame)
    (result : m.mapSlot slot (1 + pages) frame = some later) :
    (later.setStage owner (.mapping (pages + 1))).Core := by
  obtain ⟨-, inside, fits⟩ := core.builder doing
  rw [stage] at fits
  have within : 1 + pages < slotPages := by
    simp only [Stage.Fits, stackPages, slotPages, slotSize, pageSize] at fits ⊢
    omega
  have hand : m.handFrame owner = some frame := by
    rw [handFrame_builder doing, stage]
    rfl
  have ours : frame ∈ m.frames :=
    @Placed.live_of_mem _ _ _ _ core.stacked.placed (.hand owner) _ (by simp [stackFrames, hand])
  have before := coveredAt_self core doing
  rw [stage] at before
  obtain ⟨sys, rfl, rewires⟩ := mapSlot_rewires core.stacked.memory inside
    within (core.stacked.lent ours).masked result
  refine core.building doing fits rewires.spaces ?_
  refine @Stacked.map _ _ _ _ core.stacked ⟨slot, inside⟩ ⟨1 + pages, within⟩
    owner _ rewires rfl ?_ hand ?_ ?_ ?_
  · rw [← before]
    simp [CoveredAt, Stage.Covers]
  · simp [handFrame, setStage, Stage.frame]
  · exact fun other distinct => handFrame_setStage owner other _ distinct
  · intro other j
    rw [← before]
    simp only [Fin.ext_iff, CoveredAt]
    by_cases same : other.val = slot
    · have bound := j.isLt
      simp only [same, if_true, true_and, Stage.Covers]
      simp only [Stage.Fits] at fits
      omega
    · simp [same]

/-- A page mapped before `create_thread` turned back is unmapped. -/
theorem Core.unmapStack (core : m.Core) (doing : m.kernel.doing owner = .creating slot id aspace)
    {done pages : Nat} {taken : Option (BitVec 64)} (stage : m.stage owner = .undoing done pages)
    (more : done < pages) (result : m.unmapSlot slot (1 + done) = some (taken, later)) :
    ∃ frame, taken = some frame ∧ (later.setStage owner (.freeing done pages frame)).Core := by
  obtain ⟨-, inside, fits⟩ := core.builder doing
  rw [stage] at fits
  have within : 1 + done < slotPages := by
    simp only [Stage.Fits, stackPages, slotPages, slotSize, pageSize] at fits ⊢
    omega
  have before := coveredAt_self core doing
  rw [stage] at before
  obtain ⟨was, sys, rfl, rewires⟩ :=
    unmapSlot_rewires core.stacked.memory inside within result
  obtain ⟨frame, found⟩ : ∃ frame, m.pageAt slot (1 + done) = some frame := by
    refine Option.isSome_iff_exists.mp
      ((core.stacked.pages ⟨slot, inside⟩ ⟨1 + done, within⟩).mpr ?_)
    rw [← before]
    simp only [CoveredAt, if_true, Stage.Covers]
    simp only [Stage.Fits] at fits
    omega
  refine ⟨frame, was.trans found, ?_⟩
  refine core.building doing ⟨more, fits.2⟩ rewires.spaces ?_
  refine @Stacked.unmap _ _ _ _ core.stacked ⟨slot, inside⟩ ⟨1 + done, within⟩
    owner _ rewires rfl found ?_ ?_ ?_ ?_
  · rw [handFrame_builder doing, stage]
    rfl
  · simp [handFrame, setStage, doing, Doing.slot, Stage.frame]
  · exact fun other distinct => handFrame_setStage owner other _ distinct
  · intro other j
    rw [← before]
    simp only [Fin.ext_iff, CoveredAt]
    by_cases same : other.val = slot
    · simp only [same, if_true, true_and, Stage.Covers]
      omega
    · simp [same]

theorem Core.freeStack (core : m.Core) (doing : m.kernel.doing owner = .creating slot id aspace)
    {done pages : Nat} {frame : BitVec 64} (stage : m.stage owner = .freeing done pages frame) :
    ((m.freeFrame frame).setStage owner (.undoing (done + 1) pages)).Core := by
  obtain ⟨-, -, fits⟩ := core.builder doing
  rw [stage] at fits
  have before := coveredAt_self core doing
  rw [stage] at before
  refine core.building doing fits rfl ?_
  refine @Stacked.free _ _ _ _ core.stacked owner _ rfl rfl ?_ ?_ ?_ ?_
  · rw [handFrame_builder doing, stage]
    rfl
  · simp [handFrame, setStage, Stage.frame]
  · exact fun other distinct => handFrame_setStage owner other _ distinct
  · exact fun other j => before other j

end

end Machine

end Eonos.Sched
