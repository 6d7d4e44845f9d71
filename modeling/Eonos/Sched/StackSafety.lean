import Eonos.Sched.StackRuns

/-!
# Stack slots are never shared or lost

The slots of the threads the scheduler holds, of threads under construction and
of the free list, and what is mapped at them, in every state of every run.
-/

namespace Eonos.Sched

open Eonos.Lib

/-- Where a slot can be. -/
inductive SlotPlace where
  /-- With a thread that is held at `place`. -/
  | held (place : Place)
  /-- With a thread that `owner` is making. -/
  | building (owner : Nat)
  | free
deriving DecidableEq

def Kernel.slots (k : Kernel) : SlotPlace → List Nat
  | .held place => (k.holds place).filterMap Thread.stackSlot
  | .building owner => (k.doing owner).slot.toList
  | .free => k.sched.freeSlots

section

variable {m : Machine} {slot : Nat}

theorem Machine.Inv.slot_of_held (inv : m.Inv) {place : Place} {t : Thread}
    (held : t ∈ m.kernel.holds place) (has : t.stackSlot = some slot) :
    slot ∈ m.slots (.thread t.id) := by
  have alive := inv.sound.conserved.alive place held
  rw [Machine.slots, if_pos ⟨alive.1, alive.2.1⟩, ← (inv.known place t held).1, has]
  exact List.mem_singleton.mpr rfl

theorem Machine.Inv.held_of_slot (inv : m.Inv) {id : Nat} (member : slot ∈ m.slots (.thread id)) :
    ∃ place, slot ∈ m.kernel.slots (.held place) := by
  rw [Machine.slots] at member
  split at member
  case isFalse => cases member
  case isTrue lives =>
    obtain ⟨place, key, -⟩ := inv.sound.conserved.placed.place_of_live
      (id, id == idleId) ⟨lives.1, lives.2, rfl⟩
    obtain ⟨t, held, same⟩ := List.mem_map.mp key
    refine ⟨place, List.mem_filterMap.mpr ⟨t, held, ?_⟩⟩
    have named : t.id = id := congrArg Prod.fst same
    rw [(inv.known place t held).1, named]
    exact Option.mem_toList.mp member

theorem Machine.Inv.mem_held (inv : m.Inv) :
    (∃ place, slot ∈ m.kernel.slots (.held place)) ↔ ∃ id, slot ∈ m.slots (.thread id) := by
  constructor
  · rintro ⟨place, member⟩
    obtain ⟨t, held, has⟩ := List.mem_filterMap.mp member
    exact ⟨t.id, inv.slot_of_held held has⟩
  · rintro ⟨id, member⟩
    exact inv.held_of_slot member

theorem Machine.Inv.holder (inv : m.Inv) {place : SlotPlace}
    (member : slot ∈ m.kernel.slots place) :
    ∃ holder, slot ∈ m.slots holder ∧
      ((∃ owner, place = .building owner ∧ holder = .builder owner) ∨
        (place = .free ∧ holder = .free) ∨
        ∃ home t, place = .held home ∧ holder = .thread t.id ∧
          t ∈ m.kernel.holds home ∧ t.stackSlot = some slot) := by
  cases place with
  | held place =>
    obtain ⟨t, held, has⟩ := List.mem_filterMap.mp member
    exact ⟨.thread t.id, inv.slot_of_held held has, .inr (.inr ⟨place, t, rfl, rfl, held, has⟩)⟩
  | building owner => exact ⟨.builder owner, member, .inl ⟨owner, rfl, rfl⟩⟩
  | free => exact ⟨.free, member, .inr (.inl ⟨rfl, rfl⟩)⟩

theorem Machine.Inv.slots_apart (inv : m.Inv) {first second : SlotPlace}
    (one : slot ∈ m.kernel.slots first) (two : slot ∈ m.kernel.slots second) : first = second := by
  obtain ⟨holder, mine, kind⟩ := inv.holder one
  obtain ⟨other, also, kind'⟩ := inv.holder two
  have same := inv.core.slots.apart mine also
  rcases kind with ⟨owner, rfl, rfl⟩ | ⟨rfl, rfl⟩ | ⟨place, t, rfl, rfl, held, -⟩
  · rcases kind' with
      ⟨owner', rfl, rfl⟩ | ⟨rfl, rfl⟩ | ⟨place', u, rfl, rfl, -, -⟩
    · cases same
      rfl
    · cases same
    · cases same
  · rcases kind' with
      ⟨owner', rfl, rfl⟩ | ⟨rfl, rfl⟩ | ⟨place', u, rfl, rfl, -, -⟩
    · cases same
    · rfl
    · cases same
  · rcases kind' with
      ⟨owner', rfl, rfl⟩ | ⟨rfl, rfl⟩ | ⟨place', u, rfl, rfl, held', -⟩
    · cases same
    · cases same
    · have ids : t.id = u.id := by simpa using same
      have here : t.id ∈ m.kernel.ids place := List.mem_map_of_mem held
      have there : u.id ∈ m.kernel.ids place' := List.mem_map_of_mem held'
      rw [inv.sound.conserved.ids_apart here (ids ▸ there)]

theorem Machine.Inv.slots_nodup (inv : m.Inv) (place : SlotPlace) :
    (m.kernel.slots place).Nodup := by
  cases place with
  | building owner => exact inv.core.slots.nodup (.builder owner)
  | free => exact inv.core.slots.nodup .free
  | held place =>
    have distinct : ((m.kernel.holds place).map Thread.id).Nodup :=
      inv.sound.conserved.ids_nodup place
    rw [Kernel.slots, List.Nodup, List.pairwise_filterMap]
    refine List.Pairwise.imp_of_mem ?_ (List.pairwise_map.mp distinct)
    rintro t u held held' apart slot has _ has' rfl
    have same := inv.core.slots.apart (inv.slot_of_held held has) (inv.slot_of_held held' has')
    exact apart (by simpa using same)

theorem Machine.Inv.slots_placed (inv : m.Inv) :
    Placed m.kernel.slots (· < m.kernel.sched.nextSlot) := by
  refine ⟨inv.slots_nodup, inv.slots_apart, fun slot => ?_⟩
  constructor
  · intro below
    obtain ⟨holder, member⟩ := (inv.core.slots.cover slot).mp below
    cases holder with
    | thread id =>
      obtain ⟨place, found⟩ := inv.held_of_slot member
      exact ⟨.held place, found⟩
    | builder owner => exact ⟨.building owner, member⟩
    | free => exact ⟨.free, member⟩
  · rintro ⟨place, member⟩
    obtain ⟨holder, mine, -⟩ := inv.holder member
    exact inv.core.slots.live_of_mem mine

theorem Machine.Inv.covered_iff (inv : m.Inv) {j : Nat} :
    m.Covered slot j ↔ 1 ≤ j ∧ j ≤ stackPages ∧
      ((∃ place, slot ∈ m.kernel.slots (.held place)) ∨
        ∃ owner, slot ∈ m.kernel.slots (.building owner) ∧
          (m.stage owner).Covers j) := by
  refine and_congr_right fun _ => and_congr_right fun _ => ?_
  rw [inv.mem_held]
  constructor
  · rintro ⟨holder, member, covers⟩
    cases holder with
    | thread id => exact .inl ⟨id, member⟩
    | builder owner => exact .inr ⟨owner, member, covers⟩
    | free => cases covers
  · rintro (⟨id, member⟩ | ⟨owner, member, covers⟩)
    · exact ⟨.thread id, member, trivial⟩
    · exact ⟨.builder owner, member, covers⟩

end

/-- In every state of every run, the slots of the held threads, of the threads
under construction and of the free list are distinct and are those below
`next_slot`; only the boot thread has none; the sixteen stack pages of a slot
are mapped exactly while a thread owns it, or as far as `create_thread` has
come; all to distinct frames; and no guard page is ever mapped. -/
theorem stack_slots_sound {map : Physical.MemoryMap} {m : Machine}
    (reachable : MachineReachable map m) :
    Placed m.kernel.slots (· < m.kernel.sched.nextSlot) ∧
    m.kernel.sched.nextSlot ≤ maxSlots ∧
    (∀ place, ∀ t ∈ m.kernel.holds place, t.stackSlot = none ↔ t.id = 0) ∧
    (∀ slot < maxSlots, ∀ j < slotPages,
      (m.pageAt slot j).isSome ↔ 1 ≤ j ∧ j ≤ stackPages ∧
        ((∃ place, slot ∈ m.kernel.slots (.held place)) ∨
          ∃ owner, slot ∈ m.kernel.slots (.building owner) ∧
            (m.stage owner).Covers j)) ∧
    (∀ slot < maxSlots, ∀ j < slotPages, ∀ slot' < maxSlots,
      ∀ j' < slotPages, ∀ frame, m.pageAt slot j = some frame →
        m.pageAt slot' j' = some frame → slot = slot' ∧ j = j') ∧
    ∀ slot < maxSlots, m.pageAt slot 0 = none := by
  have inv := Machine.inv_of_reachable reachable
  have stacked := inv.core.stacked
  refine ⟨inv.slots_placed, inv.core.bound, ?_, ?_, ?_, ?_⟩
  · intro place t held
    rw [(inv.known place t held).1]
    exact inv.slotless t.id (inv.sound.conserved.alive place held).1
  · intro slot inside j within
    rw [← inv.covered_iff]
    exact stacked.pages ⟨slot, inside⟩ ⟨j, within⟩
  · intro slot inside j within slot' inside' j' within' frame one two
    have same := @Placed.apart _ _ _ _ stacked.placed (.page ⟨slot, inside⟩ ⟨j, within⟩) (.page
      ⟨slot', inside'⟩ ⟨j', within'⟩) frame (by simp [Machine.stackFrames, one]) (by simp
      [Machine.stackFrames, two])
    simpa using same
  · intro slot inside
    rw [← Option.not_isSome_iff_eq_none]
    intro mapped
    have covered := (stacked.pages ⟨slot, inside⟩ ⟨0, by decide⟩).mp mapped
    exact absurd covered.1 (by decide)

/-- After `init` the idle thread's stack is mapped, its guard page is not. -/
theorem bare_stack_mapped : ∃ m, MachineReachable bareMap m ∧
    (∃ frame, m.pageAt 0 1 = some frame) ∧ m.pageAt 0 0 = none := by
  obtain ⟨built, initial⟩ := bare_starts 0 100 0
  have reachable : MachineReachable bareMap (built.start 0 100 0) :=
    .start initial
  obtain ⟨-, -, -, pages, -, guard⟩ := stack_slots_sound reachable
  refine ⟨_, reachable, ?_, guard 0 (by decide)⟩
  refine Option.isSome_iff_exists.mp ((pages 0 (by decide) 1 (by decide)).mpr
    ⟨by decide, by decide, .inl ⟨.idle, ?_⟩⟩)
  simp [Kernel.slots, Kernel.holds, Machine.start, boot]

end Eonos.Sched
