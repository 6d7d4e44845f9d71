import Eonos.Sched.Slots
import Eonos.Spaces.Isolation

/-!
# Threads on a machine

The scheduler together with the memory its stacks live in.  A stack is mapped
page by page while other threads run, and unmapped the same way if a frame
cannot be had; reaping happens with interrupts off and is one step.  What the
scheduler has taken is recorded beside the state: no operation reads the
records, they say what other code keeps away from.
-/

namespace Eonos.Sched

open Eonos.Vmm (walk kernelRw)

/-- Page `j` of a slot.  Page zero is the guard. -/
def slotPage (slot j : Nat) : BitVec 64 :=
  BitVec.ofNat 64 (slotBase slot + j * pageSize)

def slotPages : Nat := slotSize / pageSize

/-- Where `create_thread` is once it has its slot. -/
inductive Stage where
  /-- The loop, with `pages` pages mapped. -/
  | mapping (pages : Nat)
  /-- It has the frame for the next page. -/
  | holding (pages : Nat) (frame : BitVec 64)
  /-- `unmap_stack(base, pages)`, with `done` pages unmapped. -/
  | undoing (done pages : Nat)
  /-- It has the frame of the page just unmapped. -/
  | freeing (done pages : Nat) (frame : BitVec 64)
deriving DecidableEq, Repr

structure Machine where
  kernel : Kernel
  sys : Spaces.System
  /-- By thread id. -/
  stage : Nat → Stage
  /-- The slot and the page tables each thread was made with. -/
  slotOf : Nat → Option Nat
  spaceOf : Nat → Option Nat
  /-- Frames taken for stacks and not given back. -/
  frames : List (BitVec 64)
  /-- Address spaces handed to `spawn_user` and not dropped. -/
  given : List (BitVec 64)

inductive Act where
  /-- A section of the scheduler that makes or frees no thread. -/
  | sched (event : Event)
  /-- `spawn`, or `spawn_user` with its address space, up to the reserved
  slot. -/
  | spawn (aspace : Option (BitVec 64))
  /-- `create_thread` asks for a frame, maps it, unmaps it, frees it. -/
  | allocStack
  | mapStack
  | unmapStack
  | freeStack
  | spawnFails
  | spawnBuilt
  | finishSwitch
  /-- Anything else that happens to memory. -/
  | memory (event : Spaces.Event)

/-- The addresses of the stack slots. -/
def InRegion (virt : BitVec 64) : Prop :=
  stackRegion ≤ virt.toNat ∧ virt.toNat < stackRegion + maxSlots * slotSize

instance (virt : BitVec 64) : Decidable (InRegion virt) :=
  inferInstanceAs (Decidable (_ ∧ _))

namespace Machine

variable (m : Machine)

/-- What other code keeps away from: the frames of stacks, the page tables of
threads and the addresses of the stack slots. -/
def Spares : Spaces.Event → Prop
  | .map _ _ frame _ => frame ∉ m.frames
  | .free frame => frame ∉ m.frames
  | .drop space => space ∉ m.given
  | .mapPage virt _ _ => ¬ InRegion virt
  | .unmapPage virt => ¬ InRegion virt
  | _ => True

instance (event : Spaces.Event) : Decidable (m.Spares event) :=
  match event with
  | .map _ _ frame _ | .free frame =>
    inferInstanceAs (Decidable (frame ∉ m.frames))
  | .drop space => inferInstanceAs (Decidable (space ∉ m.given))
  | .mapPage virt _ _ | .unmapPage virt =>
    inferInstanceAs (Decidable (¬ InRegion virt))
  | .create | .unmap _ _ | .protect _ _ _ | .protectPage _ _ | .alloc
  | .allocContiguous _ | .reclaim | .store _ _ =>
    inferInstanceAs (Decidable True)

/-- An address space nobody has handed to a thread. -/
def Available (aspace : Option (BitVec 64)) : Prop :=
  ∀ space ∈ aspace.toList, space ∈ m.sys.spaces ∧ space ∉ m.given

instance (aspace : Option (BitVec 64)) : Decidable (m.Available aspace) :=
  inferInstanceAs (Decidable (∀ space ∈ aspace.toList, _))

def setStage (owner : Nat) (stage : Stage) : Machine :=
  { m with stage := Function.update m.stage owner stage }

/-- `map_page` on a page of a slot. -/
def mapSlot (slot j : Nat) (frame : BitVec 64) : Option Machine :=
  (Vmm.mapPage m.sys.machine.view m.sys.kernel (slotPage slot j) frame
    kernelRw).map fun s => { m with sys := m.sys.onKernel s }

/-- `unmap_page` on a page of a slot. -/
def unmapSlot (slot j : Nat) : Option (Option (BitVec 64) × Machine) :=
  (Vmm.unmapPage m.sys.machine.view m.sys.kernel (slotPage slot j)).map
    fun result => (result.1, { m with sys := m.sys.onKernel result.2 })

/-- A frame of a stack goes back. -/
def freeFrame (frame : BitVec 64) : Machine :=
  { m with sys := m.sys.free frame, frames := m.frames.erase frame }

/-- One round of `unmap_stack` while a thread is reaped. -/
def reapPage (slot : Nat) (m : Machine) (i : Nat) : Option Machine :=
  (m.unmapSlot slot (1 + i)).map fun result =>
    match result.1 with
    | some frame => result.2.freeFrame frame
    | none => result.2

/-- The page tables a thread owns are torn down with it. -/
def dropAspace (aspace : Option Nat) : Machine :=
  match aspace with
  | some space =>
    { m with
      sys := m.sys.dropSpace (BitVec.ofNat 64 space)
      given := m.given.filter (· != BitVec.ofNat 64 space) }
  | none => m

/-- `unmap_stack` on the whole stack of a thread. -/
def reapStack (slot : Option Nat) : Option Machine :=
  match slot with
  | some slot => (List.range stackPages).foldlM (reapPage slot) m
  | none => some m

def freeThread (m : Machine) (t : Thread) : Option Machine :=
  (m.reapStack t.stackSlot).map fun unmapped =>
    { unmapped.dropAspace t.aspace with
      kernel := Sched.freeThread unmapped.kernel t }

def finishSwitch : Option Machine :=
  let dead := m.kernel.sched.zombies
  dead.foldlM freeThread
    { m with kernel := { m.kernel with
      sched := { m.kernel.sched with zombies := [] }
      switched := false } }

/-- The first section of `create_thread` gave `owner` a slot and an id. -/
def reserved (owner slot id : Nat) (sched : Scheduler) (aspace : Option (BitVec 64)) : Machine :=
  { m with
    kernel := { m.kernel with sched }.setDoing owner
      (.creating slot id (aspace.map BitVec.toNat))
    given := aspace.toList ++ m.given }.setStage owner (.mapping 0)

/-- The slot goes back and `spawn_user` keeps its address space. -/
def abandoned (owner slot : Nat) (aspace : Option Nat) : Machine :=
  { m with
    kernel := { m.kernel with sched := { m.kernel.sched with
      freeSlots := slot :: m.kernel.sched.freeSlots } }.setDoing owner .nothing
    given := m.given.filter fun space =>
      aspace.map (BitVec.ofNat 64) != some space }

/-- `create_thread` returned the thread. -/
def built (owner slot id : Nat) (aspace : Option Nat) : Machine :=
  { m with
    kernel := { m.kernel with created := id :: m.kernel.created }.setDoing owner
      (.spawning ⟨id, some slot, 0, false, aspace⟩)
    slotOf := Function.update m.slotOf id (some slot)
    spaceOf := Function.update m.spaceOf id aspace }

/-- A section run by `cur`; none where the source would panic, and for sections
that cannot come up. -/
def perform (cur : Thread) : Act → Option Machine
  | .sched event =>
    if event.isQuiet then
      (Sched.perform m.kernel cur event).map fun kernel => { m with kernel }
    else none
  | .spawn aspace =>
    if m.Available aspace then
      match reserve m.kernel.sched with
      | none => some m
      | some (slot, id, sched) =>
        some (m.reserved cur.id slot id sched aspace)
    else none
  | .allocStack =>
    match m.kernel.doing cur.id, m.stage cur.id with
    | .creating _ _ _, .mapping pages =>
      if pages < stackPages then
        match m.sys.machine.allocFrame with
        | some (frame, _) =>
          some ({ m with
            sys := m.sys.alloc
            frames := frame :: m.frames }.setStage cur.id
              (.holding pages frame))
        | none => some (m.setStage cur.id (.undoing 0 pages))
      else none
    | _, _ => none
  | .mapStack =>
    match m.kernel.doing cur.id, m.stage cur.id with
    | .creating slot _ _, .holding pages frame =>
      (m.mapSlot slot (1 + pages) frame).map fun mapped =>
        mapped.setStage cur.id (.mapping (pages + 1))
    | _, _ => none
  | .unmapStack =>
    match m.kernel.doing cur.id, m.stage cur.id with
    | .creating slot _ _, .undoing done pages =>
      if done < pages then
        (m.unmapSlot slot (1 + done)).map fun result =>
          result.2.setStage cur.id
            (match result.1 with
            | some frame => .freeing done pages frame
            | none => .undoing (done + 1) pages)
      else none
    | _, _ => none
  | .freeStack =>
    match m.kernel.doing cur.id, m.stage cur.id with
    | .creating _ _ _, .freeing done pages frame =>
      some ((m.freeFrame frame).setStage cur.id (.undoing (done + 1) pages))
    | _, _ => none
  | .spawnFails =>
    match m.kernel.doing cur.id, m.stage cur.id with
    | .creating slot _ aspace, .undoing done pages =>
      if done = pages then some (m.abandoned cur.id slot aspace) else none
    | _, _ => none
  | .spawnBuilt =>
    match m.kernel.doing cur.id, m.stage cur.id with
    | .creating slot id aspace, .mapping pages =>
      if pages = stackPages then
        some (m.built cur.id slot id aspace)
      else none
    | _, _ => none
  | .finishSwitch => m.finishSwitch
  | .memory event =>
    if m.Spares event then
      (m.sys.perform event).map fun sys => { m with sys }
    else none

/-- Which sections the running thread can come to.  After a switch the first
is `finish_switch`, before interrupts are back on. -/
def enabled (cur : Thread) : Act → Bool
  | .sched event => Sched.enabled m.kernel cur event
  | .spawn _ => Sched.enabled m.kernel cur (.spawn none)
  | .allocStack | .mapStack | .unmapStack | .freeStack | .spawnFails =>
    Sched.enabled m.kernel cur .spawnFails
  | .spawnBuilt => Sched.enabled m.kernel cur .spawnBuilt
  | .finishSwitch => Sched.enabled m.kernel cur .finishSwitch
  | .memory _ => !m.kernel.switched

def Step (later : Machine) : Prop :=
  ∃ cur act, m.kernel.sched.current = some cur ∧ m.enabled cur act = true ∧
    m.perform cur act = some later

/-- What a page of a slot is mapped to. -/
def pageAt (slot j : Nat) : Option (BitVec 64) :=
  walk m.sys.view m.sys.kernel (slotPage slot j)

end Machine

/-! ### Starting up -/

/-- What `init` makes of the running code. -/
def bootThread : Thread := ⟨0, none, 0, false, none⟩

/-- `create_thread` as `init` calls it, when nothing fails. -/
def initActs : List Act :=
  .spawn none :: (List.replicate stackPages [.allocStack, .mapStack]).flatten

/-- Before `init`: no threads, on a system whose kernel maps nothing in the
stack region. -/
structure Machine.Off (map : Physical.MemoryMap) (m : Machine) : Prop where
  sys : Spaces.Reachable map m.sys
  sched : m.kernel.sched = .new
  doing : ∀ owner, m.kernel.doing owner = .nothing
  created : m.kernel.created = []
  freed : m.kernel.freed = []
  unmapped : ∀ slot < maxSlots, ∀ j < slotPages, m.pageAt slot j = none
  slotOf : ∀ id, m.slotOf id = none
  spaceOf : ∀ id, m.spaceOf id = none
  frames : m.frames = []
  given : m.given = []

/-- `init` puts the boot thread and the idle thread in their places. -/
def Machine.start (m : Machine) (ticks hz rsp0 : Nat) : Machine :=
  { m with
    kernel := boot ticks hz rsp0 m.sys.kernel.toNat m.sys.kernel.toNat
    slotOf := Function.update m.slotOf idleId (some 0) }

def MachineInitial (map : Physical.MemoryMap) (m : Machine) : Prop :=
  ∃ (off built : Machine) (ticks hz rsp0 : Nat), off.Off map ∧
    initActs.foldlM (fun m act => m.perform bootThread act) off = some built ∧
    m = built.start ticks hz rsp0

def MachineReachable (map : Physical.MemoryMap) : Machine → Prop :=
  Lib.Reachable (MachineInitial map) Machine.Step

/-! ### The machine runs the scheduler -/

section

variable {m later : Machine} {cur : Thread}

/-- Reaping a page of a stack concerns memory alone. -/
theorem Machine.reapPage_rest {slot i : Nat} (result : Machine.reapPage slot m i = some later) :
    ∃ sys frames, later = { m with sys, frames } ∧
      sys.spaces = m.sys.spaces ∧ sys.kernel = m.sys.kernel := by
  obtain ⟨⟨frame, unmapped⟩, found, rfl⟩ := Option.map_eq_some_iff.mp result
  obtain ⟨⟨taken, s⟩, -, same⟩ := Option.map_eq_some_iff.mp found
  cases same
  cases taken with
  | none => exact ⟨_, _, rfl, rfl, rfl⟩
  | some frame => exact ⟨_, _, rfl, rfl, rfl⟩

theorem Machine.reapStack_kernel {slot : Option Nat}
    (result : m.reapStack slot = some later) : later.kernel = m.kernel := by
  cases slot with
  | none =>
    cases result
    rfl
  | some slot =>
    refine @Lib.foldlM_keeps _ _ (fun now => now.kernel = m.kernel) _ ?_ _ _
      _ rfl result
    intro now i next same reaped
    obtain ⟨sys, frames, rfl, -⟩ := Machine.reapPage_rest reaped
    exact same

theorem Machine.freeThread_kernel {t : Thread} (result : Machine.freeThread m t = some later) :
    later.kernel = Sched.freeThread m.kernel t := by
  obtain ⟨unmapped, found, rfl⟩ := Option.map_eq_some_iff.mp result
  change Sched.freeThread unmapped.kernel t = _
  rw [Machine.reapStack_kernel found]

theorem Machine.freeThreads_kernel (dead : List Thread)
    (result : dead.foldlM Machine.freeThread m = some later) :
    later.kernel = dead.foldl Sched.freeThread m.kernel := by
  induction dead generalizing m with
  | nil =>
    cases result
    rfl
  | cons t rest induction =>
    rw [List.foldlM_cons] at result
    obtain ⟨middle, first, rest⟩ := Option.bind_eq_some_iff.mp result
    rw [induction rest, Machine.freeThread_kernel first, List.foldl_cons]

theorem Machine.finishSwitch_kernel (result : m.finishSwitch = some later) :
    later.kernel = Sched.finishSwitch m.kernel :=
  Machine.freeThreads_kernel _ result

/-- The event of the scheduler an act stands for; none for those that only
concern memory. -/
def Act.event (act : Act) : Option Event :=
  match act with
  | .sched event => some event
  | .spawn aspace => some (.spawn (aspace.map BitVec.toNat))
  | .spawnFails => some .spawnFails
  | .spawnBuilt => some .spawnBuilt
  | .finishSwitch => some .finishSwitch
  | .allocStack | .mapStack | .unmapStack | .freeStack | .memory _ => none

/-- Every act is an event of the scheduler or leaves it alone. -/
theorem Machine.perform_kernel {act : Act} (result : m.perform cur act = some later) :
    (∃ event, act.event = some event ∧
        Sched.perform m.kernel cur event = some later.kernel) ∨
      act.event = none ∧ later.kernel = m.kernel := by
  cases act with
  | sched event =>
    obtain ⟨-, result⟩ := Option.ite_none_right_eq_some.mp result
    obtain ⟨kernel, performed, rfl⟩ := Option.map_eq_some_iff.mp result
    exact .inl ⟨event, rfl, performed⟩
  | spawn aspace =>
    simp only [Machine.perform] at result
    obtain ⟨-, result⟩ := Option.ite_none_right_eq_some.mp result
    refine .inl ⟨_, rfl, ?_⟩
    cases reserves : reserve m.kernel.sched with
    | none =>
      rw [reserves] at result
      cases result
      simp only [Sched.perform, reserves]
    | some granted =>
      rw [reserves] at result
      cases result
      simp only [Sched.perform, reserves]
      rfl
  | allocStack =>
    simp only [Machine.perform] at result
    split at result
    case h_2 => cases result
    obtain ⟨-, result⟩ := Option.ite_none_right_eq_some.mp result
    refine .inr ⟨rfl, ?_⟩
    split at result
    · cases result
      rfl
    · cases result
      rfl
  | mapStack =>
    simp only [Machine.perform] at result
    split at result
    case h_2 => cases result
    obtain ⟨mapped, found, rfl⟩ := Option.map_eq_some_iff.mp result
    obtain ⟨s, -, rfl⟩ := Option.map_eq_some_iff.mp found
    exact .inr ⟨rfl, rfl⟩
  | unmapStack =>
    simp only [Machine.perform] at result
    split at result
    case h_2 => cases result
    obtain ⟨-, result⟩ := Option.ite_none_right_eq_some.mp result
    obtain ⟨⟨frame, unmapped⟩, found, rfl⟩ :=
      Option.map_eq_some_iff.mp result
    obtain ⟨⟨taken, s⟩, -, same⟩ := Option.map_eq_some_iff.mp found
    cases same
    exact .inr ⟨rfl, rfl⟩
  | freeStack =>
    simp only [Machine.perform] at result
    split at result
    case h_2 => cases result
    cases result
    exact .inr ⟨rfl, rfl⟩
  | spawnFails =>
    simp only [Machine.perform] at result
    split at result
    case h_2 => cases result
    case h_1 slot id aspace done pages doing stage =>
      obtain ⟨-, result⟩ := Option.ite_none_right_eq_some.mp result
      cases result
      refine .inl ⟨_, rfl, ?_⟩
      simp only [Sched.perform, doing]
      rfl
  | spawnBuilt =>
    simp only [Machine.perform] at result
    split at result
    case h_2 => cases result
    case h_1 slot id aspace pages doing stage =>
      obtain ⟨-, result⟩ := Option.ite_none_right_eq_some.mp result
      cases result
      refine .inl ⟨_, rfl, ?_⟩
      simp only [Sched.perform, doing]
      rfl
  | finishSwitch =>
    refine .inl ⟨_, rfl, ?_⟩
    rw [Machine.finishSwitch_kernel result]
    rfl
  | memory event =>
    obtain ⟨-, result⟩ := Option.ite_none_right_eq_some.mp result
    obtain ⟨sys, -, rfl⟩ := Option.map_eq_some_iff.mp result
    exact .inr ⟨rfl, rfl⟩

theorem Machine.enabled_event {act : Act} {event : Event} (stands : act.event = some event)
    (allowed : m.enabled cur act = true) : Sched.enabled m.kernel cur event = true := by
  cases act with
  | allocStack | mapStack | unmapStack | freeStack => cases stands
  | memory event => cases stands
  | sched event | spawn aspace =>
    cases stands
    exact allowed
  | spawnFails | spawnBuilt | finishSwitch =>
    cases stands
    exact allowed

end

end Eonos.Sched
