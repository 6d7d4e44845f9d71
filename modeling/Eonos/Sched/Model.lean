import Mathlib

/-!
# The thread scheduler

The scheduler of `scheduler.rs`: a preemptive round-robin on a single core.
An event below is one interrupts-off section of the source, so a run may
interleave the sections of all threads with the timer in any order.
-/

namespace Eonos.Sched

def stackRegion : Nat := 0xffffffffa0000000

def slotSize : Nat := 0x20000

def maxSlots : Nat := 512

def stackPages : Nat := 16

def pageSize : Nat := 4096

def timeSliceMs : Nat := 10

structure Thread where
  id : Nat
  /-- Index into the stack region; none for the boot thread. -/
  stackSlot : Option Nat
  wakeAt : Nat
  isIdle : Bool
  /-- Physical address of the thread's own page tables, if it has them. -/
  aspace : Option Nat
  deriving DecidableEq, Repr

structure Scheduler where
  current : Option Thread
  ready : List Thread
  sleeping : List Thread
  idle : Option Thread
  zombies : List Thread
  freeSlots : List Nat
  nextSlot : Nat
  nextId : Nat
  deriving DecidableEq, Repr

/-- `Scheduler::new`; id 0 is the boot thread's. -/
def Scheduler.new : Scheduler :=
  ⟨none, [], [], none, [], [], 0, 1⟩

/-- What a thread is in the middle of between two of its sections. -/
inductive Doing where
  | nothing
  /-- `create_thread` has its slot and id and is mapping the stack. -/
  | creating (slot id : Nat) (aspace : Option Nat)
  /-- `spawn` holds the new thread in its local variable. -/
  | spawning (thread : Thread)
  /-- `wake_one` or `wake_all` holds the threads it took off a queue. -/
  | waking (threads : List Thread)
  deriving DecidableEq, Repr

structure Kernel where
  sched : Scheduler
  /-- The waiters of each wait queue. -/
  waiters : Nat → List Thread
  /-- By thread id. -/
  doing : Nat → Doing
  ticks : Nat
  hz : Nat
  sliceTicks : Nat
  needResched : Bool
  preemptions : Nat
  /-- The stack the processor switches to on entry to ring 0. -/
  rsp0 : Nat
  cr3 : Nat
  kernelCr3 : Nat
  /-- The running thread was just switched to and owes a `finish_switch`. -/
  switched : Bool
  /-- Logs of thread ids, which no operation reads. -/
  created : List Nat
  queued : List Nat
  exited : List Nat
  freed : List Nat

/-- `pit::uptime_ms`. -/
def uptimeMs (k : Kernel) : Nat :=
  if k.hz = 0 then 0 else k.ticks * 1000 / k.hz

def slotBase (slot : Nat) : Nat := stackRegion + slot * slotSize

/-- `Vec::swap_remove`: the last element takes the removed one's place. -/
def swapRemove (threads : List Thread) (i : Nat) : List Thread :=
  match threads.getLast? with
  | none => []
  | some last => (threads.set i last).dropLast

/-- The loop of `wake_sleepers`; `fuel` bounds the iterations left. -/
def wakeLoop (now : Nat) :
    Nat → Nat → List Thread → List Thread → List Thread × List Thread
  | 0, _, sleeping, ready => (sleeping, ready)
  | fuel + 1, i, sleeping, ready =>
    match sleeping[i]? with
    | none => (sleeping, ready)
    | some t =>
      if t.wakeAt ≤ now then
        wakeLoop now fuel i (swapRemove sleeping i) (ready ++ [t])
      else
        wakeLoop now fuel (i + 1) sleeping ready

def wakeSleepers (now : Nat) (s : Scheduler) : Scheduler :=
  if s.sleeping.isEmpty then s
  else
    let (sleeping, ready) :=
      wakeLoop now s.sleeping.length 0 s.sleeping s.ready
    { s with sleeping, ready }

/-- How a thread leaves the processor: `Next` in the source. -/
inductive Next where
  | yield
  | sleep (wakeAt : Nat)
  | exit
  | block (queue : Nat)
  deriving DecidableEq, Repr

/-- The first half of `reschedule`: the current thread goes where `how` says.
None is the first `expect` failing. -/
def parkCurrent (how : Next) (k : Kernel) : Option (Thread × Kernel) :=
  match k.sched.current with
  | none => none
  | some cur =>
    let s := { k.sched with current := none }
    match how with
    | .yield =>
      if cur.isIdle then
        some (cur, { k with sched := { s with idle := some cur } })
      else
        some (cur, { k with sched := { s with ready := s.ready ++ [cur] } })
    | .sleep wakeAt =>
      some (cur, { k with
        sched := { s with sleeping := s.sleeping ++ [{ cur with wakeAt }] } })
    | .exit =>
      some (cur, { k with
        sched := { s with zombies := s.zombies ++ [cur] }
        exited := cur.id :: k.exited })
    | .block queue =>
      some (cur, { k with
        sched := s
        waiters :=
          Function.update k.waiters queue (k.waiters queue ++ [cur]) })

/-- The second half: the head of the ready queue, else the idle thread, becomes
current.  None is the second `expect` failing. -/
def pickNext (k : Kernel) : Option (Thread × Kernel) :=
  match k.sched.ready with
  | next :: ready =>
    some (next, { k with sched := { k.sched with ready, current := some next } })
  | [] =>
    match k.sched.idle with
    | none => none
    | some next =>
      some (next, { k with
        sched := { k.sched with idle := none, current := some next } })

/-- Stack and page tables of the thread that runs next, and whether a switch
takes place: thread boxes are compared by address in the source, by id here. -/
def dispatch (cur next : Thread) (k : Kernel) : Kernel :=
  let rsp0 :=
    match next.stackSlot with
    | some slot => slotBase slot + (1 + stackPages) * pageSize
    | none => k.rsp0
  let wantCr3 := next.aspace.getD k.kernelCr3
  let cr3 := if wantCr3 ≠ 0 ∧ wantCr3 ≠ k.cr3 then wantCr3 else k.cr3
  { k with rsp0, cr3, switched := decide (cur.id ≠ next.id) }

def reschedule (how : Next) (k : Kernel) : Option Kernel := do
  let woken := { k with
    sliceTicks := 0, needResched := false
    sched := wakeSleepers (uptimeMs k) k.sched }
  let (cur, parked) ← parkCurrent how woken
  let (next, picked) ← pickNext parked
  return dispatch cur next picked

/-- `free_thread`: the stack slot goes back and the thread is dropped. -/
def freeThread (k : Kernel) (t : Thread) : Kernel :=
  { k with
    sched := { k.sched with
      freeSlots := t.stackSlot.toList ++ k.sched.freeSlots }
    freed := t.id :: k.freed }

def finishSwitch (k : Kernel) : Kernel :=
  let dead := k.sched.zombies
  dead.foldl freeThread
    { k with sched := { k.sched with zombies := [] }, switched := false }

/-- The first section of `create_thread`: a stack slot and an id. -/
def reserve (s : Scheduler) : Option (Nat × Nat × Scheduler) :=
  match s.freeSlots with
  | slot :: freeSlots =>
    some (slot, s.nextId, { s with freeSlots, nextId := s.nextId + 1 })
  | [] =>
    if s.nextSlot < maxSlots then
      some (s.nextSlot, s.nextId,
        { s with nextSlot := s.nextSlot + 1, nextId := s.nextId + 1 })
    else none

/-- The timer interrupt: `pit::on_tick` and with it `tick`. -/
def tick (k : Kernel) : Kernel :=
  let k := { k with ticks := k.ticks + 1, sliceTicks := k.sliceTicks + 1 }
  let sliceTicks := max (k.hz * timeSliceMs / 1000) 1
  let sleeperDue := k.sched.sleeping.any fun t => t.wakeAt ≤ uptimeMs k
  let sliceOver := decide (sliceTicks ≤ k.sliceTicks) && !k.sched.ready.isEmpty
  if sleeperDue || sliceOver then { k with needResched := true } else k

def preemptIfNeeded (k : Kernel) : Option Kernel :=
  if k.needResched then
    reschedule .yield
      { k with needResched := false, preemptions := k.preemptions + 1 }
  else some k

def Kernel.setDoing (k : Kernel) (owner : Nat) (doing : Doing) : Kernel :=
  { k with doing := Function.update k.doing owner doing }

/-- One interrupts-off section of the running thread or of the timer. -/
inductive Event where
  /-- `spawn` or `spawn_user`, up to the reserved slot and id. -/
  | spawn (aspace : Option Nat)
  /-- `create_thread` found no frame for the stack: the slot goes back. -/
  | spawnFails
  /-- `create_thread` returned the new thread. -/
  | spawnBuilt
  /-- `spawn` puts the new thread on the ready queue. -/
  | spawnQueues
  | yieldNow
  | sleepMs (ms : Nat)
  | exit
  /-- `wait`, or one round of `wait_until` whose condition was false. -/
  | wait (queue : Nat)
  /-- `wake_one` takes a thread off the queue. -/
  | wakeOne (queue : Nat)
  /-- `wake_all` takes every thread off the queue. -/
  | wakeAll (queue : Nat)
  /-- Either of them puts what it took on the ready queue. -/
  | wakeQueues
  | tick
  | preemptIfNeeded
  | finishSwitch
  deriving DecidableEq, Repr

/-- Which sections the running thread `cur` can come to next.  After a switch
the first is `finish_switch`; the timer may strike anywhere else; the idle
thread only ever yields. -/
def enabled (k : Kernel) (cur : Thread) : Event → Bool
  | .finishSwitch => k.switched
  | .tick | .preemptIfNeeded => !k.switched
  | .yieldNow => !k.switched && k.doing cur.id = .nothing
  | .spawn _ | .sleepMs _ | .exit | .wait _ | .wakeOne _ | .wakeAll _ =>
    !k.switched && !cur.isIdle && k.doing cur.id = .nothing
  | .spawnFails | .spawnBuilt =>
    !k.switched &&
      match k.doing cur.id with
      | .creating .. => true
      | _ => false
  | .spawnQueues =>
    !k.switched &&
      match k.doing cur.id with
      | .spawning _ => true
      | _ => false
  | .wakeQueues =>
    !k.switched &&
      match k.doing cur.id with
      | .waking _ => true
      | _ => false

/-- The effect of a section run by `cur`; none where the source would panic. -/
def perform (k : Kernel) (cur : Thread) : Event → Option Kernel
  | .spawn aspace =>
    match reserve k.sched with
    | none => some k
    | some (slot, id, sched) =>
      some ({ k with sched }.setDoing cur.id (.creating slot id aspace))
  | .spawnFails =>
    match k.doing cur.id with
    | .creating slot _ _ =>
      some ({ k with sched := { k.sched with
        freeSlots := slot :: k.sched.freeSlots } }.setDoing cur.id .nothing)
    | _ => some k
  | .spawnBuilt =>
    match k.doing cur.id with
    | .creating slot id aspace =>
      some ({ k with created := id :: k.created }.setDoing cur.id
        (.spawning ⟨id, some slot, 0, false, aspace⟩))
    | _ => some k
  | .spawnQueues =>
    match k.doing cur.id with
    | .spawning t =>
      some ({ k with
        sched := { k.sched with ready := k.sched.ready ++ [t] }
        queued := t.id :: k.queued }.setDoing cur.id .nothing)
    | _ => some k
  | .yieldNow => reschedule .yield k
  | .sleepMs ms => reschedule (.sleep ((uptimeMs k + ms) % 2 ^ 64)) k
  | .exit => reschedule .exit k
  | .wait queue => reschedule (.block queue) k
  | .wakeOne queue =>
    match k.waiters queue with
    | [] => some k
    | t :: rest =>
      some ({ k with waiters := Function.update k.waiters queue rest }.setDoing
        cur.id (.waking [t]))
  | .wakeAll queue =>
    match k.waiters queue with
    | [] => some k
    | t :: rest =>
      some ({ k with waiters := Function.update k.waiters queue [] }.setDoing
        cur.id (.waking (t :: rest)))
  | .wakeQueues =>
    match k.doing cur.id with
    | .waking threads =>
      some ({ k with sched := { k.sched with
        ready := k.sched.ready ++ threads } }.setDoing cur.id .nothing)
    | _ => some k
  | .tick => some (tick k)
  | .preemptIfNeeded => preemptIfNeeded k
  | .finishSwitch => some (finishSwitch k)

/-- The id `create_thread` gives the idle thread in `init`. -/
def idleId : Nat := 1

/-- The kernel as `init` leaves it: the boot thread runs, the idle thread is in
its slot, and the clock, page tables and entry stack are as boot set them. -/
def boot (ticks hz rsp0 cr3 kernelCr3 : Nat) : Kernel where
  sched := { Scheduler.new with
    current := some ⟨0, none, 0, false, none⟩
    idle := some ⟨idleId, some 0, 0, true, none⟩
    nextSlot := 1
    nextId := 2 }
  waiters := fun _ => []
  doing := fun _ => .nothing
  ticks := ticks
  hz := hz
  sliceTicks := 0
  needResched := false
  preemptions := 0
  rsp0 := rsp0
  cr3 := cr3
  kernelCr3 := kernelCr3
  switched := false
  created := [0, idleId]
  queued := [0, idleId]
  exited := []
  freed := []

end Eonos.Sched
