import Eonos.Blocking.WaitQueue

/-!
# Locks around block devices

File-system calls hold `MOUNTS`, an `IrqMutex`, while they reach a device, so
the timer cannot take the processor from them.  The lock of an NVMe queue or of
an AHCI port is a plain spin lock, and listing or mounting block devices takes
it with interrupts on.  A call is cut where it takes or gives back a lock.
-/

namespace Eonos.Block.Locks

open Eonos.Sched Eonos.Blocking

/-- `read_sector`, `write_sector` or `flush` of a device. -/
inductive Access where
  | idle
  /-- `queue.lock()`, not taken yet. -/
  | spinning (device : Nat)
  /-- Holding the lock, waiting for the device. -/
  | inside (device : Nat)
deriving DecidableEq, Repr

inductive Phase where
  | outside
  /-- In `sys_list_block_devices` or `Fat32::mount`, without `MOUNTS`. -/
  | probing (access : Access)
  /-- `MOUNTS.lock()` with interrupts already off, for a call that goes on to
  reach `devices`; `back` says that it was made while probing. -/
  | entering (devices : List Nat) (back : Bool)
  /-- Holding `MOUNTS`. -/
  | filesystem (devices : List Nat) (back : Bool) (access : Access)
deriving DecidableEq, Repr

/-- Between `irq_save` and `irq_restore` of the `IrqMutex`. -/
def Phase.irqOff : Phase → Bool
  | .entering .. | .filesystem .. => true
  | _ => false

/-- Where a call that held `MOUNTS` returns to. -/
def Phase.after (back : Bool) : Phase :=
  if back then .probing .idle else .outside

structure State where
  kernel : Kernel
  phase : Nat → Phase
  /-- The holders of the locks. -/
  mounts : Option Nat
  queues : Nat → Option Nat

inductive Event where
  | startProbe
  | endProbe
  /-- `MOUNTS.lock()`, up to the spin. -/
  | enter (devices : List Nat)
  | lockMounts
  | unlockMounts
  /-- `queue.lock()`, up to the spin. -/
  | access (device : Nat)
  | lockQueue
  | unlockQueue
  /-- A section of the scheduler. -/
  | other (event : Sched.Event)
deriving DecidableEq, Repr

def State.setPhase (s : State) (id : Nat) (phase : Phase) : State :=
  { s with phase := Function.update s.phase id phase }

/-- A section of a call, run by the thread `id`; none if it is not at one. -/
def act (s : State) (id : Nat) : Event → Option State
  | .startProbe =>
    match s.phase id with
    | .outside => some (s.setPhase id (.probing .idle))
    | _ => none
  | .endProbe =>
    match s.phase id with
    | .probing .idle => some (s.setPhase id .outside)
    | _ => none
  | .enter devices =>
    match s.phase id with
    | .outside => some (s.setPhase id (.entering devices false))
    | .probing .idle => some (s.setPhase id (.entering devices true))
    | _ => none
  | .lockMounts =>
    match s.phase id, s.mounts with
    | .entering devices back, none =>
      some ({ s with mounts := some id }.setPhase id
        (.filesystem devices back .idle))
    | _, _ => none
  | .unlockMounts =>
    match s.phase id with
    | .filesystem _ back .idle =>
      some ({ s with mounts := none }.setPhase id (.after back))
    | _ => none
  | .access device =>
    match s.phase id with
    | .probing .idle => some (s.setPhase id (.probing (.spinning device)))
    | .filesystem devices back .idle =>
      if device ∈ devices then
        some (s.setPhase id (.filesystem devices back (.spinning device)))
      else none
    | _ => none
  | .lockQueue =>
    match s.phase id with
    | .probing (.spinning device) =>
      if s.queues device = none then
        some ({ s with
          queues := Function.update s.queues device (some id) }.setPhase id
            (.probing (.inside device)))
      else none
    | .filesystem devices back (.spinning device) =>
      if s.queues device = none then
        some ({ s with
          queues := Function.update s.queues device (some id) }.setPhase id
            (.filesystem devices back (.inside device)))
      else none
    | _ => none
  | .unlockQueue =>
    match s.phase id with
    | .probing (.inside device) =>
      some ({ s with
        queues := Function.update s.queues device none }.setPhase id
          (.probing .idle))
    | .filesystem devices back (.inside device) =>
      some ({ s with
        queues := Function.update s.queues device none }.setPhase id
          (.filesystem devices back .idle))
    | _ => none
  | .other _ => none

/-- The running thread comes to a section; none if it cannot.  With interrupts
off neither the timer nor another thread gets the processor. -/
def next (s : State) (event : Event) : Option State :=
  match s.kernel.sched.current with
  | none => none
  | some cur =>
    match event with
    | .other section_ =>
      if Sched.enabled s.kernel cur section_ &&
          !(s.phase cur.id).irqOff &&
          (interrupts section_ || s.phase cur.id = .outside) then
        (perform s.kernel cur section_).map fun kernel =>
          { s with kernel }
      else none
    | event => if free s.kernel cur then act s cur.id event else none

def Step (s later : State) : Prop := ∃ event, next s event = some later

/-- No call is under way and every lock is free. -/
def Initial (s : State) : Prop :=
  Sched.Reachable s.kernel ∧ (∀ id, s.phase id = .outside) ∧
    s.mounts = none ∧ ∀ device, s.queues device = none

def Reachable : State → Prop := Lib.Reachable Initial Step

def Running (s : State) (id : Nat) : Prop :=
  ∃ cur, s.kernel.sched.current = some cur ∧ cur.id = id

/-- A thread that spins with interrupts off spins on a lock of the running
thread, if it is held at all. -/
def SpinsSafely (s : State) : Prop :=
  (∀ id devices back holder, s.phase id = .entering devices back →
    s.mounts = some holder → Running s holder) ∧
  ∀ id devices back device holder,
    s.phase id = .filesystem devices back (.spinning device) →
    s.queues device = some holder → Running s holder

/-- No file-system call starts while another thread is inside one of the
devices the call is going to reach. -/
def Clear (s : State) : Event → Prop
  | .enter devices => ∀ device ∈ devices, s.queues device = none
  | _ => True

/-- Runs in which every file-system call starts clear of its devices. -/
def ClearlyReachable : State → Prop :=
  Lib.Reachable Initial fun s later =>
    ∃ event, next s event = some later ∧ Clear s event

/-- The devices a call that holds or wants `MOUNTS` goes on to reach. -/
def Phase.devices : Phase → List Nat
  | .entering devices _ | .filesystem devices _ _ => devices
  | _ => []

structure Inv (s : State) : Prop where
  running : ∀ id, (s.phase id).irqOff = true → Running s id
  mounted : ∀ holder, s.mounts = some holder →
    (s.phase holder).irqOff = true
  clear : ∀ id, ∀ device ∈ (s.phase id).devices,
    s.queues device = none ∨ s.queues device = some id
  listed : ∀ id devices back device,
    s.phase id = .filesystem devices back (.spinning device) →
      device ∈ devices

theorem Inv.safe {s : State} (inv : Inv s) : SpinsSafely s := by
  constructor
  · intro id devices back holder _ mounts
    exact inv.running holder (inv.mounted holder mounts)
  · intro id devices back device holder phase held
    have member : device ∈ (s.phase id).devices := by
      rw [phase]
      exact inv.listed id devices back device phase
    rcases inv.clear id device member with none | own
    · cases none.symm.trans held
    · cases own.symm.trans held
      exact inv.running id (by rw [phase]; rfl)

theorem inv_initial {s : State} (initial : Initial s) : Inv s := by
  obtain ⟨-, outside, mounts, queues⟩ := initial
  constructor
  · intro id off
    rw [outside id] at off
    cases off
  · intro holder held
    rw [mounts] at held
    cases held
  · intro id device _
    exact .inl (queues device)
  · intro id devices back device phase
    rw [outside id] at phase
    cases phase

section

variable {s : State} {cur : Thread}

/-- Only the running thread can have interrupts off. -/
theorem Inv.alone (inv : Inv s) (current : s.kernel.sched.current = some cur)
    {id : Nat} (off : (s.phase id).irqOff = true) : id = cur.id := by
  obtain ⟨running, same, rfl⟩ := inv.running id off
  rw [current] at same
  cases same
  rfl

theorem Phase.irqOff_of_device {phase : Phase} {device : Nat}
    (member : device ∈ phase.devices) : phase.irqOff = true := by
  cases phase with
  | outside => cases member
  | probing access => cases member
  | entering devices back => rfl
  | filesystem devices back access => rfl

/-- What a section of the running thread must respect. -/
theorem inv_update (inv : Inv s) (current : s.kernel.sched.current = some cur) {mounts : Option Nat}
    {queues : Nat → Option Nat} {phase : Phase}
    (mounted : ∀ holder, mounts = some holder → holder = cur.id ∧ phase.irqOff = true)
    (clear : ∀ device ∈ phase.devices, queues device = none ∨ queues device = some cur.id)
    (listed : ∀ devices back device,
      phase = .filesystem devices back (.spinning device) →
        device ∈ devices) : Inv ({ s with mounts, queues }.setPhase cur.id phase) := by
  have here : ({ s with mounts, queues }.setPhase cur.id phase).phase cur.id =
      phase := Function.update_self _ _ _
  have there : ∀ {id}, id ≠ cur.id → ({ s with mounts, queues }.setPhase cur.id phase).phase id =
        s.phase id := fun other => Function.update_of_ne other _ _
  constructor
  · intro id off
    by_cases same : id = cur.id
    · exact ⟨cur, current, same.symm⟩
    · rw [there same] at off
      exact absurd (inv.alone current off) same
  · intro holder held
    obtain ⟨rfl, off⟩ := mounted holder held
    rw [here]
    exact off
  · intro id device member
    by_cases same : id = cur.id
    · subst same
      rw [here] at member
      exact clear device member
    · rw [there same] at member
      exact absurd (inv.alone current (Phase.irqOff_of_device member)) same
  · intro id devices back device spins
    by_cases same : id = cur.id
    · subst same
      rw [here] at spins
      exact listed devices back device spins
    · rw [there same] at spins
      exact absurd (inv.alone current (by rw [spins]; rfl)) same

/-- Locks that are not touched stay with the running thread or are free. -/
theorem Inv.mounts_own (inv : Inv s) (current : s.kernel.sched.current = some cur) {holder : Nat}
    (held : s.mounts = some holder) : holder = cur.id :=
  inv.alone current (inv.mounted holder held)

/-- A thread with interrupts on holds no `MOUNTS`, and nobody else does. -/
theorem Inv.mounts_free (inv : Inv s) (current : s.kernel.sched.current = some cur)
    (on : (s.phase cur.id).irqOff = false) {holder : Nat} : s.mounts ≠ some holder := by
  intro held
  have off := inv.mounted holder held
  rw [inv.mounts_own current held, on] at off
  cases off

theorem inv_act {later : State} {event : Event} (inv : Inv s)
    (current : s.kernel.sched.current = some cur) (clear : Clear s event)
    (acted : act s cur.id event = some later) : Inv later := by
  have own : ∀ holder, s.mounts = some holder → holder = cur.id :=
    fun _ held => inv.mounts_own current held
  cases event with
  | startProbe =>
    simp only [act] at acted
    split at acted
    · rename_i phase
      cases acted
      refine inv_update inv current ?_ ?_ ?_
      · intro holder held
        exact absurd held (inv.mounts_free current (by rw [phase]; rfl))
      · intro device member
        cases member
      · intro devices back device spins
        cases spins
    · cases acted
  | endProbe =>
    simp only [act] at acted
    split at acted
    · rename_i phase
      cases acted
      refine inv_update inv current ?_ ?_ ?_
      · intro holder held
        exact absurd held (inv.mounts_free current (by rw [phase]; rfl))
      · intro device member
        cases member
      · intro devices back device spins
        cases spins
    · cases acted
  | enter devices =>
    simp only [act] at acted
    split at acted
    · cases acted
      refine inv_update inv current (fun holder held => ⟨own holder held, rfl⟩) ?_ ?_
      · intro device member
        exact .inl (clear device member)
      · intro devices back device spins
        cases spins
    · cases acted
      refine inv_update inv current (fun holder held => ⟨own holder held, rfl⟩) ?_ ?_
      · intro device member
        exact .inl (clear device member)
      · intro devices back device spins
        cases spins
    · cases acted
  | lockMounts =>
    simp only [act] at acted
    split at acted
    · rename_i devices back phase free
      cases acted
      refine inv_update inv current ?_ ?_ ?_
      · intro holder held
        exact ⟨(Option.some.inj held).symm, rfl⟩
      · intro device member
        exact inv.clear cur.id device (by rw [phase]; exact member)
      · intro devices back device spins
        cases spins
    · cases acted
  | unlockMounts =>
    simp only [act] at acted
    split at acted
    · rename_i devices back phase
      cases acted
      refine inv_update inv current ?_ ?_ ?_
      · intro holder held
        cases held
      · intro device member
        cases back <;> cases member
      · intro devices back' device spins
        cases back <;> cases spins
    · cases acted
  | access device =>
    simp only [act] at acted
    split at acted
    · rename_i phase
      cases acted
      refine inv_update inv current ?_ ?_ ?_
      · intro holder held
        exact absurd held (inv.mounts_free current (by rw [phase]; rfl))
      · intro device member
        cases member
      · intro devices back device spins
        cases spins
    · rename_i devices back phase
      split at acted
      · rename_i reaches
        cases acted
        refine inv_update inv current (fun holder held => ⟨own holder held, rfl⟩) ?_ ?_
        · intro other member
          exact inv.clear cur.id other (by rw [phase]; exact member)
        · intro devices back device spins
          cases spins
          exact reaches
      · cases acted
    · cases acted
  | lockQueue =>
    simp only [act] at acted
    split at acted
    · rename_i device phase
      split at acted
      · cases acted
        refine inv_update inv current ?_ ?_ ?_
        · intro holder held
          exact absurd held (inv.mounts_free current (by rw [phase]; rfl))
        · intro device member
          cases member
        · intro devices back device spins
          cases spins
      · cases acted
    · rename_i devices back device phase
      split at acted
      · cases acted
        refine inv_update inv current (fun holder held => ⟨own holder held, rfl⟩) ?_ ?_
        · intro other member
          by_cases same : other = device
          · subst same
            exact .inr (Function.update_self _ _ _)
          · rw [Function.update_of_ne same]
            exact inv.clear cur.id other (by rw [phase]; exact member)
        · intro devices back device spins
          cases spins
      · cases acted
    · cases acted
  | unlockQueue =>
    simp only [act] at acted
    split at acted
    · rename_i device phase
      cases acted
      refine inv_update inv current ?_ ?_ ?_
      · intro holder held
        exact absurd held (inv.mounts_free current (by rw [phase]; rfl))
      · intro device member
        cases member
      · intro devices back device spins
        cases spins
    · rename_i devices back device phase
      cases acted
      refine inv_update inv current (fun holder held => ⟨own holder held, rfl⟩) ?_ ?_
      · intro other member
        by_cases same : other = device
        · subst same
          exact .inl (Function.update_self _ _ _)
        · rw [Function.update_of_ne same]
          exact inv.clear cur.id other (by rw [phase]; exact member)
      · intro devices back device spins
        cases spins
    · cases acted
  | other event => cases acted

/-- The scheduler runs only while interrupts are on everywhere, so whoever is
next starts with no lock of the `IrqMutex` kind held. -/
theorem inv_other {kernel : Kernel} (inv : Inv s) (current : s.kernel.sched.current = some cur)
    (on : (s.phase cur.id).irqOff = false) : Inv { s with kernel } := by
  have allOn : ∀ id, (s.phase id).irqOff ≠ true := by
    intro id off
    rw [inv.alone current off, on] at off
    cases off
  constructor
  · intro id off
    exact absurd off (allOn id)
  · exact inv.mounted
  · exact inv.clear
  · exact inv.listed

end

theorem inv_step {s later : State} {event : Event} (inv : Inv s) (clear : Clear s event)
    (taken : next s event = some later) : Inv later := by
  unfold next at taken
  split at taken
  · cases taken
  · rename_i cur current
    split at taken
    · split at taken
      · rename_i allowed
        obtain ⟨kernel, -, rfl⟩ := Option.map_eq_some_iff.mp taken
        simp only [Bool.and_eq_true, Bool.not_eq_true'] at allowed
        exact inv_other inv current allowed.1.2
      · cases taken
    · split at taken
      · exact inv_act inv current clear taken
      · cases taken

/-- While every file-system call starts clear of the devices it reaches, no
thread ever spins with interrupts off on a lock of a thread that is not
running. -/
theorem clearlyReachable_spins_safely {s : State}
    (reachable : ClearlyReachable s) : SpinsSafely s := by
  apply Inv.safe
  refine Lib.Reachable.invariant ?_ ?_ reachable
  · intro state initial
    exact inv_initial initial
  · rintro state later inv ⟨event, taken, clear⟩
    exact inv_step inv clear taken

/-- No call under way as the scheduler starts. -/
def fresh : State := ⟨boot 0 100 0 0 0, fun _ => .outside, none, fun _ => none⟩

theorem fresh_initial : Initial fresh :=
  ⟨Lib.Reachable.start ⟨0, 100, 0, 0, 0, rfl⟩, fun _ => rfl, rfl, fun _ => rfl⟩

/-- A file is read from device 0 right away. -/
def readEvents : List Event :=
  [.enter [0], .lockMounts, .access 0]

theorem readEvents_spins_safely :
    ∃ s, readEvents.foldlM next fresh = some s ∧
      s.phase 0 = .filesystem [0] false (.spinning 0) ∧ SpinsSafely s := by
  obtain ⟨first, second, s, one, two, three, phase⟩ : ∃ first second s,
      next fresh (.enter [0]) = some first ∧
        next first .lockMounts = some second ∧
        next second (.access 0) = some s ∧
        s.phase 0 = .filesystem [0] false (.spinning 0) :=
    ⟨_, _, _, rfl, rfl, rfl, rfl⟩
  have start : ClearlyReachable fresh := Lib.Reachable.start fresh_initial
  have entered : ClearlyReachable first :=
    Lib.Reachable.next start ⟨_, one, fun _ _ => rfl⟩
  have mounted : ClearlyReachable second :=
    Lib.Reachable.next entered ⟨_, two, trivial⟩
  have reading : ClearlyReachable s :=
    Lib.Reachable.next mounted ⟨_, three, trivial⟩
  refine ⟨s, ?_, phase, clearlyReachable_spins_safely reading⟩
  simp [readEvents, List.foldlM, one, two, three]

/-- The boot thread is preempted inside a device it is listing, and the next
thread reads a file from that device. -/
def listEvents : List Event :=
  [.other (.spawn none), .other .spawnBuilt, .other .spawnQueues, .startProbe,
    .access 0, .lockQueue, .other .tick, .other .preemptIfNeeded,
    .other .finishSwitch, .enter [0], .lockMounts, .access 0]

theorem listEvents_spin_on_preempted :
    ∃ s, Reachable s ∧ s.phase 2 = .filesystem [0] false (.spinning 0) ∧
      s.queues 0 = some 0 ∧ Running s 2 ∧ ¬ Running s 0 ∧ ¬ SpinsSafely s := by
  obtain ⟨s, cur, ran, phase, held, current, id⟩ : ∃ s cur,
      listEvents.foldlM next fresh = some s ∧
        s.phase 2 = .filesystem [0] false (.spinning 0) ∧
        s.queues 0 = some 0 ∧ s.kernel.sched.current = some cur ∧
        cur.id = 2 :=
    ⟨_, _, rfl, rfl, rfl, rfl, rfl⟩
  have start : Reachable fresh := Lib.Reachable.start fresh_initial
  have reachable : Reachable s := Lib.Reachable.run
    (fun _ event _ taken => ⟨event, taken⟩) listEvents start ran
  have stopped : ¬ Running s 0 := by
    rintro ⟨other, same, zero⟩
    rw [current] at same
    cases same
    omega
  refine ⟨s, reachable, phase, held, ⟨cur, current, id⟩, stopped, ?_⟩
  intro safe
  exact stopped (safe.2 2 [0] false 0 0 phase held)

end Eonos.Block.Locks
