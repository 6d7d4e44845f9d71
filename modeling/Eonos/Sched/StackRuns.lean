import Eonos.Sched.Handover

/-!
# Stacks over whole runs

Every section keeps the slots, the stacks and the address spaces of threads in
order, so they are in order in every state a run reaches.
-/

namespace Eonos.Sched

open Eonos.Lib

/-- The sections in the loops of `create_thread`. -/
def Act.OnStack : Act → Prop
  | .allocStack | .mapStack | .unmapStack | .freeStack => True
  | _ => False

namespace Machine

structure Inv (m : Machine) : Prop where
  sound : Sound m.kernel
  core : m.Core
  /-- A thread has what it was made with. -/
  known : ∀ place, ∀ t ∈ m.kernel.holds place,
    t.stackSlot = m.slotOf t.id ∧ t.aspace = m.spaceOf t.id
  booted : 0 ∈ m.kernel.created
  slotless : ∀ id ∈ m.kernel.created, m.slotOf id = none ↔ id = 0

section

variable {m later : Machine} {cur : Thread}

theorem Inv.known_later (inv : m.Inv) {kernel : Kernel} (inherits : Inherits m.kernel kernel) :
    ∀ place, ∀ t ∈ kernel.holds place, t.stackSlot = m.slotOf t.id ∧ t.aspace = m.spaceOf t.id := by
  intro place t member
  obtain ⟨other, u, held, same⟩ := inherits place t member
  obtain ⟨slot, space⟩ := inv.known other u held
  simp only [Thread.card, Prod.mk.injEq] at same
  rw [← same.1, ← same.2.1, ← same.2.2]
  exact ⟨slot, space⟩

/-- A section that makes no thread. -/
theorem Inv.after (inv : m.Inv) (sound : Sound later.kernel) (core : later.Core)
    (inherits : Inherits m.kernel later.kernel) (created : later.kernel.created = m.kernel.created)
    (slotOf : later.slotOf = m.slotOf) (spaceOf : later.spaceOf = m.spaceOf) : later.Inv := by
  refine ⟨sound, core, ?_, created ▸ inv.booted, ?_⟩
  · rw [slotOf, spaceOf]
    exact inv.known_later inherits
  · rw [created, slotOf]
    exact inv.slotless

/-- The sections of `create_thread` move no thread. -/
theorem setDoing_inherits {k : Kernel} {owner : Nat} {doing : Doing}
    (nothing : doing.woken = [] ∧ doing.spawned = []) : Inherits k (k.setDoing owner doing) := by
  intro place t member
  refine ⟨place, t, ?_, rfl⟩
  cases place with
  | waking other =>
    by_cases same : other = owner
    · subst same
      simp [Kernel.holds, setDoing_self, nothing.1] at member
    · simpa [Kernel.holds, setDoing_doing, same] using member
  | spawning other =>
    by_cases same : other = owner
    · subst same
      simp [Kernel.holds, setDoing_self, nothing.2] at member
    · simpa [Kernel.holds, setDoing_doing, same] using member
  | _ => exact member

/-- The scheduler's tables apart, nothing that holds threads changes. -/
theorem sched_inherits {k : Kernel} {sched : Scheduler} (current : sched.current = k.sched.current)
    (ready : sched.ready = k.sched.ready) (sleeping : sched.sleeping = k.sched.sleeping)
    (idle : sched.idle = k.sched.idle) (zombies : sched.zombies ⊆ k.sched.zombies) :
    Inherits k { k with sched } := by
  intro place t member
  refine ⟨place, t, ?_, rfl⟩
  cases place with
  | current => simpa [Kernel.holds, current] using member
  | ready => simpa [Kernel.holds, ready] using member
  | sleeping => simpa [Kernel.holds, sleeping] using member
  | idle => simpa [Kernel.holds, idle] using member
  | zombies => exact zombies member
  | _ => exact member

theorem reserve_sched {s sched : Scheduler} {slot id : Nat}
    (reserves : reserve s = some (slot, id, sched)) :
    ∃ freeSlots nextSlot, sched = { s with freeSlots, nextSlot, nextId := s.nextId + 1 } := by
  unfold reserve at reserves
  split at reserves
  · cases reserves
    exact ⟨_, _, rfl⟩
  · split at reserves
    · cases reserves
      exact ⟨_, _, rfl⟩
    · cases reserves

/-- `finish_switch` never fails. -/
theorem Inv.finishSwitch (inv : m.Inv) :
    ∃ later, m.finishSwitch = some later ∧ later.Inv ∧ later.sys.kernel = m.sys.kernel := by
  obtain ⟨slots, shape⟩ := finishSwitch_shape m.kernel
  have start : ({ m with kernel := { m.kernel with
      sched := { m.kernel.sched with zombies := [] }
      switched := false } } : Machine).Core := by
    refine inv.core.quiet ⟨?_, Iff.rfl, rfl, rfl, rfl, rfl, rfl⟩
    intro place t member
    refine ⟨place, t, ?_, rfl⟩
    cases place with
    | zombies => cases member
    | _ => exact member
  have lives : ∀ t ∈ m.kernel.sched.zombies, m.kernel.Lives t.id := by
    intro t member
    have alive := inv.sound.conserved.alive .zombies member
    exact ⟨alive.1, alive.2.1⟩
  obtain ⟨later, result, core, slotOf, spaceOf, root⟩ :=
    start.freeThreads m.kernel.sched.zombies lives
      (inv.sound.conserved.ids_nodup .zombies)
      fun t member => inv.known .zombies t member
  have kernel := finishSwitch_kernel result
  refine ⟨later, result, inv.after ?_ core ?_ ?_ slotOf spaceOf, root⟩
  · rw [kernel]
    exact finishSwitch_sound inv.sound
  · rw [kernel, shape]
    intro place t member
    refine ⟨place, t, ?_, rfl⟩
    cases place with
    | zombies => cases member
    | _ => exact member
  · rw [kernel, shape]

/-- The loops of `create_thread`. -/
theorem Core.onStack (core : m.Core) {act : Act}
    (result : m.perform cur act = some later) (kind : act.OnStack) :
    later.Core ∧ later.kernel = m.kernel ∧ later.slotOf = m.slotOf ∧
      later.spaceOf = m.spaceOf ∧ later.sys.kernel = m.sys.kernel := by
  cases act with
  | allocStack =>
    simp only [Machine.perform] at result
    split at result
    case h_2 => cases result
    case h_1 slot id aspace pages doing stage =>
      obtain ⟨more, result⟩ := Option.ite_none_right_eq_some.mp result
      obtain ⟨taken, turned⟩ := core.allocStack doing stage more
      split at result
      case h_1 frame rest granted =>
        cases result
        refine ⟨taken granted, rfl, rfl, rfl, ?_⟩
        change m.sys.alloc.kernel = m.sys.kernel
        rw [Spaces.System.alloc, granted]
        rfl
      case h_2 =>
        cases result
        exact ⟨turned, rfl, rfl, rfl, rfl⟩
  | mapStack =>
    simp only [Machine.perform] at result
    split at result
    case h_2 => cases result
    case h_1 slot id aspace pages frame doing stage =>
      obtain ⟨mapped, found, rfl⟩ := Option.map_eq_some_iff.mp result
      have after := core.mapStack doing stage found
      obtain ⟨s, -, rfl⟩ := Option.map_eq_some_iff.mp found
      exact ⟨after, rfl, rfl, rfl, rfl⟩
  | unmapStack =>
    simp only [Machine.perform] at result
    split at result
    case h_2 => cases result
    case h_1 slot id aspace done pages doing stage =>
      obtain ⟨more, result⟩ := Option.ite_none_right_eq_some.mp result
      obtain ⟨⟨taken, unmapped⟩, found, rfl⟩ :=
        Option.map_eq_some_iff.mp result
      obtain ⟨frame, rfl, after⟩ := core.unmapStack doing stage more found
      obtain ⟨⟨_, s⟩, -, same⟩ := Option.map_eq_some_iff.mp found
      cases same
      exact ⟨after, rfl, rfl, rfl, rfl⟩
  | freeStack =>
    simp only [Machine.perform] at result
    split at result
    case h_2 => cases result
    case h_1 slot id aspace done pages frame doing stage =>
      cases result
      exact ⟨core.freeStack doing stage, rfl, rfl, rfl, rfl⟩
  | _ => cases kind

theorem Inv.spawnBuilt (inv : m.Inv) {owner slot id : Nat} {aspace : Option Nat}
    (sound : Sound (m.built owner slot id aspace).kernel)
    (doing : m.kernel.doing owner = .creating slot id aspace)
    (stage : m.stage owner = .mapping stackPages) : (m.built owner slot id aspace).Inv := by
  have fresh := (inv.sound.spawning.reserved doing).2
  have unfreed : id ∉ m.kernel.freed := fun freed =>
    fresh (inv.sound.conserved.freedCreated id freed)
  refine ⟨sound, inv.core.spawnBuilt doing stage fresh unfreed, ?_,
    List.mem_cons_of_mem _ inv.booted, ?_⟩
  · intro place t member
    -- threads other than the new one keep their cards, for their ids are old
    have old : t ∈ m.kernel.holds place →
        t.stackSlot = (m.built owner slot id aspace).slotOf t.id ∧
          t.aspace = (m.built owner slot id aspace).spaceOf t.id := by
      intro held
      have made := (inv.sound.conserved.alive place held).1
      have apart : t.id ≠ id := fun same => fresh (same ▸ made)
      have known := inv.known place t held
      simpa [built, apart] using known
    cases place with
    | spawning other =>
      by_cases same : other = owner
      · subst same
        simp only [Kernel.holds, built, setDoing_self, Doing.spawned, List.mem_singleton] at member
        subst member
        simp [built]
      · refine old ?_
        simpa [Kernel.holds, built, setDoing_doing, same] using member
    | waking other =>
      by_cases same : other = owner
      · subst same
        simp [Kernel.holds, built, setDoing_self, Doing.woken] at member
      · refine old ?_
        simpa [Kernel.holds, built, setDoing_doing, same] using member
    | _ => exact old member
  · intro other made
    rcases List.mem_cons.mp made with rfl | made
    · simp only [built, Function.update_self]
      refine iff_of_false (by simp) ?_
      rintro rfl
      exact fresh inv.booted
    · have apart : other ≠ id := fun same => fresh (same ▸ made)
      simpa [built, apart] using inv.slotless other made

/-- Every section keeps the invariant. -/
theorem Inv.perform {act : Act} (inv : m.Inv) (current : m.kernel.sched.current = some cur)
    (allowed : m.enabled cur act = true) (result : m.perform cur act = some later) : later.Inv := by
  have sound : Sound later.kernel := by
    rcases perform_kernel result with ⟨event, stands, performed⟩ | ⟨-, same⟩
    · obtain ⟨kernel, same, sound⟩ := perform_sound inv.sound current (enabled_event stands allowed)
      rw [performed] at same
      rwa [Option.some.inj same]
    · rw [same]
      exact inv.sound
  have core := inv.core
  cases act with
  | sched event =>
    obtain ⟨kind, result⟩ := Option.ite_none_right_eq_some.mp result
    obtain ⟨kernel, performed, rfl⟩ := Option.map_eq_some_iff.mp result
    have quiet := perform_quiet kind allowed performed
    exact inv.after sound (core.quiet quiet) quiet.inherits quiet.created rfl
      rfl
  | spawn space =>
    simp only [Machine.perform] at result
    obtain ⟨available, result⟩ := Option.ite_none_right_eq_some.mp result
    have resting : m.kernel.doing cur.id = .nothing := by
      simpa using (Bool.and_eq_true_iff.mp allowed).2
    split at result
    case h_1 =>
      cases result
      exact inv
    case h_2 slot id sched reserves =>
      cases result
      refine inv.after sound (core.spawn resting reserves available) ?_ rfl
        rfl rfl
      obtain ⟨freeSlots, nextSlot, rfl⟩ := reserve_sched reserves
      exact (sched_inherits rfl rfl rfl rfl (List.Subset.refl _)).trans
        (setDoing_inherits ⟨rfl, rfl⟩)
  | allocStack | mapStack | unmapStack | freeStack =>
    obtain ⟨after, kernel, slotOf, spaceOf, -⟩ := core.onStack result trivial
    exact inv.after sound after (kernel ▸ .refl _) (by rw [kernel]) slotOf spaceOf
  | spawnFails =>
    simp only [Machine.perform] at result
    split at result
    case h_2 => cases result
    case h_1 slot id aspace done pages doing stage =>
      obtain ⟨rfl, done⟩ := Option.ite_none_right_eq_some.mp result
      cases done
      refine inv.after sound (core.spawnFails doing stage) ?_ rfl rfl rfl
      exact (sched_inherits rfl rfl rfl rfl (List.Subset.refl _)).trans
        (setDoing_inherits ⟨rfl, rfl⟩)
  | spawnBuilt =>
    simp only [Machine.perform] at result
    split at result
    case h_2 => cases result
    case h_1 slot id aspace pages doing stage =>
      obtain ⟨rfl, done⟩ := Option.ite_none_right_eq_some.mp result
      cases done
      exact inv.spawnBuilt sound doing stage
  | finishSwitch =>
    obtain ⟨final, same, after, -⟩ := inv.finishSwitch
    have equal : some later = some final := result.symm.trans same
    rwa [Option.some.inj equal]
  | memory event =>
    obtain ⟨spares, result⟩ := Option.ite_none_right_eq_some.mp result
    obtain ⟨sys, performed, rfl⟩ := Option.map_eq_some_iff.mp result
    exact inv.after sound (core.memory spares performed) (.refl _) rfl rfl
      rfl

/-! ### Starting up -/

variable {map : Physical.MemoryMap}

theorem Off.core (off : m.Off map) : m.Core := by
  have noSlots : ∀ holder, m.slots holder = [] := by
    intro holder
    cases holder with
    | thread id => simp [Machine.slots, off.slotOf]
    | builder owner => simp [Machine.slots, off.doing, Doing.slot]
    | free => simp [Machine.slots, off.sched, Scheduler.new]
  have noSpaces : ∀ holder, m.aspaces holder = [] := by
    intro holder
    cases holder with
    | thread id => simp [aspaces, off.spaceOf]
    | builder owner => simp [aspaces, off.doing, Doing.space]
    | free => rfl
  have noFrames : ∀ place, m.stackFrames place = [] := by
    intro place
    cases place with
    | page slot j =>
      simp [stackFrames, off.unmapped slot slot.isLt j j.isLt]
    | hand owner => simp [stackFrames, handFrame, off.doing, Doing.slot]
  have next : m.kernel.sched.nextSlot = 0 := by rw [off.sched]; rfl
  refine ⟨⟨?_, ?_, ?_⟩, next ▸ Nat.zero_le _, ⟨off.sys.inv, ?_, ?_, ⟨?_, ?_, ?_⟩,
    ?_, ?_⟩, ?_, ⟨?_, ?_, ?_⟩, ?_⟩
  · simp [noSlots]
  · simp [noSlots]
  · simp [noSlots, next]
  · simp [off.frames]
  · simp [off.frames]
  · simp [noFrames]
  · simp [noFrames]
  · simp [noFrames, off.frames]
  · intro slot j
    rw [off.unmapped slot slot.isLt j j.isLt]
    simp [Covered, noSlots]
  · simp [Covered, noSlots]
  · simp [noSlots]
  · simp [noSpaces]
  · simp [noSpaces]
  · simp [noSpaces, off.given]
  · simp [off.given]

/-- One round of the loop in `create_thread`. -/
theorem Core.round {middle : Machine} {slot id pages : Nat} {aspace : Option Nat} (core : m.Core)
    (doing : m.kernel.doing cur.id = .creating slot id aspace)
    (stage : m.stage cur.id = .mapping pages) (first : m.perform cur .allocStack = some middle)
    (second : middle.perform cur .mapStack = some later) :
    later.Core ∧ later.kernel = m.kernel ∧ later.slotOf = m.slotOf ∧
      later.spaceOf = m.spaceOf ∧
      later.stage cur.id = .mapping (pages + 1) := by
  obtain ⟨middleCore, kernel, slotOf, spaceOf, -⟩ := core.onStack first trivial
  obtain ⟨laterCore, kernel', slotOf', spaceOf', -⟩ :=
    middleCore.onStack second trivial
  refine ⟨laterCore, kernel'.trans kernel, slotOf'.trans slotOf, spaceOf'.trans spaceOf, ?_⟩
  simp only [Machine.perform, doing, stage] at first
  obtain ⟨-, first⟩ := Option.ite_none_right_eq_some.mp first
  split at first
  case h_1 frame rest granted =>
    cases first
    simp only [Machine.perform, setStage, doing, Function.update_self] at second
    obtain ⟨mapped, -, rfl⟩ := Option.map_eq_some_iff.mp second
    simp
  case h_2 =>
    cases first
    simp [Machine.perform, setStage, doing] at second

theorem Core.rounds {slot id pages : Nat} {aspace : Option Nat} (n : Nat) (core : m.Core)
    (doing : m.kernel.doing cur.id = .creating slot id aspace)
    (stage : m.stage cur.id = .mapping pages)
    (ran : (List.replicate n [Act.allocStack, .mapStack]).flatten.foldlM
      (fun m act => m.perform cur act) m = some later) :
    later.Core ∧ later.kernel = m.kernel ∧ later.slotOf = m.slotOf ∧
      later.spaceOf = m.spaceOf ∧
      later.stage cur.id = .mapping (pages + n) := by
  induction n generalizing m pages with
  | zero =>
    cases ran
    exact ⟨core, rfl, rfl, rfl, stage⟩
  | succ n induction =>
    rw [List.replicate_succ, List.flatten_cons, List.foldlM_append] at ran
    obtain ⟨next, pair, ran⟩ := Option.bind_eq_some_iff.mp ran
    rw [List.foldlM_cons] at pair
    obtain ⟨middle, first, pair⟩ := Option.bind_eq_some_iff.mp pair
    rw [List.foldlM_cons] at pair
    obtain ⟨last, second, done⟩ := Option.bind_eq_some_iff.mp pair
    cases done
    obtain ⟨nextCore, kernel, slotOf, spaceOf, reached⟩ :=
      core.round doing stage first second
    obtain ⟨laterCore, kernel', slotOf', spaceOf', final⟩ :=
      induction nextCore (kernel ▸ doing) reached ran
    refine ⟨laterCore, kernel'.trans kernel, slotOf'.trans slotOf, spaceOf'.trans spaceOf, ?_⟩
    rw [final, Nat.add_assoc, Nat.add_comm 1 n]

theorem Core.start {off : Machine} {ticks hz rsp0 : Nat} {sched : Scheduler} (core : m.Core)
    (before : off.Off map)
    (kernel : m.kernel = { off.kernel with sched }.setDoing bootThread.id (.creating 0 idleId none))
    (next : sched.nextSlot = 1) (free : sched.freeSlots = []) (slotOf : m.slotOf = off.slotOf)
    (spaceOf : m.spaceOf = off.spaceOf) (stage : m.stage bootThread.id = .mapping stackPages) :
    (m.start ticks hz rsp0).Core := by
  have doing : m.kernel.doing bootThread.id = .creating 0 idleId none := by
    rw [kernel, setDoing_self]
  have others : ∀ other ≠ bootThread.id, m.kernel.doing other = .nothing := by
    intro other distinct
    rw [kernel, setDoing_doing, if_neg distinct]
    exact before.doing other
  have created : m.kernel.created = [] := by
    rw [kernel]
    exact before.created
  have freed : m.kernel.freed = [] := by
    rw [kernel]
    exact before.freed
  have built := core.spawnBuilt doing stage (by simp [created]) (by simp [freed])
  have quiet : ∀ owner, ((m.built bootThread.id 0 idleId none).kernel.doing owner).slot = none ∧
      ((m.built bootThread.id 0 idleId none).kernel.doing owner).space =
          none := by
    intro owner
    by_cases same : owner = bootThread.id
    · subst same
      simp [Machine.built, setDoing_self, Doing.slot, Doing.space]
    · simp [Machine.built, setDoing_doing, same, others owner same, Doing.slot, Doing.space]
  have same : SameHolders (m.built bootThread.id 0 idleId none) (m.start ticks hz rsp0) := by
    refine ⟨?_, ?_, ?_, rfl⟩
    · funext holder
      cases holder with
      | thread id =>
        by_cases idle : id = idleId
        · subst idle
          simp [Machine.slots, Machine.start, Machine.built, Kernel.Lives,
            boot, Kernel.setDoing, freed]
        · simp [Machine.slots, Machine.start, Machine.built, idle, slotOf, before.slotOf]
      | builder owner =>
        rw [Machine.slots, Machine.slots, (quiet owner).1]
        rfl
      | free =>
        change [] = m.kernel.sched.freeSlots
        rw [kernel]
        exact free.symm
    · change 1 = m.kernel.sched.nextSlot
      rw [kernel]
      exact next.symm
    · funext holder
      cases holder with
      | thread id =>
        have none : m.spaceOf id = none := by rw [spaceOf, before.spaceOf]
        by_cases idle : id = idleId
        · subst idle
          simp [aspaces, Machine.start, Machine.built, none]
        · simp [aspaces, Machine.start, Machine.built, idle, none]
      | builder owner =>
        rw [aspaces, aspaces, (quiet owner).2]
        rfl
      | free => rfl
  refine built.same same ?_ ?_ built.alive
  · refine built.stacked.still rfl rfl ?_ ?_
    · intro owner
      simp only [handFrame, (quiet owner).1]
      rfl
    · intro slot j
      exact covered_congr (fun holder => by rw [same.slots]) fun holder _ => by cases holder <;> rfl
  · intro owner slot member
    rw [Machine.slots, (quiet owner).1] at member
    cases member

/-- `init` builds the idle thread's stack and hands it over. -/
theorem inv_of_initial (initial : MachineInitial map m) : m.Inv := by
  obtain ⟨off, built, ticks, hz, rsp0, before, ran, rfl⟩ := initial
  rw [initActs, List.foldlM_cons] at ran
  obtain ⟨first, spawned, ran⟩ := Option.bind_eq_some_iff.mp ran
  obtain ⟨sched, reserves, next, free⟩ : ∃ sched,
      reserve off.kernel.sched = some (0, idleId, sched) ∧
        sched.nextSlot = 1 ∧ sched.freeSlots = [] := by
    rw [before.sched]
    exact ⟨_, rfl, rfl, rfl⟩
  have available : off.Available none := by simp [Available]
  simp only [Machine.perform, if_pos available, reserves] at spawned
  cases spawned
  have core := before.core.spawn (before.doing bootThread.id) reserves available
  have doing : (off.reserved bootThread.id 0 idleId sched none).kernel.doing
      bootThread.id = .creating 0 idleId none := by
    simp [reserved, setStage, setDoing_self]
  have stage : (off.reserved bootThread.id 0 idleId sched none).stage
      bootThread.id = .mapping 0 := by
    simp [reserved, setStage]
  obtain ⟨builtCore, kernel, slotOf, spaceOf, full⟩ :=
    core.rounds stackPages doing stage ran
  rw [Nat.zero_add] at full
  refine ⟨boot_sound _ _ _ _ _, builtCore.start before kernel next free slotOf
    spaceOf full, ?_, by simp [Machine.start, boot], ?_⟩
  · have slots : ∀ id, id ≠ idleId → (built.start ticks hz rsp0).slotOf id =
        none := by
      intro id distinct
      simp only [Machine.start, Function.update_of_ne distinct, slotOf]
      exact before.slotOf id
    have spaces : ∀ id, (built.start ticks hz rsp0).spaceOf id = none := by
      intro id
      simp only [Machine.start, spaceOf]
      exact before.spaceOf id
    intro place t member
    rw [spaces]
    cases place with
    | current =>
      simp only [Kernel.holds, Machine.start, boot, Option.toList_some,
        List.mem_singleton] at member
      subst member
      exact ⟨(slots 0 (by decide)).symm, rfl⟩
    | idle =>
      simp only [Kernel.holds, Machine.start, boot, Option.toList_some,
        List.mem_singleton] at member
      subst member
      exact ⟨by simp [Machine.start], rfl⟩
    | _ => cases member
  · intro id made
    simp only [Machine.start, boot, List.mem_cons, List.not_mem_nil, or_false] at made
    rcases made with rfl | rfl
    · refine iff_of_true ?_ rfl
      simp only [Machine.start, Function.update_of_ne (show 0 ≠ idleId by decide), slotOf]
      exact before.slotOf 0
    · refine iff_of_false ?_ (by decide)
      simp [Machine.start]

/-- The invariant over whole runs. -/
theorem inv_of_reachable (reachable : MachineReachable map m) : m.Inv := by
  refine @Lib.Reachable.invariant _ _ _ Machine.Inv
    (fun _ initial => inv_of_initial initial) ?_ _ reachable
  rintro m later inv ⟨cur, act, current, allowed, result⟩
  exact inv.perform current allowed result

end

end Machine

/-! ### A machine that starts up -/

section

variable {m : Machine} {cur : Thread} {slot id : Nat} {aspace : Option Nat}

/-- A mapping needs at most three new tables. -/
theorem mapSlot_total (inv : Spaces.Inv m.sys) (slot j : Nat)
    (frame : BitVec 64) (left : 3 ≤ m.sys.machine.pool.length) :
    ∃ later, m.mapSlot slot j frame = some later ∧
      m.sys.machine.pool.length ≤ later.sys.machine.pool.length + 3 := by
  obtain ⟨s, mapped⟩ := @Vmm.map4k_total _ _ inv.kernel (slotPage slot j) frame Vmm.kernelRw left
  obtain ⟨used, taken, -, -⟩ := (Vmm.map4k_descends inv.kernel mapped).taken
  have view : (m.sys.onKernel s).view = s := (inv.sound.after taken).2.1
  have pool : (m.sys.onKernel s).machine.pool = s.pool :=
    congrArg Vmm.State.pool view
  obtain ⟨middle, pt, opens, rfl⟩ := Vmm.map4k_opens inv.kernel mapped
  refine ⟨{ m with sys := m.sys.onKernel _ }, Option.map_eq_some_iff.mpr ⟨_, mapped, rfl⟩, ?_⟩
  have cost := opens.pool
  dsimp only
  rw [pool]
  exact cost

/-- With four frames left a round of `create_thread` goes through. -/
theorem round_total (core : m.Core) {pages : Nat}
    (doing : m.kernel.doing cur.id = .creating slot id aspace)
    (stage : m.stage cur.id = .mapping pages) (more : pages < stackPages)
    (left : 4 ≤ m.sys.machine.pool.length) :
    ∃ middle later, m.perform cur .allocStack = some middle ∧
      middle.perform cur .mapStack = some later ∧
      m.sys.machine.pool.length ≤ later.sys.machine.pool.length + 4 := by
  have sound := core.stacked.memory.sound
  obtain ⟨⟨frame, rest⟩, granted⟩ : ∃ taken, m.sys.machine.allocFrame = some taken := by
    refine Option.ne_none_iff_exists'.mp fun failed => ?_
    rw [Spaces.Machine.allocFrame, Option.map_eq_none_iff] at failed
    rw [Spaces.Machine.pool_length, Physical.supply_none sound.frames failed] at left
    exact absurd left (by decide)
  have takes := (sound.allocFrame granted).1
  have first : m.perform cur .allocStack = some ({ m with
      sys := m.sys.alloc
      frames := frame :: m.frames }.setStage cur.id (.holding pages frame)) := by
    simp only [Machine.perform, doing, stage, if_pos more, granted]
  have middleCore := (core.onStack first trivial).1
  have length : m.sys.machine.pool.length = m.sys.alloc.machine.pool.length + 1 := by
    rw [takes.pool, List.length_cons, Spaces.System.alloc, granted]
    rfl
  obtain ⟨mapped, second, cost⟩ := mapSlot_total middleCore.stacked.memory slot
    (1 + pages) frame (by change 3 ≤ m.sys.alloc.machine.pool.length; omega)
  refine ⟨_, mapped.setStage cur.id (.mapping (pages + 1)), first, ?_, ?_⟩
  · simp only [Machine.perform, Machine.setStage, doing, Function.update_self]
    simp only [Machine.setStage] at second
    rw [second]
    rfl
  · change m.sys.alloc.machine.pool.length ≤ _ at cost
    change _ ≤ mapped.sys.machine.pool.length + 4
    omega

theorem rounds_total (n : Nat) {pages : Nat} (core : m.Core)
    (doing : m.kernel.doing cur.id = .creating slot id aspace)
    (stage : m.stage cur.id = .mapping pages) (more : pages + n ≤ stackPages)
    (left : 4 * n ≤ m.sys.machine.pool.length) :
    ((List.replicate n [Act.allocStack, .mapStack]).flatten.foldlM
      (fun (m : Machine) act => m.perform cur act) m).isSome := by
  induction n generalizing m pages with
  | zero => rfl
  | succ n induction =>
    obtain ⟨middle, later, first, second, cost⟩ :=
      round_total core doing stage (by omega) (by omega)
    obtain ⟨laterCore, kernel, -, -, reached⟩ :=
      core.round doing stage first second
    have pair : [Act.allocStack, .mapStack].foldlM
        (fun (m : Machine) act => m.perform cur act) m = some later := by
      rw [List.foldlM_cons, first]
      change (middle.perform cur .mapStack).bind _ = _
      rw [second]
      rfl
    rw [List.replicate_succ, List.flatten_cons, List.foldlM_append, pair]
    exact induction laterCore (kernel ▸ doing) reached (by omega) (by omega)

/-- With enough frames left `init` succeeds. -/
theorem start_total {map : Physical.MemoryMap} (off : m.Off map)
    (left : 4 * stackPages ≤ m.sys.machine.pool.length) (ticks hz rsp0 : Nat) :
    ∃ built : Machine, MachineInitial map (built.start ticks hz rsp0) := by
  obtain ⟨sched, reserves⟩ : ∃ sched, reserve m.kernel.sched = some (0, idleId, sched) := by
    rw [off.sched]
    exact ⟨_, rfl⟩
  have available : m.Available none := by simp [Machine.Available]
  have spawned : m.perform bootThread (.spawn none) =
      some (m.reserved bootThread.id 0 idleId sched none) := by
    simp only [Machine.perform, if_pos available, reserves]
  have core := off.core.spawn (off.doing bootThread.id) reserves available
  have ran := @rounds_total _ bootThread 0 idleId none stackPages 0 core
    (by simp [Machine.reserved, Machine.setStage, setDoing_self])
    (by simp [Machine.reserved, Machine.setStage]) (by decide) left
  obtain ⟨built, result⟩ := Option.isSome_iff_exists.mp ran
  refine ⟨built, m, built, ticks, hz, rsp0, off, ?_, rfl⟩
  rw [initActs, List.foldlM_cons, spawned]
  exact result

end

/-- A machine with 128 frames and a kernel that maps nothing. -/
def bareMap : Physical.MemoryMap where
  entries := [⟨0x100000, 0x80000, .usable⟩]
  short := by decide
  bounded := by decide
  exclusive := by simp

def bareBoot : Vmm.BootInfo :=
  { Spaces.sampleBoot with text := (0, 0) }

def bareStart : Option Spaces.System :=
  (Physical.init bareMap.entries).bind fun p =>
    Spaces.bootSystem bareBoot ⟨fun _ => 0, ⟨p, ∅, false⟩⟩

/-- No threads yet. -/
def Machine.bare (sys : Spaces.System) : Machine where
  kernel := { boot 0 0 0 0 0 with sched := .new, created := [], queued := [] }
  sys := sys
  stage := fun _ => .mapping 0
  slotOf := fun _ => none
  spaceOf := fun _ => none
  frames := []
  given := []

theorem slotPage_top {slot j : Nat} (inside : slot < maxSlots)
    (within : j < slotPages) : Vmm.index (slotPage slot j) 0 = 511 := by
  apply Fin.ext
  rw [Vmm.index_val, slotPage_toNat inside within]
  simp only [maxSlots, slotPages, stackRegion, slotSize, pageSize] at inside within ⊢
  change _ = 511
  omega

theorem bareStart_reachable {sys : Spaces.System}
    (started : bareStart = some sys) : Spaces.Reachable bareMap sys := by
  obtain ⟨p, begun, built⟩ := Option.bind_eq_some_iff.mp started
  have size : (Physical.init bareMap.entries).map (·.totalFrames) =
      some 384 := by decide +kernel
  rw [begun, Option.map_some, Option.some_inj] at size
  refine Lib.Reachable.start (Spaces.bootSystem_initial
    (Lib.Reachable.start ⟨begun, rfl, rfl⟩) ?_ built)
  exact size.le.trans (by decide)

theorem bare_starts (ticks hz rsp0 : Nat) : ∃ built : Machine,
    MachineInitial bareMap (built.start ticks hz rsp0) := by
  have evaluated : bareStart.map (fun sys =>
      (decide (4 * stackPages ≤ sys.machine.pool.length),
        Vmm.has (sys.view.read sys.kernel 511) Vmm.present)) =
      some (true, false) := by decide +kernel
  obtain ⟨sys, started, facts⟩ := Option.map_eq_some_iff.mp evaluated
  obtain ⟨left, absent⟩ := Prod.mk.inj facts
  refine @start_total (Machine.bare sys) _ ⟨bareStart_reachable started, rfl, fun _ => rfl, rfl,
    rfl, ?_, fun _ => rfl, fun _ => rfl, rfl, rfl⟩ (of_decide_eq_true left) ticks hz rsp0
  intro slot inside j within
  rw [Machine.pageAt, Vmm.walk, slotPage_top inside within]
  change (if !Vmm.has (sys.view.read sys.kernel 511) Vmm.present then _ else _) = _
  rw [absent]
  rfl

end Eonos.Sched
