import Eonos.Sched.StackSafety

/-!
# Dead threads are reaped in safety

Outside `reschedule` the processor runs on the page tables of the current
thread, and a dead thread is freed by the first `finish_switch` after it left
the processor, on another thread's stack and page tables.
-/

namespace Eonos.Sched

open Eonos.Lib

/-! ### What a section does to the processor -/

/-- Neither the running thread nor the dead ones change. -/
structure SameCpu (k later : Kernel) : Prop where
  current : later.sched.current = k.sched.current
  zombies : later.sched.zombies = k.sched.zombies
  cr3 : later.cr3 = k.cr3
  kernelCr3 : later.kernelCr3 = k.kernelCr3

/-- One thread leaves the processor and another takes it. -/
structure Switches (how : Next) (cur next : Thread) (k later : Kernel) :
    Prop where
  left : k.sched.current = some cur
  current : later.sched.current = some next
  zombies : later.sched.zombies =
    k.sched.zombies ++ if how = .exit then [cur] else []
  switched : later.switched = decide (cur.id ≠ next.id)
  cr3 : next.aspace.getD k.kernelCr3 ≠ 0 →
    later.cr3 = next.aspace.getD k.kernelCr3
  kernelCr3 : later.kernelCr3 = k.kernelCr3

section

variable {k middle later : Kernel} {how : Next} {cur next : Thread}

theorem awaken_sameCpu (k : Kernel) : SameCpu k (awaken k) := by
  obtain ⟨due, asleep, result, -⟩ := wakeSleepers_split (uptimeMs k) k.sched
  have sched : (awaken k).sched =
      { k.sched with sleeping := asleep, ready := k.sched.ready ++ due } :=
    result
  exact ⟨by rw [sched], by rw [sched], rfl, rfl⟩

theorem parkCurrent_effect (parked : parkCurrent how k = some (cur, later)) :
    k.sched.current = some cur ∧ later.cr3 = k.cr3 ∧
      later.kernelCr3 = k.kernelCr3 ∧
      later.sched.zombies =
        k.sched.zombies ++ if how = .exit then [cur] else [] := by
  unfold parkCurrent at parked
  cases running : k.sched.current with
  | none => simp [running] at parked
  | some thread =>
    simp only [running] at parked
    cases how with
    | yield =>
      dsimp only at parked
      split at parked
      all_goals
        cases parked
        exact ⟨rfl, rfl, rfl, by simp⟩
    | sleep wakeAt | exit | block queue =>
      cases parked
      exact ⟨rfl, rfl, rfl, by simp⟩

theorem pickNext_effect (picked : pickNext k = some (next, later)) :
    later.sched.current = some next ∧ later.cr3 = k.cr3 ∧
      later.kernelCr3 = k.kernelCr3 ∧
      later.sched.zombies = k.sched.zombies := by
  unfold pickNext at picked
  split at picked
  case h_1 =>
    cases picked
    exact ⟨rfl, rfl, rfl, rfl⟩
  case h_2 =>
    split at picked
    case h_1 => cases picked
    case h_2 =>
      cases picked
      exact ⟨rfl, rfl, rfl, rfl⟩

theorem reschedule_switches (result : reschedule how k = some later) :
    ∃ cur next, Switches how cur next k later := by
  obtain ⟨cur, next, parked, picked, park, pick, rfl⟩ :=
    reschedule_cases result
  have awake := awaken_sameCpu k
  obtain ⟨left, cr3, kernelCr3, zombies⟩ := parkCurrent_effect park
  obtain ⟨current, cr3', kernelCr3', zombies'⟩ := pickNext_effect pick
  have root : picked.kernelCr3 = k.kernelCr3 :=
    kernelCr3'.trans (kernelCr3.trans awake.kernelCr3)
  refine ⟨cur, next, awake.current ▸ left, current, ?_, rfl, ?_, root⟩
  · change picked.sched.zombies = _
    rw [zombies', zombies, awake.zombies]
  · intro wanted
    simp only [dispatch, root]
    split
    · rfl
    case isFalse same =>
      by_contra differs
      exact same ⟨wanted, fun equal => differs equal.symm⟩

/-- A section that makes or frees no thread leaves the processor alone or ends
in a switch. -/
theorem perform_cpu {event : Event} (kind : event.isQuiet = true)
    (performed : perform k cur event = some later) :
    (SameCpu k later ∧ later.switched = k.switched) ∨
      ∃ how cur next, Switches how cur next k later := by
  cases event with
  | spawn aspace => cases kind
  | spawnFails | spawnBuilt | finishSwitch => cases kind
  | spawnQueues | wakeQueues =>
    simp only [perform] at performed
    split at performed
    all_goals
      cases performed
      exact .inl ⟨⟨rfl, rfl, rfl, rfl⟩, rfl⟩
  | yieldNow | sleepMs ms | exit | wait queue =>
    exact .inr ⟨_, reschedule_switches performed⟩
  | wakeOne queue | wakeAll queue =>
    simp only [perform] at performed
    split at performed
    all_goals
      cases performed
      exact .inl ⟨⟨rfl, rfl, rfl, rfl⟩, rfl⟩
  | tick =>
    cases performed
    unfold tick
    dsimp only
    split
    all_goals exact .inl ⟨⟨rfl, rfl, rfl, rfl⟩, rfl⟩
  | preemptIfNeeded =>
    simp only [perform, preemptIfNeeded] at performed
    split at performed
    · obtain ⟨cur, next, switches⟩ := reschedule_switches performed
      exact .inr ⟨_, cur, next, switches.left, switches.current, switches.zombies,
        switches.switched, switches.cr3, switches.kernelCr3⟩
    · cases performed
      exact .inl ⟨⟨rfl, rfl, rfl, rfl⟩, rfl⟩

theorem switched_of_enabled {event : Event} (allowed : enabled k cur event = true)
    (other : event ≠ .finishSwitch) : k.switched = false := by
  cases event <;> simp_all [enabled]

end

/-! ### Over whole runs -/

namespace Machine

/-- The processor runs on the tables of the current thread, and no dead thread
waits for anything but the `finish_switch` that is due. -/
structure Paged (m : Machine) : Prop where
  root : m.kernel.kernelCr3 = m.sys.kernel.toNat
  cr3 : ∀ cur, m.kernel.sched.current = some cur →
    m.kernel.cr3 = cur.aspace.getD m.kernel.kernelCr3
  settled : m.kernel.switched = false → m.kernel.sched.zombies = []

section

variable {m later : Machine} {cur : Thread} {act : Act}

theorem Inv.aspace_mem (inv : m.Inv) {place : Place} {t : Thread} (held : t ∈ m.kernel.holds place)
    {pml4 : Nat} (has : t.aspace = some pml4) :
    BitVec.ofNat 64 pml4 ∈ m.aspaces (.thread t.id) ∧ BitVec.ofNat 64 pml4 ∈ m.sys.spaces := by
  have alive := inv.sound.conserved.alive place held
  have member : BitVec.ofNat 64 pml4 ∈ m.aspaces (.thread t.id) := by
    rw [aspaces, if_pos ⟨alive.1, alive.2.1⟩, ← (inv.known place t held).2, has]
    simp
  exact ⟨member, inv.core.alive (inv.core.spaces.live_of_mem member)⟩

theorem Inv.space_lent (inv : m.Inv) {space : BitVec 64}
    (member : space ∈ m.sys.spaces) : m.sys.machine.Lent space :=
  inv.core.stacked.memory.ownTable_lent member
    (Spaces.ownTable_root m.sys.view space)

/-- No page table is at address zero. -/
theorem Inv.wanted (inv : m.Inv) (root : m.kernel.kernelCr3 = m.sys.kernel.toNat) {place : Place}
    {t : Thread} (held : t ∈ m.kernel.holds place) : t.aspace.getD m.kernel.kernelCr3 ≠ 0 := by
  have memory := inv.core.stacked.memory
  cases has : t.aspace with
  | none =>
    rw [Option.getD_none, root]
    intro zero
    have lent := (memory.kernelLent [] m.sys.kernel rfl).1
    exact memory.sound.lent_ne_zero lent (BitVec.eq_of_toNat_eq (by simpa using zero))
  | some pml4 =>
    rw [Option.getD_some]
    rintro rfl
    exact memory.sound.lent_ne_zero (inv.space_lent (inv.aspace_mem held has).2) rfl

/-- A section that leaves the processor alone. -/
theorem Paged.same (paged : m.Paged) (cpu : SameCpu m.kernel later.kernel)
    (switched : later.kernel.switched = m.kernel.switched)
    (root : later.sys.kernel = m.sys.kernel) : later.Paged := by
  refine ⟨?_, ?_, ?_⟩
  · rw [cpu.kernelCr3, root]
    exact paged.root
  · rw [cpu.current, cpu.cr3, cpu.kernelCr3]
    exact paged.cr3
  · rw [switched, cpu.zombies]
    exact paged.settled

theorem Paged.switch {how : Next} {next : Thread} (paged : m.Paged) (after : later.Inv)
    (root : later.sys.kernel = m.sys.kernel) (clean : m.kernel.switched = false)
    (switches : Switches how cur next m.kernel later.kernel) : later.Paged := by
  have kernelRoot : later.kernel.kernelCr3 = later.sys.kernel.toNat := by
    rw [switches.kernelCr3, root]
    exact paged.root
  have running : next ∈ later.kernel.holds .current := by
    simp [Kernel.holds, switches.current]
  have wanted := after.wanted kernelRoot running
  refine ⟨kernelRoot, ?_, ?_⟩
  · intro thread current
    rw [switches.current] at current
    cases current
    rw [switches.kernelCr3] at wanted ⊢
    exact switches.cr3 wanted
  · intro still
    rw [switches.zombies, paged.settled clean, List.nil_append]
    split
    case isFalse => rfl
    case isTrue leaving =>
      -- a thread that exits never runs on, so there was a switch
      have dead : cur ∈ later.kernel.holds .zombies := by
        simp [Kernel.holds, switches.zombies, leaving]
      rw [switches.switched, decide_eq_false_iff_not, not_not] at still
      have one : cur.id ∈ later.kernel.ids .zombies := List.mem_map_of_mem dead
      have two : next.id ∈ later.kernel.ids .current :=
        List.mem_map_of_mem running
      cases after.sound.conserved.ids_apart one (still ▸ two)

/-- All but `finish_switch` wait for it. -/
theorem enabled_clean (allowed : m.enabled cur act = true) (other : act ≠ .finishSwitch)
    (quiet : act ≠ .sched .finishSwitch) : m.kernel.switched = false := by
  cases act with
  | sched event =>
    refine switched_of_enabled allowed ?_
    rintro rfl
    exact quiet rfl
  | finishSwitch => exact absurd rfl other
  | memory event => simpa [enabled] using allowed
  | spawn aspace =>
    exact @switched_of_enabled _ cur (.spawn none) allowed (by simp)
  | allocStack | mapStack | unmapStack | freeStack | spawnFails =>
    exact @switched_of_enabled _ cur .spawnFails allowed (by simp)
  | spawnBuilt =>
    exact @switched_of_enabled _ cur .spawnBuilt allowed (by simp)

theorem Paged.perform (paged : m.Paged) (inv : m.Inv) (current : m.kernel.sched.current = some cur)
    (allowed : m.enabled cur act = true) (result : m.perform cur act = some later) :
    later.Paged := by
  have after := inv.perform current allowed result
  cases act with
  | sched event =>
    obtain ⟨kind, mapped⟩ := Option.ite_none_right_eq_some.mp result
    obtain ⟨kernel, performed, rfl⟩ := Option.map_eq_some_iff.mp mapped
    rcases perform_cpu kind performed with
      ⟨cpu, switched⟩ | ⟨how, cur, next, switches⟩
    · exact paged.same cpu switched rfl
    · refine paged.switch after rfl (enabled_clean allowed (by simp) ?_) switches
      rintro same
      cases same
      cases kind
  | spawn space =>
    simp only [Machine.perform] at result
    obtain ⟨-, result⟩ := Option.ite_none_right_eq_some.mp result
    split at result
    case h_1 =>
      cases result
      exact paged
    case h_2 slot id sched reserves =>
      cases result
      obtain ⟨freeSlots, nextSlot, rfl⟩ := reserve_sched reserves
      exact paged.same ⟨rfl, rfl, rfl, rfl⟩ rfl rfl
  | allocStack | mapStack | unmapStack | freeStack =>
    obtain ⟨-, kernel, -, -, root⟩ := inv.core.onStack result trivial
    refine paged.same ?_ ?_ root
    · rw [kernel]
      exact ⟨rfl, rfl, rfl, rfl⟩
    · rw [kernel]
  | spawnFails | spawnBuilt =>
    simp only [Machine.perform] at result
    split at result
    case h_2 => cases result
    case h_1 =>
      obtain ⟨-, done⟩ := Option.ite_none_right_eq_some.mp result
      cases done
      exact paged.same ⟨rfl, rfl, rfl, rfl⟩ rfl rfl
  | finishSwitch =>
    obtain ⟨final, same, -, root⟩ := inv.finishSwitch
    have equal : some later = some final := result.symm.trans same
    cases equal
    have kernel := finishSwitch_kernel same
    obtain ⟨slots, shape⟩ := finishSwitch_shape m.kernel
    rw [shape] at kernel
    refine ⟨?_, ?_, ?_⟩
    · rw [kernel, root]
      exact paged.root
    · rw [kernel]
      exact paged.cr3
    · rw [kernel]
      exact fun _ => rfl
  | memory event =>
    obtain ⟨-, result⟩ := Option.ite_none_right_eq_some.mp result
    obtain ⟨sys, performed, rfl⟩ := Option.map_eq_some_iff.mp result
    exact paged.same ⟨rfl, rfl, rfl, rfl⟩ rfl
      (inv.core.stacked.memory.perform_leaves performed).kernel

theorem paged_of_reachable {map : Physical.MemoryMap}
    (reachable : MachineReachable map m) : m.Inv ∧ m.Paged := by
  refine @Lib.Reachable.invariant _ _ _ (fun m => m.Inv ∧ m.Paged) ?_ ?_ _ reachable
  · intro m initial
    refine ⟨inv_of_initial initial, ?_⟩
    obtain ⟨off, built, ticks, hz, rsp0, -, -, rfl⟩ := initial
    refine ⟨rfl, ?_, fun _ => rfl⟩
    intro cur current
    cases current
    rfl
  · rintro m later ⟨inv, paged⟩ ⟨cur, act, current, allowed, result⟩
    exact ⟨inv.perform current allowed result, paged.perform inv current allowed result⟩

end

end Machine

/-- In every state of every run `CR3` holds the tables of the running thread; a
dead thread that waits to be freed is not the running one, has another slot and
other page tables than the processor; and it waits for nothing but a
`finish_switch`, which is the one thing that can happen next, succeeds and
frees it. -/
theorem dead_threads_reaped_safely {map : Physical.MemoryMap} {m : Machine}
    (reachable : MachineReachable map m) {cur : Thread}
    (current : m.kernel.sched.current = some cur) :
    m.kernel.kernelCr3 = m.sys.kernel.toNat ∧
    m.kernel.cr3 = cur.aspace.getD m.kernel.kernelCr3 ∧
    (∀ dead ∈ m.kernel.sched.zombies, dead.id ≠ cur.id ∧
      (∀ slot, dead.stackSlot = some slot → cur.stackSlot ≠ some slot) ∧
      ∀ pml4, dead.aspace = some pml4 → pml4 ≠ m.kernel.cr3) ∧
    (m.kernel.sched.zombies ≠ [] →
      (∀ act, m.enabled cur act = true → (m.perform cur act).isSome →
        act = .finishSwitch) ∧
      m.enabled cur .finishSwitch = true ∧
      ∃ later, m.perform cur .finishSwitch = some later ∧
        later.kernel.sched.zombies = [] ∧
        ∀ dead ∈ m.kernel.sched.zombies, dead.id ∈ later.kernel.freed) := by
  obtain ⟨inv, paged⟩ := Machine.paged_of_reachable reachable
  have running : cur ∈ m.kernel.holds .current := by
    simp [Kernel.holds, current]
  have cr3 := paged.cr3 cur current
  have memory := inv.core.stacked.memory
  have apart : ∀ dead ∈ m.kernel.sched.zombies, dead.id ≠ cur.id := by
    intro dead waits same
    have one : dead.id ∈ m.kernel.ids .zombies := List.mem_map_of_mem waits
    have two : cur.id ∈ m.kernel.ids .current := List.mem_map_of_mem running
    cases inv.sound.conserved.ids_apart one (same ▸ two)
  refine ⟨paged.root, cr3, ?_, ?_⟩
  · intro dead waits
    have held : dead ∈ m.kernel.holds .zombies := waits
    refine ⟨apart dead waits, ?_, ?_⟩
    · intro slot has shares
      have same := inv.core.slots.apart (inv.slot_of_held held has)
        (inv.slot_of_held running shares)
      exact apart dead waits (by simpa using same)
    · rintro pml4 has same
      obtain ⟨mine, alive⟩ := inv.aspace_mem held has
      rw [cr3] at same
      cases uses : cur.aspace with
      | none =>
        -- the kernel's own tables belong to no address space
        rw [uses, Option.getD_none, paged.root] at same
        have root : BitVec.ofNat 64 pml4 = m.sys.kernel := by
          rw [same, BitVec.ofNat_toNat, BitVec.setWidth_eq]
        rw [root] at alive
        exact (memory.kernelLent [] m.sys.kernel rfl).2
          (memory.ownTable_mem alive (Spaces.ownTable_root _ _))
      | some other =>
        rw [uses, Option.getD_some] at same
        subst same
        have shared := inv.core.spaces.apart mine (inv.aspace_mem running uses).1
        exact apart dead waits (by simpa using shared)
  · intro waiting
    have switched : m.kernel.switched = true := by
      by_contra settled
      exact waiting (paged.settled (Bool.eq_false_iff.mpr settled))
    obtain ⟨later, result, -, -⟩ := inv.finishSwitch
    have kernel := Machine.finishSwitch_kernel result
    obtain ⟨slots, shape⟩ := finishSwitch_shape m.kernel
    rw [shape] at kernel
    refine ⟨?_, switched, later, result, ?_, ?_⟩
    · intro act allowed works
      by_contra other
      refine Bool.false_ne_true (Eq.trans ?_ switched)
      refine (Machine.enabled_clean allowed other ?_).symm
      rintro rfl
      cases works
    · rw [kernel]
    · intro dead waits
      rw [kernel]
      exact List.mem_append_left _ (List.mem_reverse.mpr (List.mem_map_of_mem waits))

/-- The boot thread exits and is freed by the idle thread. -/
theorem boot_thread_reaped : ∃ m later, MachineReachable bareMap m ∧
    m.kernel.sched.zombies = [bootThread] ∧
    m.perform ⟨idleId, some 0, 0, true, none⟩ .finishSwitch = some later ∧
    0 ∈ later.kernel.freed := by
  obtain ⟨built, initial⟩ := bare_starts 0 100 0
  have starts : MachineReachable bareMap (built.start 0 100 0) :=
    .start initial
  obtain ⟨kernel, exits, zombies, current⟩ : ∃ kernel,
      Sched.perform (built.start 0 100 0).kernel bootThread .exit =
        some kernel ∧ kernel.sched.zombies = [bootThread] ∧
      kernel.sched.current = some ⟨idleId, some 0, 0, true, none⟩ :=
    ⟨_, rfl, rfl, rfl⟩
  have reachable : MachineReachable bareMap { built.start 0 100 0 with kernel } := by
    refine starts.next ⟨bootThread, .sched .exit, rfl, rfl, ?_⟩
    rw [Machine.perform, exits]
    rfl
  obtain ⟨-, -, -, reaped⟩ := dead_threads_reaped_safely reachable current
  obtain ⟨-, -, later, result, -, freed⟩ :=
    reaped (zombies ▸ List.cons_ne_nil _ _)
  refine ⟨_, later, reachable, zombies, result, ?_⟩
  exact freed bootThread (zombies ▸ List.mem_singleton_self _)

end Eonos.Sched
