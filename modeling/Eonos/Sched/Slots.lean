import Eonos.Sched.Safety

/-!
# What a thread keeps

A thread keeps its stack slot and its page tables wherever it is held, and only
a spawn or a reap changes which slots are in use.
-/

namespace Eonos.Sched

/-- The id of a thread, its stack slot and its page tables. -/
def Thread.card (t : Thread) : Nat × Option Nat × Option Nat :=
  (t.id, t.stackSlot, t.aspace)

/-- Every thread held later was held before. -/
def Inherits (k later : Kernel) : Prop :=
  ∀ place, ∀ t ∈ later.holds place, ∃ other, ∃ u ∈ k.holds other,
    u.card = t.card

section

variable {k middle later : Kernel}

theorem Inherits.refl (k : Kernel) : Inherits k k :=
  fun place t member => ⟨place, t, member, rfl⟩

theorem Inherits.trans (first : Inherits k middle)
    (second : Inherits middle later) : Inherits k later := by
  intro place t member
  obtain ⟨other, u, held, same⟩ := second place t member
  obtain ⟨origin, v, source, also⟩ := first other u held
  exact ⟨origin, v, source, also.trans same⟩

/-- A change in one place: what is there now came from somewhere. -/
theorem Inherits.of_holds (place : Place)
    (there : ∀ t ∈ later.holds place, ∃ other, ∃ u ∈ k.holds other, u.card = t.card)
    (others : ∀ other, other ≠ place → ∀ t ∈ later.holds other, t ∈ k.holds other) :
    Inherits k later := by
  intro other t member
  by_cases same : other = place
  · subst same
    exact there t member
  · exact ⟨other, t, others other same t member, rfl⟩

theorem awaken_inherits (k : Kernel) : Inherits k (awaken k) := by
  obtain ⟨due, asleep, result, -, -, split⟩ :=
    wakeSleepers_split (uptimeMs k) k.sched
  have sched : (awaken k).sched =
      { k.sched with sleeping := asleep, ready := k.sched.ready ++ due } :=
    result
  have slept : ∀ t ∈ due ++ asleep, t ∈ k.holds .sleeping := fun t member =>
    split.mem_iff.mpr member
  intro place t member
  cases place with
  | ready =>
    simp only [Kernel.holds, sched, List.mem_append] at member
    rcases member with old | woken
    · exact ⟨.ready, t, old, rfl⟩
    · exact ⟨.sleeping, t, slept t (List.mem_append_left _ woken), rfl⟩
  | sleeping =>
    simp only [Kernel.holds, sched] at member
    exact ⟨.sleeping, t, slept t (List.mem_append_right _ member), rfl⟩
  | current =>
    simp only [Kernel.holds, sched] at member
    exact ⟨.current, t, member, rfl⟩
  | idle =>
    simp only [Kernel.holds, sched] at member
    exact ⟨.idle, t, member, rfl⟩
  | zombies =>
    simp only [Kernel.holds, sched] at member
    exact ⟨.zombies, t, member, rfl⟩
  | waiting queue => exact ⟨.waiting queue, t, member, rfl⟩
  | waking owner => exact ⟨.waking owner, t, member, rfl⟩
  | spawning owner => exact ⟨.spawning owner, t, member, rfl⟩

variable {how : Next} {cur : Thread}

theorem parkCurrent_inherits
    (parked : parkCurrent how k = some (cur, later)) : Inherits k later := by
  unfold parkCurrent at parked
  cases running : k.sched.current with
  | none => simp [running] at parked
  | some thread =>
    simp only [running] at parked
    have here : thread ∈ k.holds .current := by
      simp [Kernel.holds, running]
    cases how with
    | yield =>
      dsimp only at parked
      split at parked
      · cases parked
        refine .of_holds .idle ?_ ?_
        · intro t member
          rw [show t = cur by simpa [Kernel.holds, eq_comm] using member]
          exact ⟨.current, cur, here, rfl⟩
        · intro other apart t member
          cases other <;> simp_all [Kernel.holds]
      · cases parked
        refine .of_holds .ready ?_ ?_
        · intro t member
          simp only [Kernel.holds, List.mem_append, List.mem_singleton] at member
          rcases member with old | rfl
          · exact ⟨.ready, t, old, rfl⟩
          · exact ⟨.current, t, here, rfl⟩
        · intro other apart t member
          cases other <;> simp_all [Kernel.holds]
    | sleep wakeAt =>
      cases parked
      refine .of_holds .sleeping ?_ ?_
      · intro t member
        simp only [Kernel.holds, List.mem_append, List.mem_singleton] at member
        rcases member with old | rfl
        · exact ⟨.sleeping, t, old, rfl⟩
        · exact ⟨.current, cur, here, rfl⟩
      · intro other apart t member
        cases other <;> simp_all [Kernel.holds]
    | exit =>
      cases parked
      refine .of_holds .zombies ?_ ?_
      · intro t member
        simp only [Kernel.holds, List.mem_append, List.mem_singleton] at member
        rcases member with old | rfl
        · exact ⟨.zombies, t, old, rfl⟩
        · exact ⟨.current, t, here, rfl⟩
      · intro other apart t member
        cases other <;> simp_all [Kernel.holds]
    | block queue =>
      cases parked
      refine .of_holds (.waiting queue) ?_ ?_
      · intro t member
        simp only [Kernel.holds, Function.update_self, List.mem_append,
          List.mem_singleton] at member
        rcases member with old | rfl
        · exact ⟨.waiting queue, t, old, rfl⟩
        · exact ⟨.current, t, here, rfl⟩
      · intro other apart t member
        cases other with
        | waiting queue' =>
          have differs : queue' ≠ queue := by
            rintro rfl
            exact apart rfl
          simpa [Kernel.holds, differs] using member
        | _ => simp_all [Kernel.holds]

theorem pickNext_inherits {next : Thread}
    (picked : pickNext k = some (next, later)) : Inherits k later := by
  unfold pickNext at picked
  split at picked
  case h_1 head ready queue =>
    cases picked
    refine .of_holds .current ?_ ?_
    · intro t member
      refine ⟨.ready, t, ?_, rfl⟩
      rw [show t = next by simpa [Kernel.holds, eq_comm] using member]
      simp [Kernel.holds, queue]
    · intro other apart t member
      cases other <;> simp_all [Kernel.holds]
  case h_2 queue =>
    cases slot : k.sched.idle with
    | none => simp [slot] at picked
    | some thread =>
      simp only [slot] at picked
      cases picked
      refine .of_holds .current ?_ ?_
      · intro t member
        refine ⟨.idle, t, ?_, rfl⟩
        rw [show t = next by simpa [Kernel.holds, eq_comm] using member]
        simp [Kernel.holds, slot]
      · intro other apart t member
        cases other <;> simp_all [Kernel.holds]

/-- Nothing is made or freed, and no slot changes hands. -/
structure Quiet (k later : Kernel) : Prop where
  inherits : Inherits k later
  building : ∀ {owner slot id aspace},
    later.doing owner = .creating slot id aspace ↔
      k.doing owner = .creating slot id aspace
  freeSlots : later.sched.freeSlots = k.sched.freeSlots
  nextSlot : later.sched.nextSlot = k.sched.nextSlot
  created : later.created = k.created
  freed : later.freed = k.freed
  kernelCr3 : later.kernelCr3 = k.kernelCr3

theorem Quiet.trans (first : Quiet k middle) (second : Quiet middle later) : Quiet k later :=
  ⟨first.inherits.trans second.inherits,
    second.building.trans first.building,
    second.freeSlots.trans first.freeSlots,
    second.nextSlot.trans first.nextSlot, second.created.trans first.created,
    second.freed.trans first.freed, second.kernelCr3.trans first.kernelCr3⟩

theorem awaken_quiet (k : Kernel) : Quiet k (awaken k) := by
  obtain ⟨due, asleep, result, -⟩ := wakeSleepers_split (uptimeMs k) k.sched
  have sched : (awaken k).sched =
      { k.sched with sleeping := asleep, ready := k.sched.ready ++ due } :=
    result
  exact ⟨awaken_inherits k, Iff.rfl, by rw [sched], by rw [sched], rfl, rfl,
    rfl⟩

theorem parkCurrent_quiet (parked : parkCurrent how k = some (cur, later)) : Quiet k later := by
  have inherits := parkCurrent_inherits parked
  unfold parkCurrent at parked
  split at parked
  case h_1 => cases parked
  cases how with
  | yield =>
    dsimp only at parked
    split at parked
    all_goals
      cases parked
      exact ⟨inherits, Iff.rfl, rfl, rfl, rfl, rfl, rfl⟩
  | sleep wakeAt | exit | block queue =>
    cases parked
    exact ⟨inherits, Iff.rfl, rfl, rfl, rfl, rfl, rfl⟩

theorem pickNext_quiet {next : Thread}
    (picked : pickNext k = some (next, later)) : Quiet k later := by
  have inherits := pickNext_inherits picked
  unfold pickNext at picked
  split at picked
  case h_1 =>
    cases picked
    exact ⟨inherits, Iff.rfl, rfl, rfl, rfl, rfl, rfl⟩
  case h_2 =>
    split at picked
    case h_1 => cases picked
    case h_2 =>
      cases picked
      exact ⟨inherits, Iff.rfl, rfl, rfl, rfl, rfl, rfl⟩

theorem reschedule_cases (result : reschedule how k = some later) :
    ∃ cur next parked picked,
      parkCurrent how (awaken k) = some (cur, parked) ∧
        pickNext parked = some (next, picked) ∧
        later = dispatch cur next picked := by
  rw [reschedule_eq] at result
  obtain ⟨⟨cur, parked⟩, park, result⟩ := Option.bind_eq_some_iff.mp result
  obtain ⟨⟨next, picked⟩, pick, result⟩ := Option.bind_eq_some_iff.mp result
  exact ⟨cur, next, parked, picked, park, pick, (Option.some.inj result).symm⟩

theorem reschedule_quiet (result : reschedule how k = some later) : Quiet k later := by
  obtain ⟨cur, next, parked, picked, park, pick, rfl⟩ :=
    reschedule_cases result
  have moved := ((awaken_quiet k).trans (parkCurrent_quiet park)).trans (pickNext_quiet pick)
  refine moved.trans ⟨?_, Iff.rfl, rfl, rfl, rfl, rfl, rfl⟩
  intro place t member
  refine ⟨place, t, ?_, rfl⟩
  cases place <;> exact member

/-- A thread goes on to something other than making a thread. -/
theorem setDoing_building {owner : Nat} {doing : Doing} (k : Kernel)
    (before : ∀ slot id aspace, k.doing owner ≠ .creating slot id aspace)
    (after : ∀ slot id aspace, doing ≠ .creating slot id aspace)
    {other slot id : Nat} {aspace : Option Nat} :
    (k.setDoing owner doing).doing other = .creating slot id aspace ↔
      k.doing other = .creating slot id aspace := by
  rw [setDoing_doing]
  by_cases same : other = owner
  · subst same
    rw [if_pos rfl]
    exact ⟨fun made => absurd made (after _ _ _), fun made => absurd made (before _ _ _)⟩
  · rw [if_neg same]

theorem wakeTakes_quiet {cur queue : Nat} {taken rest : List Thread}
    (waiting : k.waiters queue = taken ++ rest) (nothing : k.doing cur = .nothing) :
    Quiet k ({ k with
      waiters := Function.update k.waiters queue rest }.setDoing cur
        (.waking taken)) := by
  refine ⟨?_, setDoing_building _ (by simp [nothing]) (by simp), rfl, rfl, rfl,
    rfl, rfl⟩
  intro place t member
  cases place with
  | waiting other =>
    refine ⟨.waiting other, t, ?_, rfl⟩
    by_cases same : other = queue
    · subst same
      simp only [Kernel.holds, Kernel.setDoing, Function.update_self] at member
      rw [Kernel.holds, waiting]
      exact List.mem_append_right _ member
    · simpa [Kernel.holds, Kernel.setDoing, same] using member
  | waking owner =>
    by_cases same : owner = cur
    · subst same
      simp only [Kernel.holds, setDoing_self, Doing.woken] at member
      refine ⟨.waiting queue, t, ?_, rfl⟩
      rw [Kernel.holds, waiting]
      exact List.mem_append_left _ member
    · refine ⟨.waking owner, t, ?_, rfl⟩
      simpa [Kernel.holds, setDoing_doing, same] using member
  | spawning owner =>
    refine ⟨.spawning owner, t, ?_, rfl⟩
    by_cases same : owner = cur
    · subst same
      simp [Kernel.holds, setDoing_self, Doing.spawned] at member
    · simpa [Kernel.holds, setDoing_doing, same] using member
  | current => exact ⟨.current, t, member, rfl⟩
  | ready => exact ⟨.ready, t, member, rfl⟩
  | sleeping => exact ⟨.sleeping, t, member, rfl⟩
  | idle => exact ⟨.idle, t, member, rfl⟩
  | zombies => exact ⟨.zombies, t, member, rfl⟩

theorem queues_quiet {cur : Nat} {threads : List Thread}
    (held : threads ⊆ (k.doing cur).woken ++ (k.doing cur).spawned)
    (before : ∀ slot id aspace, k.doing cur ≠ .creating slot id aspace) (queued : List Nat) :
    Quiet k ({ k with
      sched := { k.sched with ready := k.sched.ready ++ threads }
      queued := queued }.setDoing cur .nothing) := by
  refine ⟨?_, setDoing_building _ before (by simp), rfl, rfl, rfl, rfl, rfl⟩
  intro place t member
  cases place with
  | ready =>
    rcases List.mem_append.mp member with old | new
    · exact ⟨.ready, t, old, rfl⟩
    · rcases List.mem_append.mp (held new) with woken | spawned
      · exact ⟨.waking cur, t, woken, rfl⟩
      · exact ⟨.spawning cur, t, spawned, rfl⟩
  | waking owner =>
    refine ⟨.waking owner, t, ?_, rfl⟩
    by_cases same : owner = cur
    · subst same
      simp [Kernel.holds, setDoing_self, Doing.woken] at member
    · simpa [Kernel.holds, setDoing_doing, same] using member
  | spawning owner =>
    refine ⟨.spawning owner, t, ?_, rfl⟩
    by_cases same : owner = cur
    · subst same
      simp [Kernel.holds, setDoing_self, Doing.spawned] at member
    · simpa [Kernel.holds, setDoing_doing, same] using member
  | current => exact ⟨.current, t, member, rfl⟩
  | sleeping => exact ⟨.sleeping, t, member, rfl⟩
  | idle => exact ⟨.idle, t, member, rfl⟩
  | zombies => exact ⟨.zombies, t, member, rfl⟩
  | waiting queue => exact ⟨.waiting queue, t, member, rfl⟩

theorem Quiet.refl (k : Kernel) : Quiet k k :=
  ⟨.refl k, Iff.rfl, rfl, rfl, rfl, rfl, rfl⟩

theorem tick_quiet (k : Kernel) : Quiet k (tick k) := by
  unfold tick
  dsimp only
  split
  all_goals
    refine ⟨?_, Iff.rfl, rfl, rfl, rfl, rfl, rfl⟩
    intro place t member
    refine ⟨place, t, ?_, rfl⟩
    cases place <;> exact member

/-- The slot and the page tables of a thread under construction. -/
def Doing.slot : Doing → Option Nat
  | .creating slot _ _ => some slot
  | _ => none

def Doing.space : Doing → Option Nat
  | .creating _ _ aspace => aspace
  | _ => none

theorem Doing.reserved_congr {first second : Doing}
    (same : ∀ {slot id aspace}, first = .creating slot id aspace ↔
      second = .creating slot id aspace) :
    first.slot = second.slot ∧ first.space = second.space := by
  cases second with
  | creating slot id aspace => exact same.mpr rfl ▸ ⟨rfl, rfl⟩
  | nothing | spawning | waking =>
    cases first with
    | creating slot id aspace => cases same.mp rfl
    | nothing | spawning | waking => exact ⟨rfl, rfl⟩

/-- The sections that make or free no thread. -/
def Event.isQuiet : Event → Bool
  | .spawn _ | .spawnFails | .spawnBuilt | .finishSwitch => false
  | _ => true

theorem perform_quiet {event : Event}
    (kind : event.isQuiet = true) (allowed : enabled k cur event = true)
    (performed : perform k cur event = some later) : Quiet k later := by
  cases event with
  | spawn aspace => cases kind
  | spawnFails | spawnBuilt | finishSwitch => cases kind
  | spawnQueues =>
    simp only [perform] at performed
    cases doing : k.doing cur.id with
    | spawning t =>
      rw [doing] at performed
      cases performed
      refine queues_quiet ?_ (by simp [doing]) _
      rw [doing]
      exact List.Subset.refl _
    | nothing | creating | waking =>
      rw [doing] at performed
      cases performed
      exact .refl k
  | yieldNow | sleepMs ms | exit | wait queue =>
    exact reschedule_quiet performed
  | wakeOne queue =>
    have nothing : k.doing cur.id = .nothing := by
      simpa using (Bool.and_eq_true_iff.mp allowed).2
    simp only [perform] at performed
    cases waiting : k.waiters queue with
    | nil =>
      rw [waiting] at performed
      cases performed
      exact .refl k
    | cons t rest =>
      rw [waiting] at performed
      cases performed
      exact wakeTakes_quiet  waiting nothing
  | wakeAll queue =>
    have nothing : k.doing cur.id = .nothing := by
      simpa using (Bool.and_eq_true_iff.mp allowed).2
    simp only [perform] at performed
    cases waiting : k.waiters queue with
    | nil =>
      rw [waiting] at performed
      cases performed
      exact .refl k
    | cons t rest =>
      rw [waiting] at performed
      cases performed
      refine wakeTakes_quiet ?_ nothing
      rw [waiting, List.append_nil]
  | wakeQueues =>
    simp only [perform] at performed
    cases doing : k.doing cur.id with
    | waking threads =>
      rw [doing] at performed
      cases performed
      refine queues_quiet ?_ (by simp [doing]) k.queued
      rw [doing]
      exact List.subset_append_left _ _
    | nothing | creating | spawning =>
      rw [doing] at performed
      cases performed
      exact .refl k
  | tick =>
    cases performed
    exact tick_quiet k
  | preemptIfNeeded =>
    simp only [perform, preemptIfNeeded] at performed
    split at performed
    · refine Quiet.trans ?_ (reschedule_quiet performed)
      refine ⟨?_, Iff.rfl, rfl, rfl, rfl, rfl, rfl⟩
      intro place t member
      refine ⟨place, t, ?_, rfl⟩
      cases place <;> exact member
    · cases performed
      exact .refl k

end

end Eonos.Sched
