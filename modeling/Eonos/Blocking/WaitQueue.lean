import Eonos.Sched.Safety

/-!
# One wait queue of the scheduler

A blocking primitive owns one `WaitQueue` and reaches it through `wait_until`
and `wake_one` only.  The lemmas below say what each section of the scheduler
does to that queue, and that the running thread is never on it.
-/

namespace Eonos.Blocking

open Eonos.Sched

/-- The threads parked on a queue, first come first. -/
def queued (k : Kernel) (queue : Nat) : List Nat :=
  (k.waiters queue).map Thread.id

/-- The running thread can start a new call: it is in none of the sections of
an earlier one. -/
def free (k : Kernel) (cur : Thread) : Bool :=
  !k.switched && !cur.isIdle && k.doing cur.id = .nothing

/-- A section that parks on or wakes from the queue. -/
def names (queue : Nat) : Event → Bool
  | .wait other | .wakeOne other | .wakeAll other => other == queue
  | _ => false

/-- A section that interrupts the running thread wherever it is. -/
def interrupts : Event → Bool
  | .tick | .preemptIfNeeded | .finishSwitch => true
  | _ => false

/-- The queues once the current thread has left the processor. -/
def waitersAfter (how : Next) (cur : Thread) (waiters : Nat → List Thread) : Nat → List Thread :=
  match how with
  | .block queue => Function.update waiters queue (waiters queue ++ [cur])
  | _ => waiters

variable {k later : Kernel} {cur : Thread} {queue : Nat}

theorem parkCurrent_waiters {how : Next} (parked : parkCurrent how k = some (cur, later)) :
    k.sched.current = some cur ∧ later.waiters = waitersAfter how cur k.waiters := by
  unfold parkCurrent at parked
  cases running : k.sched.current with
  | none => simp [running] at parked
  | some thread =>
    simp only [running] at parked
    cases how with
    | yield =>
      split_ifs at parked
      · cases parked
        exact ⟨rfl, rfl⟩
      · cases parked
        exact ⟨rfl, rfl⟩
    | sleep wakeAt =>
      cases parked
      exact ⟨rfl, rfl⟩
    | exit =>
      cases parked
      exact ⟨rfl, rfl⟩
    | block queue =>
      cases parked
      exact ⟨rfl, rfl⟩

theorem pickNext_waiters {next : Thread} (picked : pickNext k = some (next, later)) :
    later.waiters = k.waiters := by
  unfold pickNext at picked
  split at picked
  · cases picked
    rfl
  · split at picked
    · cases picked
    · cases picked
      rfl

theorem reschedule_waiters {how : Next} (current : k.sched.current = some cur)
    (result : reschedule how k = some later) : later.waiters = waitersAfter how cur k.waiters := by
  rw [reschedule_eq] at result
  obtain ⟨⟨thread, parked⟩, parks, rest⟩ := Option.bind_eq_some_iff.mp result
  obtain ⟨⟨next, picked⟩, picks, last⟩ := Option.bind_eq_some_iff.mp rest
  cases last
  have same := (awaken_moves k).2.2.1
  obtain ⟨running, waiters⟩ := parkCurrent_waiters parks
  rw [same, current] at running
  cases running
  have kept := pickNext_waiters picks
  calc (dispatch cur next picked).waiters = picked.waiters := rfl
    _ = parked.waiters := kept
    _ = _ := waiters

theorem finishSwitch_waiters (k : Kernel) : (finishSwitch k).waiters = k.waiters := by
  obtain ⟨slots, folded⟩ := finishSwitch_fold k.sched.zombies
    { k with sched := { k.sched with zombies := [] }, switched := false }
  have result : finishSwitch k = _ := folded
  rw [result]

/-- A section that does not name the queue leaves it alone. -/
theorem perform_waiters {event : Event} (current : k.sched.current = some cur)
    (apart : names queue event = false) (performed : perform k cur event = some later) :
    later.waiters queue = k.waiters queue := by
  have updated : ∀ {other : Nat} (threads : List Thread),
      (other == queue) = false →
      Function.update k.waiters other threads queue = k.waiters queue := by
    intro other threads differs
    rw [Function.update_of_ne]
    exact Ne.symm (by simpa using differs)
  cases event with
  | spawn aspace =>
    simp only [perform] at performed
    split at performed <;> cases performed <;> rfl
  | spawnFails | spawnBuilt | spawnQueues | wakeQueues =>
    simp only [perform] at performed
    split at performed <;> cases performed <;> rfl
  | yieldNow | sleepMs ms | exit =>
    rw [reschedule_waiters current performed]
    rfl
  | wait other =>
    rw [reschedule_waiters current performed]
    exact updated _ apart
  | wakeOne other | wakeAll other =>
    simp only [perform] at performed
    split at performed
    · cases performed
      rfl
    · cases performed
      exact updated _ apart
  | tick =>
    cases performed
    unfold tick
    dsimp only
    split <;> rfl
  | preemptIfNeeded =>
    simp only [perform, preemptIfNeeded] at performed
    split at performed
    · have ticked : { k with
          needResched := false
          preemptions := k.preemptions + 1 }.sched.current = some cur :=
        current
      rw [reschedule_waiters ticked performed]
      rfl
    · cases performed
      rfl
  | finishSwitch =>
    cases performed
    rw [finishSwitch_waiters]

/-- Parking puts the running thread at the end of the queue. -/
theorem perform_wait (current : k.sched.current = some cur)
    (performed : perform k cur (.wait queue) = some later) :
    queued later queue = queued k queue ++ [cur.id] := by
  have waiters := reschedule_waiters current performed
  rw [queued, waiters, waitersAfter, Function.update_self, List.map_append]
  rfl

/-- Waking takes the first thread off the queue, if there is one. -/
theorem perform_wakeOne (performed : perform k cur (.wakeOne queue) = some later) :
    queued later queue = (queued k queue).tail := by
  simp only [perform] at performed
  cases waiting : k.waiters queue with
  | nil =>
    rw [waiting] at performed
    cases performed
    rw [queued, waiting]
    rfl
  | cons first rest =>
    rw [waiting] at performed
    cases performed
    simp [queued, waiting, Kernel.setDoing]

theorem queued_nodup (sound : Sound k) (queue : Nat) : (queued k queue).Nodup := by
  refine List.Nodup.of_map (fun id => (id, id == idleId)) ?_
  have same : (queued k queue).map (fun id => (id, id == idleId)) = k.keys (.waiting queue) := by
    rw [queued, Kernel.keys, List.map_map]
    refine List.map_congr_left ?_
    intro t held
    exact Prod.ext rfl (sound.conserved.alive (.waiting queue) held).2.2.symm
  rw [same]
  exact sound.conserved.placed.nodup _

theorem running_not_queued (sound : Sound k) (current : k.sched.current = some cur) (queue : Nat) :
    cur.id ∉ queued k queue := by
  intro member
  obtain ⟨t, held, same⟩ := List.mem_map.mp member
  have running : cur ∈ k.holds .current := by simp [Kernel.holds, current]
  have waiting : t ∈ k.holds (.waiting queue) := held
  have first := Kernel.mem_keys (.waiting queue) waiting
  rw [(sound.conserved.alive _ waiting).key_eq (sound.conserved.alive _ running) same] at first
  cases sound.conserved.placed.apart first (Kernel.mem_keys .current running)

end Eonos.Blocking
