import Eonos.Blocking.WaitQueue

/-!
# The blocking mutex

`Mutex` of `blocking.rs` on top of the scheduler.  A call is cut where the
timer can strike: each round of `wait_until` is one interrupts-off section,
the store of a guard's drop and its `wake_one` are two, and every other section
of the scheduler may come in between.
-/

namespace Eonos.Blocking.Mutex

open Eonos.Sched

/-- Where a thread is in the code of the mutex. -/
inductive Stage where
  | outside
  /-- In `lock`, from a failed swap to the next one. -/
  | waiting
  /-- In a guard's drop, between the store and `wake_one`. -/
  | unlocking
deriving DecidableEq, Repr

structure State where
  kernel : Kernel
  locked : Bool
  stage : Nat → Stage
  /-- How many guards each thread has: from its successful swap to the store in
  the guard's drop. -/
  guards : Nat → Nat

inductive Event where
  /-- One round of `wait_until` in `lock`. -/
  | lock
  | tryLock
  /-- `locked.store(false)` in a guard's drop. -/
  | unlock
  /-- `pop_front` in the `wake_one` of a guard's drop. -/
  | wakeOne
  /-- Any other section. -/
  | other (event : Sched.Event)
deriving DecidableEq, Repr

/-- What the running thread can come to next.  Other code does not touch the
queue, which is private to the mutex. -/
def enabled (queue : Nat) (s : State) (cur : Thread) : Event → Bool
  | .lock =>
    free s.kernel cur &&
      (s.stage cur.id = .outside || s.stage cur.id = .waiting)
  | .tryLock => free s.kernel cur && s.stage cur.id = .outside
  | .unlock =>
    free s.kernel cur && s.stage cur.id = .outside && 0 < s.guards cur.id
  | .wakeOne => free s.kernel cur && s.stage cur.id = .unlocking
  | .other event =>
    Sched.enabled s.kernel cur event && !names queue event &&
      (interrupts event || s.stage cur.id = .outside)

/-- The swap found the lock free: the calling thread has a guard. -/
def take (s : State) (cur : Thread) : State :=
  { s with
    locked := true
    stage := Function.update s.stage cur.id .outside
    guards := Function.update s.guards cur.id (s.guards cur.id + 1) }

/-- The effect of a section; none where the scheduler would panic. -/
def perform (queue : Nat) (s : State) (cur : Thread) : Event → Option State
  | .lock =>
    if s.locked then
      (Sched.perform s.kernel cur (.wait queue)).map fun kernel =>
        { s with
          kernel, locked := true
          stage := Function.update s.stage cur.id .waiting }
    else some (take s cur)
  | .tryLock =>
    if s.locked then some { s with locked := true } else some (take s cur)
  | .unlock =>
    some { s with
      locked := false
      stage := Function.update s.stage cur.id .unlocking
      guards := Function.update s.guards cur.id (s.guards cur.id - 1) }
  | .wakeOne =>
    (Sched.perform s.kernel cur (.wakeOne queue)).map fun kernel =>
      { s with
        kernel, stage := Function.update s.stage cur.id .outside }
  | .other event =>
    (Sched.perform s.kernel cur event).map fun kernel => { s with kernel }

/-- The running thread comes to a section; none if it cannot. -/
def next (queue : Nat) (s : State) (event : Event) : Option State :=
  match s.kernel.sched.current with
  | none => none
  | some cur =>
    if enabled queue s cur event then perform queue s cur event else none

def Step (queue : Nat) (s later : State) : Prop :=
  ∃ event, next queue s event = some later

/-- A fresh mutex in a running system. -/
def Initial (queue : Nat) (s : State) : Prop :=
  Sched.Reachable s.kernel ∧ s.kernel.waiters queue = [] ∧
    s.locked = false ∧ (∀ id, s.stage id = .outside) ∧ ∀ id, s.guards id = 0

def Reachable (queue : Nat) : State → Prop :=
  Lib.Reachable (Initial queue) (Step queue)

/-- Woken from the queue, and the predicate not yet evaluated again. -/
def Woken (queue : Nat) (s : State) (id : Nat) : Prop :=
  s.stage id = .waiting ∧ id ∉ queued s.kernel queue

/-- Somebody is on the way to a waiter, or a woken waiter to the lock. -/
def Signalled (queue : Nat) (s : State) : Prop :=
  ∃ id, s.stage id = .unlocking ∨ Woken queue s id

structure Inv (queue : Nat) (s : State) : Prop where
  sound : Sound s.kernel
  parked : ∀ id ∈ queued s.kernel queue, s.stage id = .waiting
  holder : s.locked = true → ∃ id, s.guards id = 1 ∧
    ∀ other, other ≠ id → s.guards other = 0
  vacant : s.locked = false → ∀ id, s.guards id = 0
  signalled : s.locked = false → queued s.kernel queue ≠ [] →
    Signalled queue s

variable {queue : Nat} {s later : State} {cur : Thread}

theorem inv_initial (initial : Initial queue s) : Inv queue s := by
  obtain ⟨reachable, empty, unlocked, -, unheld⟩ := initial
  have none : queued s.kernel queue = [] := by rw [queued, empty]; rfl
  constructor
  · exact reachable_sound reachable
  · intro id member
    rw [none] at member
    cases member
  · intro locked
    rw [unlocked] at locked
    cases locked
  · intro _
    exact unheld
  · intro _ some
    exact absurd none some

/-- Taking a free lock makes the caller its only holder. -/
theorem inv_take (inv : Inv queue s) (current : s.kernel.sched.current = some cur)
    (unlocked : s.locked = false) : Inv queue (take s cur) := by
  have unheld := inv.vacant unlocked
  constructor
  · exact inv.sound
  · intro id member
    have other : id ≠ cur.id := by
      rintro rfl
      exact running_not_queued inv.sound current queue member
    have stage : (take s cur).stage id = s.stage id :=
      Function.update_of_ne other _ _
    rw [stage]
    exact inv.parked id member
  · intro _
    refine ⟨cur.id, ?_, ?_⟩
    · simp [take, unheld]
    · intro other elsewhere
      simp [take, elsewhere, unheld]
  · intro contradiction
    cases contradiction
  · intro contradiction
    cases contradiction

variable {kernel : Kernel}

theorem inv_park (inv : Inv queue s) (current : s.kernel.sched.current = some cur)
    (locked : s.locked = true) (sound : Sound kernel)
    (performed : Sched.perform s.kernel cur (.wait queue) = some kernel) :
    Inv queue { s with
      kernel, locked := true
      stage := Function.update s.stage cur.id .waiting } := by
  constructor
  · exact sound
  · intro id member
    by_cases same : id = cur.id
    · rw [same]
      exact Function.update_self _ _ _
    · have old : id ∈ queued s.kernel queue := by
        have member' : id ∈ queued kernel queue := member
        rw [perform_wait current performed] at member'
        rcases List.mem_append.mp member' with before | last
        · exact before
        · exact absurd (List.mem_singleton.mp last) same
      exact (Function.update_of_ne same _ _).trans (inv.parked id old)
  · intro _
    exact inv.holder locked
  · intro contradiction
    cases contradiction
  · intro contradiction
    cases contradiction

theorem inv_unlock (inv : Inv queue s) (current : s.kernel.sched.current = some cur)
    (held : 0 < s.guards cur.id) :
    Inv queue { s with
      locked := false
      stage := Function.update s.stage cur.id .unlocking
      guards := Function.update s.guards cur.id (s.guards cur.id - 1) } := by
  -- a guard exists, so the lock is taken and this is the only one
  have locked : s.locked = true := by
    cases known : s.locked with
    | true => rfl
    | false =>
      have none := inv.vacant known cur.id
      omega
  obtain ⟨id, one, others⟩ := inv.holder locked
  have same : cur.id = id := by
    by_contra elsewhere
    have none := others cur.id elsewhere
    omega
  subst same
  constructor
  · exact inv.sound
  · intro id member
    have other : id ≠ cur.id := by
      rintro rfl
      exact running_not_queued inv.sound current queue member
    exact (Function.update_of_ne other _ _).trans (inv.parked id member)
  · intro contradiction
    cases contradiction
  · intro _ id
    by_cases same : id = cur.id
    · subst same
      simp [one]
    · simp [same, others id same]
  · intro _ _
    exact ⟨cur.id, .inl (Function.update_self _ _ _)⟩

/-- The drop's `wake_one` hands its duty to the thread it takes off the
queue. -/
theorem inv_wakeOne (inv : Inv queue s) (stage : s.stage cur.id = .unlocking) (sound : Sound kernel)
    (performed : Sched.perform s.kernel cur (.wakeOne queue) = some kernel) :
    Inv queue { s with kernel, stage := Function.update s.stage cur.id .outside } := by
  have tail := perform_wakeOne performed
  have parked : ∀ id ∈ queued s.kernel queue,
      Function.update s.stage cur.id .outside id = .waiting := by
    intro id member
    have waiting := inv.parked id member
    have other : id ≠ cur.id := by
      rintro rfl
      rw [stage] at waiting
      cases waiting
    exact (Function.update_of_ne other _ _).trans waiting
  constructor
  · exact sound
  · intro id member
    have old : id ∈ (queued s.kernel queue).tail := tail ▸ member
    exact parked id (List.mem_of_mem_tail old)
  · exact inv.holder
  · exact inv.vacant
  · intro _ filled
    have filled' : queued kernel queue ≠ [] := filled
    cases threads : queued s.kernel queue with
    | nil =>
      rw [tail, threads] at filled'
      exact absurd rfl filled'
    | cons first rest =>
      have nodup := queued_nodup inv.sound queue
      rw [threads] at nodup
      refine ⟨first, .inr ⟨parked first (threads ▸ List.mem_cons_self), ?_⟩⟩
      change first ∉ queued kernel queue
      rw [tail, threads]
      exact (List.nodup_cons.mp nodup).1

theorem inv_other {event : Sched.Event} (inv : Inv queue s)
    (current : s.kernel.sched.current = some cur) (apart : names queue event = false)
    (sound : Sound kernel) (performed : Sched.perform s.kernel cur event = some kernel) :
    Inv queue { s with kernel } := by
  have same : queued kernel queue = queued s.kernel queue := by
    rw [queued, perform_waiters current apart performed, queued]
  constructor
  · exact sound
  · intro id member
    exact inv.parked id (same ▸ member)
  · exact inv.holder
  · exact inv.vacant
  · intro unlocked filled
    obtain ⟨id, unlocking | ⟨waiting, absent⟩⟩ :=
      inv.signalled unlocked (same ▸ filled)
    · exact ⟨id, .inl unlocking⟩
    · exact ⟨id, .inr ⟨waiting, same ▸ absent⟩⟩

theorem next_cases {event : Event} (taken : next queue s event = some later) :
    ∃ cur, s.kernel.sched.current = some cur ∧
      enabled queue s cur event = true ∧
      perform queue s cur event = some later := by
  unfold next at taken
  split at taken
  · cases taken
  · rename_i cur current
    split at taken
    · rename_i allowed
      exact ⟨cur, current, allowed, taken⟩
    · cases taken

theorem inv_step (inv : Inv queue s) (step : Step queue s later) : Inv queue later := by
  obtain ⟨event, taken⟩ := step
  obtain ⟨cur, current, allowed, performed⟩ := next_cases taken
  -- each section of the scheduler used here is one it can come to
  have section_sound : ∀ event {kernel},
      Sched.enabled s.kernel cur event = true →
      Sched.perform s.kernel cur event = some kernel → Sound kernel := by
    intro event kernel possible result
    obtain ⟨next, same, sound⟩ := perform_sound inv.sound current possible
    rw [result] at same
    cases same
    exact sound
  cases event with
  | lock =>
    have idle := (Bool.and_eq_true_iff.mp allowed).1
    simp only [perform] at performed
    split at performed
    · rename_i locked
      obtain ⟨kernel, result, rfl⟩ := Option.map_eq_some_iff.mp performed
      exact inv_park inv current locked (section_sound (.wait queue) idle result) result
    · rename_i unlocked
      cases performed
      exact inv_take inv current (by simpa using unlocked)
  | tryLock =>
    simp only [perform] at performed
    split at performed
    · rename_i locked
      cases performed
      have same : { s with locked := true } = s := by rw [← locked]
      rw [same]
      exact inv
    · rename_i unlocked
      cases performed
      exact inv_take inv current (by simpa using unlocked)
  | unlock =>
    cases performed
    exact inv_unlock inv current (of_decide_eq_true (Bool.and_eq_true_iff.mp allowed).2)
  | wakeOne =>
    obtain ⟨idle, stage⟩ := Bool.and_eq_true_iff.mp allowed
    obtain ⟨kernel, result, rfl⟩ := Option.map_eq_some_iff.mp performed
    exact inv_wakeOne inv (of_decide_eq_true stage)
      (section_sound (.wakeOne queue) idle result) result
  | other event =>
    obtain ⟨kernel, result, rfl⟩ := Option.map_eq_some_iff.mp performed
    simp only [enabled, Bool.and_eq_true, Bool.not_eq_true'] at allowed
    exact inv_other inv current allowed.1.2 (section_sound event allowed.1.1 result) result

theorem reachable_inv (reachable : Reachable queue s) : Inv queue s := by
  refine Lib.Reachable.invariant ?_ ?_ reachable
  · intro state initial
    exact inv_initial initial
  · intro state later inv step
    exact inv_step inv step

/-- Mutual exclusion and no lost wakeup over every run: at most one guard, and
one exactly while `locked` is set; and whenever the lock is free with threads
parked, a drop is about to wake one or a woken thread is about to retry. -/
theorem reachable_exclusive_and_signalled (reachable : Reachable queue s) :
    (∀ first second, 0 < s.guards first → 0 < s.guards second →
      first = second ∧ s.guards first = 1) ∧
    (s.locked = true ↔ ∃ id, 0 < s.guards id) ∧
    (s.locked = false → s.kernel.waiters queue ≠ [] →
      ∃ id, s.stage id = .unlocking ∨
        (s.stage id = .waiting ∧
          id ∉ (s.kernel.waiters queue).map Thread.id)) ∧
    ∀ t ∈ s.kernel.waiters queue, s.stage t.id = .waiting := by
  have inv := reachable_inv reachable
  refine ⟨?_, ?_, ?_, ?_⟩
  · intro first second one two
    have locked : s.locked = true := by
      by_contra unlocked
      have none := inv.vacant (by simpa using unlocked) first
      omega
    obtain ⟨id, only, others⟩ := inv.holder locked
    have atHolder : ∀ {thread}, 0 < s.guards thread → thread = id := by
      intro thread held
      by_contra elsewhere
      have none := others thread elsewhere
      omega
    rw [atHolder one, atHolder two]
    exact ⟨rfl, only⟩
  · constructor
    · intro locked
      obtain ⟨id, only, -⟩ := inv.holder locked
      exact ⟨id, by omega⟩
    · rintro ⟨id, held⟩
      by_contra unlocked
      have none := inv.vacant (by simpa using unlocked) id
      omega
  · intro unlocked filled
    exact inv.signalled unlocked (by simpa [queued] using filled)
  · intro t member
    exact inv.parked t.id (List.mem_map_of_mem member)

/-- A fresh mutex as the scheduler starts. -/
def fresh : State :=
  ⟨boot 0 100 0 0 0, false, fun _ => .outside, fun _ => 0⟩

/-- The boot thread holds the lock while a second thread parks on it, and then
unlocks. -/
def sampleEvents : List Event :=
  [.lock, .other (.spawn none), .other .spawnBuilt, .other .spawnQueues,
    .other .yieldNow, .other .finishSwitch, .lock, .other .finishSwitch,
    .unlock]

theorem sampleEvents_signalled :
    ∃ s, sampleEvents.foldlM (next 7) fresh = some s ∧ s.locked = false ∧
      s.kernel.waiters 7 ≠ [] ∧
      ∃ id, s.stage id = .unlocking ∨
        (s.stage id = .waiting ∧ id ∉ (s.kernel.waiters 7).map Thread.id) := by
  obtain ⟨s, ran, unlocked, filled⟩ : ∃ s,
      sampleEvents.foldlM (next 7) fresh = some s ∧ s.locked = false ∧
        s.kernel.waiters 7 ≠ [] :=
    ⟨_, rfl, rfl, List.cons_ne_nil _ _⟩
  have start : Reachable 7 fresh := Lib.Reachable.start ⟨Lib.Reachable.start ⟨0, 100, 0, 0, 0, rfl⟩,
    rfl, rfl, fun _ => rfl, fun _ => rfl⟩
  have reachable : Reachable 7 s := Lib.Reachable.run
    (fun _ event _ taken => ⟨event, taken⟩) sampleEvents start ran
  exact ⟨s, ran, unlocked, filled,
    (reachable_exclusive_and_signalled reachable).2.2.1 unlocked filled⟩

end Eonos.Blocking.Mutex
