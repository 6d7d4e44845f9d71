import Eonos.Blocking.WaitQueue

/-!
# The counting semaphore

`Semaphore` of `blocking.rs` on top of the scheduler.  `acquire` runs its
compare-and-swap loop with interrupts off; `try_acquire` can be interrupted
between its load and each of its attempts, and `release` between the increment
and its `wake_one`.  The count is an `i64`, whose increment wraps.
-/

namespace Eonos.Blocking.Semaphore

open Eonos.Sched

/-- Where a thread is in the code of the semaphore. -/
inductive Stage where
  | outside
  /-- In `acquire`, from a failed predicate to its next evaluation. -/
  | waiting
  /-- In the loop of `try_acquire`, about to replace the positive count it has
  seen. -/
  | trying (cur : { cur : Int // 0 < cur })
  /-- In `release`, between the increment and `wake_one`. -/
  | releasing
deriving DecidableEq, Repr

structure State where
  kernel : Kernel
  count : Int
  stage : Nat → Stage
  /-- Logs, which no operation reads: completed increments, successful
  acquisitions, and whether an increment has ever wrapped. -/
  increments : Nat
  acquisitions : Nat
  overflowed : Bool

inductive Event where
  /-- One round of `wait_until` in `acquire`, with as many spurious failures of
  `compare_exchange_weak`. -/
  | acquire (spurious : Nat)
  /-- The load of `try_acquire`. -/
  | tryAcquire
  /-- One attempt of `try_acquire`. -/
  | exchange (spurious : Bool)
  /-- `fetch_add` in `release`. -/
  | release
  /-- `pop_front` in the `wake_one` of `release`. -/
  | wakeOne
  /-- Any other section. -/
  | other (event : Sched.Event)
deriving DecidableEq, Repr

def i64Max : Int := 2 ^ 63 - 1

/-- An integer as an `i64`. -/
def wrap (value : Int) : Int := value.bmod (2 ^ 64)

/-- The predicate of `acquire`: the count it leaves, none if it fails.  With
interrupts off an attempt can only fail spuriously. -/
def takeLoop : Nat → Int → Option Int
  | 0, cur => if cur ≤ 0 then none else some (cur - 1)
  | spurious + 1, cur => if cur ≤ 0 then none else takeLoop spurious cur

/-- The head of the loop of `try_acquire`. -/
def tryStage (cur : Int) : Stage :=
  if positive : 0 < cur then .trying ⟨cur, positive⟩ else .outside

def enabled (queue : Nat) (s : State) (cur : Thread) : Event → Bool
  | .acquire _ =>
    free s.kernel cur &&
      (s.stage cur.id = .outside || s.stage cur.id = .waiting)
  | .tryAcquire | .release => free s.kernel cur && s.stage cur.id = .outside
  | .exchange _ =>
    free s.kernel cur &&
      match s.stage cur.id with
      | .trying _ => true
      | _ => false
  | .wakeOne => free s.kernel cur && s.stage cur.id = .releasing
  | .other event =>
    Sched.enabled s.kernel cur event && !names queue event &&
      (interrupts event || s.stage cur.id = .outside)

def State.setStage (s : State) (id : Nat) (stage : Stage) : State :=
  { s with stage := Function.update s.stage id stage }

/-- The effect of a section; none where the scheduler would panic. -/
def perform (queue : Nat) (s : State) (cur : Thread) : Event → Option State
  | .acquire spurious =>
    match takeLoop spurious s.count with
    | some count =>
      some ({ s with
        count, acquisitions := s.acquisitions + 1 }.setStage cur.id
          .outside)
    | none =>
      (Sched.perform s.kernel cur (.wait queue)).map fun kernel =>
        { s with kernel }.setStage cur.id .waiting
  | .tryAcquire => some (s.setStage cur.id (tryStage s.count))
  | .exchange spurious =>
    match s.stage cur.id with
    | .trying seen =>
      if s.count = seen.val ∧ spurious = false then
        some ({ s with
          count := seen.val - 1
          acquisitions := s.acquisitions + 1 }.setStage cur.id .outside)
      else some (s.setStage cur.id (tryStage s.count))
    | _ => some s
  | .release =>
    some ({ s with
      count := wrap (s.count + 1)
      increments := s.increments + 1
      overflowed := s.overflowed || s.count == i64Max }.setStage cur.id
        .releasing)
  | .wakeOne =>
    (Sched.perform s.kernel cur (.wakeOne queue)).map fun kernel =>
      { s with kernel }.setStage cur.id .outside
  | .other event =>
    (Sched.perform s.kernel cur event).map fun kernel => { s with kernel }

/-- The running thread comes to a section; none if it cannot. -/
def next (queue : Nat) (s : State) (event : Event) : Option State :=
  match s.kernel.sched.current with
  | none => none
  | some cur =>
    if enabled queue s cur event then perform queue s cur event else none

def Step (queue : Nat) (s later : State) : Prop :=
  ∃ event, next queue s event = some later

/-- A fresh semaphore in a running system. -/
def Initial (initial : Int) (queue : Nat) (s : State) : Prop :=
  Sched.Reachable s.kernel ∧ s.kernel.waiters queue = [] ∧
    s.count = initial ∧ (∀ id, s.stage id = .outside) ∧
    s.increments = 0 ∧ s.acquisitions = 0 ∧ s.overflowed = false

def Reachable (initial : Int) (queue : Nat) : State → Prop :=
  Lib.Reachable (Initial initial queue) (Step queue)

/-- Threads that have incremented the count and not called `wake_one` yet. -/
def releasing (s : State) : Set Nat := { id | s.stage id = .releasing }

/-- Threads woken from the queue that have not run their predicate again. -/
def woken (queue : Nat) (s : State) : Set Nat :=
  { id | s.stage id = .waiting ∧ id ∉ queued s.kernel queue }

/-! ## The count -/

theorem takeLoop_eq (spurious : Nat) (cur : Int) :
    takeLoop spurious cur = if cur ≤ 0 then none else some (cur - 1) := by
  induction spurious with
  | zero => rfl
  | succ spurious induction =>
    rw [takeLoop, induction]
    split
    · rfl
    · rfl

theorem wrap_range (value : Int) : -2 ^ 63 ≤ wrap value ∧ wrap value ≤ i64Max := by
  have low := Int.le_bmod (x := value) (m := 2 ^ 64) (by decide)
  have high := Int.bmod_lt (x := value) (m := 2 ^ 64) (by decide)
  simp only [wrap, i64Max]
  omega

theorem wrap_eq_self {value : Int} (low : -2 ^ 63 ≤ value)
    (high : value ≤ i64Max) : wrap value = value := by
  rw [i64Max] at high
  exact Int.bmod_eq_of_le (by omega) (by omega)

theorem wrap_add (value change : Int) : wrap (wrap value + change) = wrap (value + change) :=
  Int.bmod_add_bmod

/-- An increment adds one or wraps to the least `i64`. -/
theorem wrap_succ_le {value : Int} (low : -2 ^ 63 ≤ value)
    (high : value ≤ i64Max) : wrap (value + 1) ≤ value + 1 := by
  rcases lt_or_ge value i64Max with below | top
  · rw [wrap_eq_self (by omega) (by omega)]
  · have equal : value = i64Max := by omega
    rw [equal]
    decide

/-! ## The invariant -/

structure Inv (initial : Int) (queue : Nat) (s : State) : Prop where
  sound : Sound s.kernel
  parked : ∀ id ∈ queued s.kernel queue, s.stage id = .waiting
  finite : { id | s.stage id ≠ .outside }.Finite
  counted : s.count = wrap (initial + s.increments - s.acquisitions)
  exact : s.overflowed = false → 0 ≤ s.count ∧
    s.count = initial + s.increments - s.acquisitions
  bound : queued s.kernel queue ≠ [] →
    s.count ≤ (releasing s).ncard + (woken queue s).ncard

variable {initial : Int} {queue : Nat} {s later : State} {cur : Thread}

namespace Inv

theorem range (inv : Inv initial queue s) : -2 ^ 63 ≤ s.count ∧ s.count ≤ i64Max := by
  rw [inv.counted]
  exact wrap_range _

theorem releasing_finite (inv : Inv initial queue s) : (releasing s).Finite := by
  refine inv.finite.subset ?_
  intro id here outside
  cases here.symm.trans outside

theorem woken_finite (inv : Inv initial queue s) : (woken queue s).Finite := by
  refine inv.finite.subset ?_
  intro id here outside
  cases here.1.symm.trans outside

theorem setStage_finite (inv : Inv initial queue s) (id : Nat) (stage : Stage) :
    { other | (s.setStage id stage).stage other ≠ .outside }.Finite := by
  refine (inv.finite.insert id).subset ?_
  intro other active
  by_cases same : other = id
  · exact Set.mem_insert_iff.mpr (.inl same)
  · refine Set.mem_insert_of_mem _ ?_
    intro outside
    exact active ((Function.update_of_ne same _ _).trans outside)

end Inv

theorem inv_initial (low : 0 ≤ initial) (high : initial ≤ i64Max)
    (start : Initial initial queue s) : Inv initial queue s := by
  obtain ⟨reachable, empty, count, outside, none, taken, -⟩ := start
  have unqueued : queued s.kernel queue = [] := by rw [queued, empty]; rfl
  have sum : initial + s.increments - s.acquisitions = initial := by
    rw [none, taken]
    omega
  constructor
  · exact reachable_sound reachable
  · intro id member
    rw [unqueued] at member
    cases member
  · have nobody : { id | s.stage id ≠ .outside } = ∅ := by
      ext id
      simp [outside]
    rw [nobody]
    exact Set.finite_empty
  · rw [sum, wrap_eq_self (by omega) high, count]
  · intro _
    rw [sum, count]
    exact ⟨low, rfl⟩
  · intro filled
    exact absurd unqueued filled

/-- The running thread is not parked, so its next stage is nobody else's. -/
theorem Inv.setStage_parked (inv : Inv initial queue s)
    (current : s.kernel.sched.current = some cur) (stage : Stage) :
    ∀ id ∈ queued s.kernel queue, (s.setStage cur.id stage).stage id = .waiting := by
  intro id member
  have other : id ≠ cur.id := by
    rintro rfl
    exact running_not_queued inv.sound current queue member
  exact (Function.update_of_ne other _ _).trans (inv.parked id member)

/-- The caller takes `taken` units, none or one, and goes on to a stage in
which it neither waits nor owes a wakeup. -/
def leave (s : State) (cur : Thread) (taken : Nat) (stage : Stage) : State :=
  { s with
    count := s.count - taken
    acquisitions := s.acquisitions + taken }.setStage cur.id stage

variable {taken : Nat} {stage : Stage} {kernel : Kernel}

theorem leave_releasing (before : s.stage cur.id ≠ .releasing) (after : stage ≠ .releasing) :
    releasing (leave s cur taken stage) = releasing s := by
  ext id
  by_cases same : id = cur.id
  · subst same
    simp [releasing, leave, State.setStage, before, after]
  · simp [releasing, leave, State.setStage, same]

theorem leave_woken (after : stage ≠ .waiting) :
    woken queue (leave s cur taken stage) = woken queue s \ {cur.id} := by
  ext id
  by_cases same : id = cur.id
  · subst same
    simp [woken, leave, State.setStage, after]
  · simp [woken, leave, State.setStage, same]

theorem inv_leave (inv : Inv initial queue s) (current : s.kernel.sched.current = some cur)
    (before : s.stage cur.id ≠ .releasing) (after : stage ≠ .waiting ∧ stage ≠ .releasing)
    (units : (taken = 0 ∧ s.stage cur.id ≠ .waiting) ∨ (taken = 1 ∧ 0 < s.count)) :
    Inv initial queue (leave s cur taken stage) := by
  obtain ⟨low, high⟩ := inv.range
  have fits : -2 ^ 63 ≤ s.count - taken ∧ s.count - taken ≤ i64Max := by
    omega
  have sum : initial + s.increments - ((s.acquisitions + taken : Nat) : Int) =
      initial + s.increments - s.acquisitions - taken := by
    push_cast
    omega
  constructor
  · exact inv.sound
  · exact inv.setStage_parked current stage
  · exact inv.setStage_finite cur.id stage
  · change s.count - taken = wrap (initial + s.increments - ((s.acquisitions + taken : Nat) : Int))
    rw [sum, Int.sub_eq_add_neg, Int.sub_eq_add_neg (a := initial + _ - _),
      ← wrap_add, ← inv.counted, wrap_eq_self (by omega) (by omega)]
  · intro exact
    obtain ⟨positive, equal⟩ := inv.exact exact
    change 0 ≤ s.count - taken ∧ s.count - taken = initial + s.increments -
      ((s.acquisitions + taken : Nat) : Int)
    rw [sum]
    omega
  · intro filled
    have bound := inv.bound filled
    rw [leave_releasing before after.2, leave_woken after.1]
    change s.count - taken ≤ _
    rcases units with ⟨none, outside⟩ | ⟨one, -⟩
    · have absent : cur.id ∉ woken queue s := fun waits => outside waits.1
      rw [Set.sdiff_singleton_eq_self absent, none]
      simpa using bound
    · have left := Set.ncard_le_ncard_sdiff_add_ncard (woken queue s) {cur.id}
      rw [Set.ncard_singleton] at left
      omega

/-- A failed predicate found no unit, so the new waiter is owed nothing. -/
theorem inv_park (inv : Inv initial queue s) (current : s.kernel.sched.current = some cur)
    (exhausted : s.count ≤ 0) (sound : Sound kernel)
    (performed : Sched.perform s.kernel cur (.wait queue) = some kernel) :
    Inv initial queue ({ s with kernel }.setStage cur.id .waiting) := by
  constructor
  · exact sound
  · intro id member
    have arrived : id ∈ queued kernel queue := member
    rw [perform_wait current performed] at arrived
    rcases List.mem_append.mp arrived with before | last
    · exact inv.setStage_parked current .waiting id before
    · rw [List.mem_singleton.mp last]
      exact Function.update_self _ _ _
  · exact inv.setStage_finite cur.id .waiting
  · exact inv.counted
  · exact inv.exact
  · intro _
    have nonneg : (0 : Int) ≤
        (releasing ({ s with kernel }.setStage cur.id .waiting)).ncard +
        (woken queue ({ s with kernel }.setStage cur.id .waiting)).ncard := by
      positivity
    exact le_trans exhausted nonneg

/-- Every increment brings a wakeup with it. -/
theorem inv_release (inv : Inv initial queue s) (current : s.kernel.sched.current = some cur)
    (stage : s.stage cur.id = .outside) :
    Inv initial queue ({ s with
      count := wrap (s.count + 1)
      increments := s.increments + 1
      overflowed := s.overflowed || s.count == i64Max }.setStage cur.id
        .releasing) := by
  obtain ⟨low, high⟩ := inv.range
  have sum : initial + ((s.increments + 1 : Nat) : Int) - s.acquisitions =
      initial + s.increments - s.acquisitions + 1 := by
    push_cast
    omega
  constructor
  · exact inv.sound
  · exact inv.setStage_parked current .releasing
  · exact inv.setStage_finite cur.id .releasing
  · change wrap (s.count + 1) = wrap (initial + ((s.increments + 1 : Nat) : Int) - s.acquisitions)
    rw [sum, inv.counted, wrap_add]
  · intro exact
    obtain ⟨before, below⟩ := Bool.or_eq_false_iff.mp exact
    obtain ⟨positive, equal⟩ := inv.exact before
    have room : s.count ≠ i64Max := by simpa using below
    change 0 ≤ wrap (s.count + 1) ∧ wrap (s.count + 1) =
      initial + ((s.increments + 1 : Nat) : Int) - s.acquisitions
    rw [sum, wrap_eq_self (by omega) (by omega)]
    omega
  · intro filled
    have bound := inv.bound filled
    have absent : cur.id ∉ releasing s := by
      intro releases
      cases stage.symm.trans releases
    have more : releasing ({ s with
        count := wrap (s.count + 1)
        increments := s.increments + 1
        overflowed := s.overflowed || s.count == i64Max }.setStage cur.id
          .releasing) = insert cur.id (releasing s) := by
      ext id
      by_cases same : id = cur.id
      · subst same
        simp [releasing, State.setStage]
      · simp [releasing, State.setStage, same]
    have same : woken queue ({ s with
        count := wrap (s.count + 1)
        increments := s.increments + 1
        overflowed := s.overflowed || s.count == i64Max }.setStage cur.id
          .releasing) = woken queue s := by
      ext id
      by_cases same : id = cur.id
      · subst same
        simp [woken, State.setStage, stage]
      · simp [woken, State.setStage, same]
    rw [more, same, Set.ncard_insert_of_notMem absent inv.releasing_finite]
    have next := wrap_succ_le low high
    change wrap (s.count + 1) ≤ _
    push_cast
    omega

/-- A wakeup is handed from the release to the thread taken off the queue. -/
theorem inv_wakeOne (inv : Inv initial queue s) (current : s.kernel.sched.current = some cur)
    (stage : s.stage cur.id = .releasing) (sound : Sound kernel)
    (performed : Sched.perform s.kernel cur (.wakeOne queue) = some kernel) :
    Inv initial queue ({ s with kernel }.setStage cur.id .outside) := by
  have tail := perform_wakeOne performed
  constructor
  · exact sound
  · intro id member
    have old : id ∈ (queued s.kernel queue).tail := tail ▸ member
    exact inv.setStage_parked current .outside id (List.mem_of_mem_tail old)
  · exact inv.setStage_finite cur.id .outside
  · exact inv.counted
  · exact inv.exact
  · intro filled
    have filled' : queued kernel queue ≠ [] := filled
    cases threads : queued s.kernel queue with
    | nil =>
      rw [tail, threads] at filled'
      exact absurd rfl filled'
    | cons first rest =>
      have nodup := queued_nodup inv.sound queue
      rw [threads] at nodup
      have bound := inv.bound (by rw [threads]; exact List.cons_ne_nil _ _)
      have parked := inv.parked first (threads ▸ List.mem_cons_self)
      have elsewhere : first ≠ cur.id := by
        rintro rfl
        cases parked.symm.trans stage
      have fewer : releasing ({ s with kernel }.setStage cur.id .outside) =
          releasing s \ {cur.id} := by
        ext id
        by_cases same : id = cur.id
        · subst same
          simp [releasing, State.setStage]
        · simp [releasing, State.setStage, same]
      have more : woken queue ({ s with kernel }.setStage cur.id .outside) =
          insert first (woken queue s) := by
        ext id
        by_cases same : id = cur.id
        · subst same
          simp [woken, State.setStage, stage, elsewhere.symm]
        by_cases head : id = first
        · subst head
          simp [woken, State.setStage, same, parked, tail, threads, (List.nodup_cons.mp nodup).1]
        · simp [woken, State.setStage, same, tail, threads, head]
      have absent : first ∉ woken queue s := by
        intro already
        exact already.2 (threads ▸ List.mem_cons_self)
      have here : cur.id ∈ releasing s := stage
      have one := Set.ncard_sdiff_singleton_add_one here inv.releasing_finite
      rw [fewer, more, Set.ncard_insert_of_notMem absent inv.woken_finite]
      change s.count ≤ _
      push_cast
      omega

theorem inv_other {event : Sched.Event} (inv : Inv initial queue s)
    (current : s.kernel.sched.current = some cur) (apart : names queue event = false)
    (sound : Sound kernel) (performed : Sched.perform s.kernel cur event = some kernel) :
    Inv initial queue { s with kernel } := by
  have same : queued kernel queue = queued s.kernel queue := by
    rw [queued, perform_waiters current apart performed, queued]
  have wakes : woken queue { s with kernel } = woken queue s := by
    ext id
    simp [woken, same]
  constructor
  · exact sound
  · intro id member
    exact inv.parked id (same ▸ member)
  · exact inv.finite
  · exact inv.counted
  · exact inv.exact
  · intro filled
    rw [wakes]
    exact inv.bound (same ▸ filled)

theorem next_cases {event : Event} (taken : next queue s event = some later) :
    ∃ cur, s.kernel.sched.current = some cur ∧
      enabled queue s cur event = true ∧
      perform queue s cur event = some later := by
  unfold next at taken
  split at taken
  · cases taken
  · rename_i cur current
    split at taken
    · rename_i allowed
      exact ⟨cur, current, allowed, taken⟩
    · cases taken

theorem tryStage_leaves (cur : Int) : tryStage cur ≠ .waiting ∧ tryStage cur ≠ .releasing := by
  unfold tryStage
  split
  · exact ⟨by simp, by simp⟩
  · exact ⟨by simp, by simp⟩

theorem inv_step (inv : Inv initial queue s) (step : Step queue s later) :
    Inv initial queue later := by
  obtain ⟨event, taken⟩ := step
  obtain ⟨cur, current, allowed, performed⟩ := next_cases taken
  -- each section of the scheduler used here is one it can come to
  have section_sound : ∀ event {kernel},
      Sched.enabled s.kernel cur event = true →
      Sched.perform s.kernel cur event = some kernel → Sound kernel := by
    intro event kernel possible result
    obtain ⟨next, same, sound⟩ := perform_sound inv.sound current possible
    rw [result] at same
    cases same
    exact sound
  -- a loop of `try_acquire` that has not taken a unit goes round again
  have again : s.stage cur.id ≠ .waiting → s.stage cur.id ≠ .releasing →
      Inv initial queue (s.setStage cur.id (tryStage s.count)) := by
    intro notWaiting notReleasing
    have left := inv_leave inv current notReleasing (tryStage_leaves s.count)
      (.inl ⟨rfl, notWaiting⟩)
    have same : leave s cur 0 (tryStage s.count) = s.setStage cur.id (tryStage s.count) := by
      simp [leave]
    rwa [same] at left
  cases event with
  | acquire spurious =>
    obtain ⟨idle, stage⟩ := Bool.and_eq_true_iff.mp allowed
    simp only [Bool.or_eq_true, decide_eq_true_eq] at stage
    have notReleasing : s.stage cur.id ≠ .releasing := by
      rcases stage with stage | stage <;> simp [stage]
    simp only [perform, takeLoop_eq] at performed
    by_cases exhausted : s.count ≤ 0
    · rw [if_pos exhausted] at performed
      obtain ⟨kernel, result, rfl⟩ := Option.map_eq_some_iff.mp performed
      exact inv_park inv current exhausted (section_sound (.wait queue) idle result) result
    · rw [if_neg exhausted] at performed
      cases performed
      exact inv_leave inv current notReleasing ⟨by simp, by simp⟩ (.inr ⟨rfl, by omega⟩)
  | tryAcquire =>
    have stage : s.stage cur.id = .outside :=
      of_decide_eq_true (Bool.and_eq_true_iff.mp allowed).2
    cases performed
    exact again (by simp [stage]) (by simp [stage])
  | exchange spurious =>
    simp only [perform] at performed
    split at performed
    · rename_i seen stage
      split at performed
      · rename_i matched
        cases performed
        have positive : 0 < s.count := by
          rw [matched.1]
          exact seen.property
        rw [← matched.1]
        exact inv_leave inv current (by simp [stage]) ⟨by simp, by simp⟩ (.inr ⟨rfl, positive⟩)
      · cases performed
        exact again (by simp [stage]) (by simp [stage])
    · cases performed
      exact inv
  | release =>
    have stage : s.stage cur.id = .outside :=
      of_decide_eq_true (Bool.and_eq_true_iff.mp allowed).2
    cases performed
    exact inv_release inv current stage
  | wakeOne =>
    obtain ⟨idle, stage⟩ := Bool.and_eq_true_iff.mp allowed
    obtain ⟨kernel, result, rfl⟩ := Option.map_eq_some_iff.mp performed
    exact inv_wakeOne inv current (of_decide_eq_true stage)
      (section_sound (.wakeOne queue) idle result) result
  | other event =>
    obtain ⟨kernel, result, rfl⟩ := Option.map_eq_some_iff.mp performed
    simp only [enabled, Bool.and_eq_true, Bool.not_eq_true'] at allowed
    exact inv_other inv current allowed.1.2 (section_sound event allowed.1.1 result) result

theorem reachable_inv (low : 0 ≤ initial) (high : initial ≤ i64Max)
    (reachable : Reachable initial queue s) : Inv initial queue s := by
  refine Lib.Reachable.invariant ?_ ?_ reachable
  · intro state start
    exact inv_initial low high start
  · intro state later inv step
    exact inv_step inv step

/-- Over every run the count is the initial one plus the increments less the
acquisitions, as an `i64`; it is that number, and not negative, as long as no
increment has wrapped; and while threads are parked it never exceeds the
wakeups under way. -/
theorem reachable_count_and_wakeups (low : 0 ≤ initial)
    (high : initial ≤ i64Max) (reachable : Reachable initial queue s) :
    s.count = wrap (initial + s.increments - s.acquisitions) ∧
    (s.overflowed = false → 0 ≤ s.count ∧
      s.count = initial + s.increments - s.acquisitions) ∧
    (s.kernel.waiters queue ≠ [] →
      s.count ≤ { id | s.stage id = .releasing }.ncard +
        { id | s.stage id = .waiting ∧
          id ∉ (s.kernel.waiters queue).map Thread.id }.ncard) ∧
    ∀ t ∈ s.kernel.waiters queue, s.stage t.id = .waiting := by
  have inv := reachable_inv low high reachable
  refine ⟨inv.counted, inv.exact, ?_, ?_⟩
  · intro filled
    exact inv.bound (by simpa [queued] using filled)
  · intro t member
    exact inv.parked t.id (List.mem_map_of_mem member)

/-- A fresh semaphore as the scheduler starts. -/
def fresh (initial : Int) : State :=
  ⟨boot 0 100 0 0 0, initial, fun _ => .outside, 0, 0, false⟩

theorem fresh_reachable (initial : Int) (queue : Nat) : Reachable initial queue (fresh initial) :=
  Lib.Reachable.start ⟨Lib.Reachable.start ⟨0, 100, 0, 0, 0, rfl⟩, rfl, rfl,
    fun _ => rfl, rfl, rfl, rfl⟩

/-- A second thread parks on the empty semaphore and the boot thread
releases. -/
def sampleEvents : List Event :=
  [.other (.spawn none), .other .spawnBuilt, .other .spawnQueues,
    .other .yieldNow, .other .finishSwitch, .acquire 2, .other .finishSwitch,
    .release]

theorem sampleEvents_wakeups :
    ∃ s, sampleEvents.foldlM (next 7) (fresh 0) = some s ∧
      s.kernel.waiters 7 ≠ [] ∧ s.count = 1 ∧
      s.count ≤ { id | s.stage id = .releasing }.ncard +
        { id | s.stage id = .waiting ∧
          id ∉ (s.kernel.waiters 7).map Thread.id }.ncard := by
  obtain ⟨s, ran, filled, one⟩ : ∃ s,
      sampleEvents.foldlM (next 7) (fresh 0) = some s ∧
        s.kernel.waiters 7 ≠ [] ∧ s.count = 1 :=
    ⟨_, rfl, List.cons_ne_nil _ _, by decide⟩
  have reachable : Reachable 0 7 s := Lib.Reachable.run (fun _ event _ taken => ⟨event, taken⟩)
    sampleEvents (fresh_reachable 0 7) ran
  exact ⟨s, ran, filled, one, (reachable_count_and_wakeups (by decide) (by decide) reachable).2.2.1
    filled⟩

/-- One release of a semaphore at the greatest `i64` makes the count
negative. -/
theorem fresh_release_wraps :
    (0 : Int) ≤ i64Max ∧ ∃ s, Reachable i64Max 7 s ∧ s.increments = 1 ∧
      s.acquisitions = 0 ∧ s.count < 0 ∧
      s.count ≠ i64Max + s.increments - s.acquisitions := by
  refine ⟨by decide, ?_⟩
  obtain ⟨s, ran, one, none, count⟩ : ∃ s,
      [Event.release].foldlM (next 7) (fresh i64Max) = some s ∧
        s.increments = 1 ∧ s.acquisitions = 0 ∧ s.count = -2 ^ 63 :=
    ⟨_, rfl, rfl, rfl, by decide⟩
  have reachable : Reachable i64Max 7 s := Lib.Reachable.run (fun _ event _ taken => ⟨event, taken⟩)
    [.release] (fresh_reachable i64Max 7) ran
  refine ⟨s, reachable, one, none, ?_, ?_⟩
  · rw [count]
    decide
  · rw [count, one, none]
    decide

end Eonos.Blocking.Semaphore
