import Eonos.Lib.Placement
import Eonos.Sched.Model

/-!
# Threads move between places

Every list of threads in the kernel is a place.  The lemmas below say which
threads each half of `reschedule` moves, and from which place to which.
-/

namespace Eonos.Sched

/-! ### Waking the sleepers -/

theorem swapRemove_append (first rest : List Thread) (removed last : Thread) :
    swapRemove (first ++ removed :: (rest ++ [last])) first.length = first ++ last :: rest := by
  have ending : (first ++ removed :: (rest ++ [last])).getLast? = some last := by
    rw [← List.cons_append, ← List.append_assoc]
    exact List.getLast?_concat
  rw [swapRemove, ending]
  simp only [List.set_append_right _ _ (Nat.le_refl _), Nat.sub_self, List.set_cons_zero]
  rw [← List.cons_append, ← List.append_assoc, List.dropLast_concat]

theorem swapRemove_last (first : List Thread) (removed : Thread) :
    swapRemove (first ++ [removed]) first.length = first := by
  simp [swapRemove, List.set_append_right]

theorem swapRemove_cases {threads : List Thread} {i : Nat} {t : Thread}
    (found : threads[i]? = some t) :
    threads.Perm (t :: swapRemove threads i) ∧ (swapRemove threads i).take i = threads.take i := by
  obtain ⟨inside, same⟩ := List.getElem?_eq_some_iff.mp found
  have split : threads = threads.take i ++ t :: threads.drop (i + 1) := by
    rw [← same, List.getElem_cons_drop, List.take_append_drop]
  have size : (threads.take i).length = i := by
    simp [Nat.le_of_lt inside]
  generalize threads.take i = first at split size ⊢
  generalize threads.drop (i + 1) = rest at split
  subst split size
  rcases List.eq_nil_or_concat rest with rfl | ⟨middle, last, rfl⟩
  · rw [swapRemove_last]
    exact ⟨List.perm_append_comm, by simp⟩
  · rw [List.concat_eq_append, swapRemove_append]
    refine ⟨?_, by simp⟩
    refine List.perm_middle.trans (List.Perm.cons t ?_)
    rw [← List.append_assoc]
    exact (List.perm_append_singleton last _).trans List.perm_middle.symm

theorem wakeLoop_split (now : Nat) (fuel i : Nat)
    (sleeping ready : List Thread) (enough : sleeping.length ≤ fuel + i)
    (early : ∀ t ∈ sleeping.take i, now < t.wakeAt) :
    ∃ due, (wakeLoop now fuel i sleeping ready).2 = ready ++ due ∧
      sleeping.Perm (due ++ (wakeLoop now fuel i sleeping ready).1) ∧
      (∀ t ∈ due, t.wakeAt ≤ now) ∧
      ∀ t ∈ (wakeLoop now fuel i sleeping ready).1, now < t.wakeAt := by
  induction fuel generalizing i sleeping ready with
  | zero =>
      rw [Nat.zero_add] at enough
      rw [List.take_of_length_le enough] at early
      exact ⟨[], by simp [wakeLoop], by simp [wakeLoop], by simp,
        by simpa [wakeLoop] using early⟩
  | succ fuel induction =>
      cases found : sleeping[i]? with
      | none =>
          have short := List.getElem?_eq_none_iff.mp found
          rw [List.take_of_length_le short] at early
          exact ⟨[], by simp [wakeLoop, found], by simp [wakeLoop, found],
            by simp, by simpa [wakeLoop, found] using early⟩
      | some t =>
          obtain ⟨removed, kept⟩ := swapRemove_cases found
          by_cases passed : t.wakeAt ≤ now
          · have size := removed.length_eq
            obtain ⟨due, readied, left, woken, asleep⟩ :=
              induction i (swapRemove sleeping i) (ready ++ [t])
                (by simp only [List.length_cons] at size; omega)
                (by rw [kept]; exact early)
            simp only [wakeLoop, found, if_pos passed]
            refine ⟨t :: due, ?_, ?_, ?_, asleep⟩
            · rw [readied, List.append_assoc, List.singleton_append]
            · exact removed.trans (left.cons t)
            · intro other member
              rcases List.mem_cons.mp member with rfl | member
              · exact passed
              · exact woken other member
          · simp only [wakeLoop, found, if_neg passed]
            refine induction (i + 1) sleeping ready (by omega) ?_
            intro other member
            rw [List.take_add_one, found, Option.toList_some] at member
            rcases List.mem_append.mp member with member | member
            · exact early other member
            · rw [List.mem_singleton.mp member]
              exact Nat.lt_of_not_le passed

/-- A list of due and sleeping threads is told apart by the clock. -/
theorem filter_of_split {now : Nat} {threads due asleep : List Thread}
    (split : threads.Perm (due ++ asleep))
    (woken : ∀ t ∈ due, t.wakeAt ≤ now) (late : ∀ t ∈ asleep, now < t.wakeAt) :
    due.Perm (threads.filter fun t => t.wakeAt ≤ now) ∧
      asleep.Perm (threads.filter fun t => now < t.wakeAt) := by
  have dueKept : due.filter (fun t => t.wakeAt ≤ now) = due :=
    List.filter_eq_self.mpr (by simpa using woken)
  have lateDropped : asleep.filter (fun t => t.wakeAt ≤ now) = [] :=
    List.filter_eq_nil_iff.mpr (by simpa using late)
  have dueDropped : due.filter (fun t => now < t.wakeAt) = [] :=
    List.filter_eq_nil_iff.mpr (by simpa using woken)
  have lateKept : asleep.filter (fun t => now < t.wakeAt) = asleep :=
    List.filter_eq_self.mpr (by simpa using late)
  constructor
  · simpa [dueKept, lateDropped] using (split.filter fun t => t.wakeAt ≤ now).symm
  · simpa [dueDropped, lateKept] using (split.filter fun t => now < t.wakeAt).symm

/-- `wake_sleepers` readies exactly the sleepers whose time has come. -/
theorem wakeSleepers_split (now : Nat) (s : Scheduler) :
    ∃ due asleep, wakeSleepers now s =
        { s with sleeping := asleep, ready := s.ready ++ due } ∧
      due.Perm (s.sleeping.filter fun t => t.wakeAt ≤ now) ∧
      asleep.Perm (s.sleeping.filter fun t => now < t.wakeAt) ∧
      s.sleeping.Perm (due ++ asleep) := by
  by_cases nobody : s.sleeping = []
  · rcases s with ⟨current, ready, sleeping, idle, zombies, slots, slot, id⟩
    subst nobody
    exact ⟨[], [], by simp [wakeSleepers], by simp, by simp, by simp⟩
  obtain ⟨due, readied, split, woken, late⟩ :=
    wakeLoop_split now s.sleeping.length 0 s.sleeping s.ready (by omega) (by simp)
  obtain ⟨dueOnly, lateOnly⟩ := filter_of_split split woken late
  exact ⟨due, _, by simp [wakeSleepers, nobody, readied], dueOnly, lateOnly,
    split⟩

/-! ### Places -/

/-- The owners a thread can have. -/
inductive Place where
  | current
  | ready
  | sleeping
  | idle
  | zombies
  | waiting (queue : Nat)
  /-- The local variable of a `wake_one` or `wake_all` of thread `owner`. -/
  | waking (owner : Nat)
  /-- The local variable of a `spawn` of thread `owner`. -/
  | spawning (owner : Nat)
  deriving DecidableEq, Repr

def Doing.woken : Doing → List Thread
  | .waking threads => threads
  | _ => []

def Doing.spawned : Doing → List Thread
  | .spawning thread => [thread]
  | _ => []

def Kernel.holds (k : Kernel) : Place → List Thread
  | .current => k.sched.current.toList
  | .ready => k.sched.ready
  | .sleeping => k.sched.sleeping
  | .idle => k.sched.idle.toList
  | .zombies => k.sched.zombies
  | .waiting queue => k.waiters queue
  | .waking owner => (k.doing owner).woken
  | .spawning owner => (k.doing owner).spawned

/-- What no operation changes in a thread. -/
def Thread.key (t : Thread) : Nat × Bool := (t.id, t.isIdle)

def Kernel.keys (k : Kernel) (place : Place) : List (Nat × Bool) :=
  (k.holds place).map Thread.key

theorem Kernel.mem_keys {k : Kernel} (place : Place) {t : Thread}
    (member : t ∈ k.holds place) : t.key ∈ k.keys place :=
  List.mem_map_of_mem member

/-- Threads go from one place to another and nothing else changes hands. -/
structure Moves (k later : Kernel) (source target : Place)
    (moved : List (Nat × Bool)) : Prop where
  distinct : source ≠ target
  leaves : (k.keys source).Perm (moved ++ later.keys source)
  arrives : (later.keys target).Perm (moved ++ k.keys target)
  others : ∀ place, place ≠ source → place ≠ target →
    later.keys place = k.keys place

/-- The parts of the kernel in which threads are made and logged. -/
structure SameThreads (k later : Kernel) : Prop where
  doing : later.doing = k.doing
  created : later.created = k.created
  queued : later.queued = k.queued
  freed : later.freed = k.freed
  nextId : later.sched.nextId = k.sched.nextId

/-! ### The halves of `reschedule` -/

/-- Resets the slice and wakes the sleepers, as `reschedule` begins. -/
def awaken (k : Kernel) : Kernel :=
  { k with
    sliceTicks := 0, needResched := false
    sched := wakeSleepers (uptimeMs k) k.sched }

theorem reschedule_eq (how : Next) (k : Kernel) :
    reschedule how k =
      (parkCurrent how (awaken k)).bind fun (cur, parked) =>
        (pickNext parked).bind fun (next, picked) =>
          some (dispatch cur next picked) := rfl

theorem awaken_moves (k : Kernel) :
    SameThreads k (awaken k) ∧ (awaken k).exited = k.exited ∧
      (awaken k).sched.current = k.sched.current ∧
      ∃ moved, Moves k (awaken k) .sleeping .ready moved := by
  obtain ⟨due, asleep, result, -, -, split⟩ :=
    wakeSleepers_split (uptimeMs k) k.sched
  have sched : (awaken k).sched =
      { k.sched with sleeping := asleep, ready := k.sched.ready ++ due } :=
    result
  refine ⟨⟨rfl, rfl, rfl, rfl, by rw [sched]⟩, rfl, by rw [sched],
    due.map Thread.key, ⟨by decide, ?_, ?_, ?_⟩⟩
  · simpa [Kernel.keys, Kernel.holds, sched] using split.map Thread.key
  · simpa [Kernel.keys, Kernel.holds, sched] using List.perm_append_comm
  · intro place notSleeping notReady
    cases place with
    | sleeping => exact absurd rfl notSleeping
    | ready => exact absurd rfl notReady
    | _ => simp only [Kernel.keys, Kernel.holds, sched] <;> rfl

/-- The place `how` parks the current thread in. -/
def Next.place (how : Next) (cur : Thread) : Place :=
  match how with
  | .yield => if cur.isIdle then .idle else .ready
  | .sleep _ => .sleeping
  | .exit => .zombies
  | .block queue => .waiting queue

theorem parkCurrent_moves {how : Next} {k later : Kernel} {cur : Thread}
    (parked : parkCurrent how k = some (cur, later))
    (vacant : ∀ {thread}, k.sched.current = some thread →
      thread.isIdle = true → k.sched.idle = none) :
    k.sched.current = some cur ∧ later.sched.current = none ∧
      SameThreads k later ∧
      later.exited =
        (if how = .exit then cur.id :: k.exited else k.exited) ∧
      Moves k later .current (how.place cur) [cur.key] := by
  unfold parkCurrent at parked
  cases running : k.sched.current with
  | none => simp [running] at parked
  | some thread =>
    simp only [running] at parked
    cases how with
    | yield =>
      by_cases idle : thread.isIdle = true
      · simp only [idle, if_true, Option.some.injEq, Prod.mk.injEq] at parked
        obtain ⟨rfl, rfl⟩ := parked
        refine ⟨rfl, rfl, ⟨rfl, rfl, rfl, rfl, rfl⟩, rfl, ⟨by simp [Next.place, idle], ?_, ?_, ?_⟩⟩
        · simp [Kernel.keys, Kernel.holds, running]
        · simp [Kernel.keys, Kernel.holds, Next.place, idle, vacant running idle]
        · intro place notCurrent notIdle
          cases place <;> simp_all [Kernel.keys, Kernel.holds, Next.place]
      · simp only [idle, Bool.false_eq_true, if_false, Option.some.injEq, Prod.mk.injEq] at parked
        obtain ⟨rfl, rfl⟩ := parked
        refine ⟨rfl, rfl, ⟨rfl, rfl, rfl, rfl, rfl⟩, rfl, ⟨by simp [Next.place, idle], ?_, ?_, ?_⟩⟩
        · simp [Kernel.keys, Kernel.holds, running]
        · simp [Kernel.keys, Kernel.holds, Next.place, idle]
        · intro place notCurrent notReady
          cases place <;> simp_all [Kernel.keys, Kernel.holds, Next.place]
    | sleep wakeAt =>
      simp only [Option.some.injEq, Prod.mk.injEq] at parked
      obtain ⟨rfl, rfl⟩ := parked
      refine ⟨rfl, rfl, ⟨rfl, rfl, rfl, rfl, rfl⟩, rfl, ⟨by simp [Next.place], ?_, ?_, ?_⟩⟩
      · simp [Kernel.keys, Kernel.holds, running]
      · simp [Kernel.keys, Kernel.holds, Next.place, Thread.key]
      · intro place notCurrent notSleeping
        cases place <;> simp_all [Kernel.keys, Kernel.holds, Next.place]
    | exit =>
      simp only [Option.some.injEq, Prod.mk.injEq] at parked
      obtain ⟨rfl, rfl⟩ := parked
      refine ⟨rfl, rfl, ⟨rfl, rfl, rfl, rfl, rfl⟩, rfl, ⟨by simp [Next.place], ?_, ?_, ?_⟩⟩
      · simp [Kernel.keys, Kernel.holds, running]
      · simp [Kernel.keys, Kernel.holds, Next.place]
      · intro place notCurrent notZombies
        cases place <;> simp_all [Kernel.keys, Kernel.holds, Next.place]
    | block queue =>
      simp only [Option.some.injEq, Prod.mk.injEq] at parked
      obtain ⟨rfl, rfl⟩ := parked
      refine ⟨rfl, rfl, ⟨rfl, rfl, rfl, rfl, rfl⟩, rfl, ⟨by simp [Next.place], ?_, ?_, ?_⟩⟩
      · simp [Kernel.keys, Kernel.holds, running]
      · simp [Kernel.keys, Kernel.holds, Next.place]
      · intro place notCurrent notWaiting
        cases place with
        | waiting other =>
          have differs : other ≠ queue := by
            rintro rfl
            exact notWaiting rfl
          simp [Kernel.keys, Kernel.holds, differs]
        | _ => simp_all [Kernel.keys, Kernel.holds]

theorem pickNext_moves {k later : Kernel} {next : Thread}
    (picked : pickNext k = some (next, later)) (free : k.sched.current = none) :
    later.sched.current = some next ∧ SameThreads k later ∧
      later.exited = k.exited ∧
      ∃ source, (source = .ready ∨ source = .idle) ∧
        Moves k later source .current [next.key] := by
  unfold pickNext at picked
  split at picked
  case h_1 head ready queue =>
    simp only [Option.some.injEq, Prod.mk.injEq] at picked
    obtain ⟨rfl, rfl⟩ := picked
    refine ⟨rfl, ⟨rfl, rfl, rfl, rfl, rfl⟩, rfl, .ready, .inl rfl, ⟨by decide, ?_, ?_, ?_⟩⟩
    · simp [Kernel.keys, Kernel.holds, queue]
    · simp [Kernel.keys, Kernel.holds, free]
    · intro place notReady notCurrent
      cases place <;> simp_all [Kernel.keys, Kernel.holds]
  case h_2 queue =>
    cases slot : k.sched.idle with
    | none => simp [slot] at picked
    | some thread =>
      simp only [slot, Option.some.injEq, Prod.mk.injEq] at picked
      obtain ⟨rfl, rfl⟩ := picked
      refine ⟨rfl, ⟨rfl, rfl, rfl, rfl, rfl⟩, rfl, .idle, .inr rfl, ⟨by decide, ?_, ?_, ?_⟩⟩
      · simp [Kernel.keys, Kernel.holds, slot]
      · simp [Kernel.keys, Kernel.holds, free]
      · intro place notIdle notCurrent
        cases place <;> simp_all [Kernel.keys, Kernel.holds]

end Eonos.Sched
