import Eonos.Sched.Safety

/-!
# How long a thread sleeps

A sleeper leaves its list only when the clock has passed its `wake_at`, and
the clock never runs backwards.  `sleep_ms` adds the uptime and the request
without a check: where the sum exceeds 64 bits it wraps to a time that has
passed already.
-/

namespace Eonos.Sched

/-- What `reschedule` adds to the sleepers. -/
def Next.sleepers (how : Next) (cur : Thread) : List Thread :=
  match how with
  | .sleep wakeAt => [{ cur with wakeAt }]
  | _ => []

section

variable {k later : Kernel} {cur : Thread}

theorem parkCurrent_sleeping {how : Next} {found : Thread}
    (parked : parkCurrent how k = some (found, later)) (current : k.sched.current = some cur) :
    later.sched.sleeping = k.sched.sleeping ++ how.sleepers cur ∧
      later.ticks = k.ticks ∧ later.hz = k.hz := by
  rw [parkCurrent, current] at parked
  cases how with
  | yield =>
    dsimp only at parked
    split at parked
    · cases parked
      exact ⟨(List.append_nil _).symm, rfl, rfl⟩
    · cases parked
      exact ⟨(List.append_nil _).symm, rfl, rfl⟩
  | sleep wakeAt =>
    cases parked
    exact ⟨rfl, rfl, rfl⟩
  | exit =>
    cases parked
    exact ⟨(List.append_nil _).symm, rfl, rfl⟩
  | block queue =>
    cases parked
    exact ⟨(List.append_nil _).symm, rfl, rfl⟩

theorem pickNext_sleeping {next : Thread} (picked : pickNext k = some (next, later)) :
    later.sched.sleeping = k.sched.sleeping ∧ later.ticks = k.ticks ∧ later.hz = k.hz := by
  unfold pickNext at picked
  split at picked
  · cases picked
    exact ⟨rfl, rfl, rfl⟩
  · split at picked
    · cases picked
    · cases picked
      exact ⟨rfl, rfl, rfl⟩

/-- `reschedule` keeps the sleepers whose time has not come, and adds the
current thread when that is what it does. -/
theorem reschedule_sleeping {how : Next} (result : reschedule how k = some later)
    (current : k.sched.current = some cur) :
    (∃ asleep, later.sched.sleeping = asleep ++ how.sleepers cur ∧
      ∀ t, t ∈ asleep ↔ t ∈ k.sched.sleeping ∧ uptimeMs k < t.wakeAt) ∧
      later.ticks = k.ticks ∧ later.hz = k.hz := by
  obtain ⟨due, asleep, woken, -, late, -⟩ :=
    wakeSleepers_split (uptimeMs k) k.sched
  have sched : (awaken k).sched =
      { k.sched with sleeping := asleep, ready := k.sched.ready ++ due } :=
    woken
  have running : (awaken k).sched.current = some cur := by
    rw [sched]
    exact current
  rw [reschedule_eq] at result
  obtain ⟨⟨found, parked⟩, park, result⟩ := Option.bind_eq_some_iff.mp result
  obtain ⟨⟨next, picked⟩, pick, result⟩ := Option.bind_eq_some_iff.mp result
  cases result
  obtain ⟨parkedSleeping, parkedTicks, parkedHz⟩ :=
    parkCurrent_sleeping park running
  obtain ⟨pickedSleeping, pickedTicks, pickedHz⟩ := pickNext_sleeping pick
  refine ⟨⟨asleep, ?_, fun t => ?_⟩, pickedTicks.trans parkedTicks, pickedHz.trans parkedHz⟩
  · change picked.sched.sleeping = _
    rw [pickedSleeping, parkedSleeping, sched]
  · rw [late.mem_iff, List.mem_filter, decide_eq_true_iff]

/-! ### Steps -/

/-- What a section does to the clock and to the sleepers. -/
structure Advances (k later : Kernel) : Prop where
  hz : later.hz = k.hz
  ticks : k.ticks ≤ later.ticks
  asleep : ∀ t ∈ k.sched.sleeping,
    t ∈ later.sched.sleeping ∨ t.wakeAt ≤ uptimeMs k

theorem Advances.same (hz : later.hz = k.hz) (ticks : later.ticks = k.ticks)
    (sleeping : later.sched.sleeping = k.sched.sleeping) : Advances k later :=
  ⟨hz, Nat.le_of_eq ticks.symm, fun _ member => .inl (sleeping ▸ member)⟩

theorem Advances.uptime (advances : Advances k later) : uptimeMs k ≤ uptimeMs later := by
  unfold uptimeMs
  rw [advances.hz]
  split
  · exact Nat.le_refl _
  · exact Nat.div_le_div_right (Nat.mul_le_mul_right _ advances.ticks)

theorem reschedule_advances {how : Next} (result : reschedule how k = some later)
    (current : k.sched.current = some cur) : Advances k later := by
  obtain ⟨⟨asleep, sleeping, stay⟩, ticks, hz⟩ :=
    reschedule_sleeping result current
  refine ⟨hz, Nat.le_of_eq ticks.symm, fun t member => ?_⟩
  rcases Nat.lt_or_ge (uptimeMs k) t.wakeAt with early | due
  · rw [sleeping]
    exact .inl (List.mem_append_left _ ((stay t).mpr ⟨member, early⟩))
  · exact .inr due

/-- A section moves a sleeper only when its time has come. -/
theorem perform_advances {event : Event} (performed : perform k cur event = some later)
    (current : k.sched.current = some cur) : Advances k later := by
  cases event with
  | spawn aspace =>
    simp only [perform] at performed
    split at performed
    · cases performed
      exact .same rfl rfl rfl
    · rename_i reserves
      cases performed
      refine .same rfl rfl ?_
      unfold reserve at reserves
      split at reserves
      · cases reserves
        rfl
      · split at reserves
        · cases reserves
          rfl
        · cases reserves
  | spawnFails =>
    simp only [perform] at performed
    split at performed <;> cases performed <;> exact .same rfl rfl rfl
  | spawnBuilt =>
    simp only [perform] at performed
    split at performed <;> cases performed <;> exact .same rfl rfl rfl
  | spawnQueues =>
    simp only [perform] at performed
    split at performed <;> cases performed <;> exact .same rfl rfl rfl
  | yieldNow => exact reschedule_advances performed current
  | sleepMs ms => exact reschedule_advances performed current
  | exit => exact reschedule_advances performed current
  | wait queue => exact reschedule_advances performed current
  | wakeOne queue =>
    simp only [perform] at performed
    split at performed <;> cases performed <;> exact .same rfl rfl rfl
  | wakeAll queue =>
    simp only [perform] at performed
    split at performed <;> cases performed <;> exact .same rfl rfl rfl
  | wakeQueues =>
    simp only [perform] at performed
    split at performed <;> cases performed <;> exact .same rfl rfl rfl
  | tick =>
    cases performed
    unfold tick
    dsimp only
    split <;> exact ⟨rfl, Nat.le_succ _, fun t member => .inl member⟩
  | preemptIfNeeded =>
    simp only [perform, preemptIfNeeded] at performed
    split at performed
    · have advances := reschedule_advances performed current
      exact ⟨advances.hz, advances.ticks, advances.asleep⟩
    · cases performed
      exact .same rfl rfl rfl
  | finishSwitch =>
    cases performed
    obtain ⟨slots, shape⟩ := finishSwitch_shape k
    rw [shape]
    exact .same rfl rfl rfl

theorem Step.advances (taken : Step k later) : Advances k later := by
  obtain ⟨cur, event, current, -, performed⟩ := taken
  exact perform_advances performed current

/-! ### Runs -/

theorem sleeping_until {t : Thread} (run : Relation.ReflTransGen Step k later)
    (asleep : t ∈ k.sched.sleeping) (early : uptimeMs later < t.wakeAt) :
    t ∈ later.sched.sleeping := by
  induction run with
  | refl => exact asleep
  | tail _ taken induction =>
    have advances := taken.advances
    have earlier := Nat.lt_of_le_of_lt advances.uptime early
    rcases advances.asleep t (induction earlier) with stays | due
    · exact stays
    · exact absurd earlier (Nat.not_lt_of_le due)

/-- In every run from `later` on, the thread sleeps until `ms` milliseconds
after the uptime of `k`. -/
def NeverEarly (k later : Kernel) (id ms : Nat) : Prop :=
  ∀ final, Relation.ReflTransGen Step later final →
    uptimeMs final < uptimeMs k + ms → id ∈ final.ids .sleeping

/-- The running thread comes to the end of what it is in the middle of. -/
theorem settles (current : k.sched.current = some cur) (resting : k.switched = false) :
    ∃ later, Relation.ReflTransGen Step k later ∧
      later.sched.current = some cur ∧ later.switched = false ∧
      later.doing cur.id = .nothing ∧
      later.sched.sleeping = k.sched.sleeping ∧
      uptimeMs later = uptimeMs k := by
  have one : ∀ event result, enabled k cur event = true → perform k cur event = some result →
      Relation.ReflTransGen Step k result :=
    fun event result allowed performed =>
      .single ⟨cur, event, current, allowed, performed⟩
  cases doing : k.doing cur.id with
  | nothing => exact ⟨k, .refl, current, resting, doing, rfl, rfl⟩
  | creating slot id aspace =>
    refine ⟨_, one .spawnFails _ (by simp [enabled, resting, doing])
      (by simp only [perform, doing]; rfl), ?_, ?_, ?_, ?_, ?_⟩
    · exact current
    · exact resting
    · exact setDoing_self _ _ _
    · rfl
    · rfl
  | spawning t =>
    refine ⟨_, one .spawnQueues _ (by simp [enabled, resting, doing])
      (by simp only [perform, doing]; rfl), ?_, ?_, ?_, ?_, ?_⟩
    · exact current
    · exact resting
    · exact setDoing_self _ _ _
    · rfl
    · rfl
  | waking threads =>
    refine ⟨_, one .wakeQueues _ (by simp [enabled, resting, doing])
      (by simp only [perform, doing]; rfl), ?_, ?_, ?_, ?_, ?_⟩
    · exact current
    · exact resting
    · exact setDoing_self _ _ _
    · rfl
    · rfl

theorem Sound.run (sound : Sound k) (run : Relation.ReflTransGen Step k later) : Sound later := by
  induction run with
  | refl => exact sound
  | tail _ taken induction => exact induction.step taken

theorem finishes (current : k.sched.current = some cur) :
    ∃ later, Relation.ReflTransGen Step k later ∧
      later.sched.current = some cur ∧ later.switched = false ∧
      later.sched.sleeping = k.sched.sleeping ∧
      uptimeMs later = uptimeMs k := by
  cases switched : k.switched with
  | false => exact ⟨k, .refl, current, switched, rfl, rfl⟩
  | true =>
    obtain ⟨slots, shape⟩ := finishSwitch_shape k
    refine ⟨finishSwitch k, .single ⟨cur, .finishSwitch, current, switched,
      rfl⟩, ?_⟩
    rw [shape]
    exact ⟨current, rfl, rfl, rfl⟩

theorem due_may_leave (sound : Sound k) {t : Thread}
    (asleep : t ∈ k.sched.sleeping) (due : t.wakeAt ≤ uptimeMs k) :
    ∃ final, Relation.ReflTransGen Step k final ∧
      uptimeMs final = uptimeMs k ∧ t.id ∉ final.ids .sleeping := by
  obtain ⟨cur, current⟩ := sound.running
  obtain ⟨one, first, oneCurrent, oneResting, oneSleeping, oneUptime⟩ :=
    finishes current
  obtain ⟨two, second, twoCurrent, twoResting, nothing, twoSleeping,
    twoUptime⟩ := settles oneCurrent oneResting
  have ready := (sound.run first).run second
  have allowed : enabled two cur .yieldNow = true := by
    simp [enabled, twoResting, nothing]
  obtain ⟨final, yielded, -⟩ := perform_sound ready twoCurrent allowed
  obtain ⟨⟨stay, sleeping, late⟩, ticks, hz⟩ :=
    reschedule_sleeping yielded twoCurrent
  refine ⟨final, (first.trans second).tail ⟨cur, .yieldNow, twoCurrent,
    allowed, yielded⟩, ?_, fun member => ?_⟩
  · unfold uptimeMs at *
    rw [ticks, hz, twoUptime, oneUptime]
  · obtain ⟨other, held, same⟩ := List.mem_map.mp member
    have found : other ∈ stay := by
      simpa [Kernel.holds, sleeping, Next.sleepers] using held
    obtain ⟨there, early⟩ := (late other).mp found
    have here : t ∈ two.sched.sleeping := by
      rw [twoSleeping, oneSleeping]
      exact asleep
    have equal := List.inj_on_of_nodup_map (ready.conserved.ids_nodup .sleeping) there here same
    rw [equal, twoUptime, oneUptime] at early
    exact absurd due (Nat.not_le_of_lt early)

end

end Eonos.Sched
