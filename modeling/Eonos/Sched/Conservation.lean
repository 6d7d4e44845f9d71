import Eonos.Lib.Reachable
import Eonos.Sched.Moves

/-!
# No thread is lost or held twice

Over every run, each thread that was created and not freed has exactly one
owner, the idle thread is in its slot whenever it is not running, and an exited
thread never runs again.
-/

namespace Eonos.Sched

open Eonos.Lib

/-! ### The invariant -/

/-- Created, not freed, and marked idle exactly if it is the idle thread. -/
def Kernel.Alive (k : Kernel) (key : Nat × Bool) : Prop :=
  key.1 ∈ k.created ∧ key.1 ∉ k.freed ∧ key.2 = (key.1 == idleId)

structure Conserved (k : Kernel) : Prop where
  placed : Placed k.keys k.Alive
  idleHome : ∀ {place}, (idleId, true) ∈ k.keys place →
    place = .current ∨ place = .idle
  idleOnly : ∀ key ∈ k.keys .idle, key.2 = true
  idleAlive : k.Alive (idleId, true)
  exited : ∀ id ∈ k.exited, (id, false) ∈ k.keys .zombies ∨ id ∈ k.freed
  freedCreated : ∀ id ∈ k.freed, id ∈ k.created

/-- Ids under construction are fresh, and a thread is queued once built. -/
structure Spawning (k : Kernel) : Prop where
  fresh : ∀ id ∈ k.created, id < k.sched.nextId
  reserved : ∀ {owner slot id aspace},
    k.doing owner = .creating slot id aspace →
      id < k.sched.nextId ∧ id ∉ k.created
  reservedOnce : ∀ {owner other slot slot' id aspace aspace'},
    k.doing owner = .creating slot id aspace →
      k.doing other = .creating slot' id aspace' → owner = other
  unqueued : ∀ id ∈ k.created, id ∈ k.queued ∨
    ∃ owner t, k.doing owner = .spawning t ∧ t.id = id
  notYet : ∀ {owner t}, k.doing owner = .spawning t → t.id ∉ k.queued
  queuedCreated : ∀ id ∈ k.queued, id ∈ k.created

structure Sound (k : Kernel) : Prop where
  conserved : Conserved k
  spawning : Spawning k
  running : ∃ cur, k.sched.current = some cur

theorem Kernel.Alive.eq_idle {k : Kernel} {key : Nat × Bool}
    (alive : k.Alive key) (idle : key.2 = true) : key = (idleId, true) := by
  obtain ⟨id, flag⟩ := key
  have same := alive.2.2
  simp only at idle same
  subst idle
  rw [eq_of_beq same.symm]

theorem Kernel.Alive.key_eq {k : Kernel} {first second : Nat × Bool} (one : k.Alive first)
    (two : k.Alive second) (same : first.1 = second.1) : first = second := by
  refine Prod.ext same ?_
  rw [one.2.2, two.2.2, same]

namespace Conserved

variable {k later : Kernel}

/-- What a move between places must respect. -/
theorem move (conserved : Conserved k) {source target : Place} {moved : List (Nat × Bool)}
    (moves : Moves k later source target moved) (created : later.created = k.created)
    (freed : later.freed = k.freed)
    (idleGoes : (idleId, true) ∈ moved → target = .current ∨ target = .idle)
    (intoIdle : target = .idle → ∀ key ∈ moved, key.2 = true) (notZombies : source ≠ .zombies)
    (exited : ∀ id ∈ later.exited, id ∈ k.exited ∨ target = .zombies ∧ (id, false) ∈ moved) :
    Conserved later := by
  have alive : later.Alive = k.Alive := by
    funext key
    rw [Kernel.Alive, Kernel.Alive, created, freed]
  -- a key held after the move either arrived with it or was there before
  have origin : ∀ {place key}, key ∈ later.keys place →
      (place = target ∧ key ∈ moved) ∨ key ∈ k.keys place := by
    intro place key member
    by_cases atTarget : place = target
    · subst atTarget
      exact (List.mem_append.mp (moves.arrives.mem_iff.mp member)).imp_left fun came => ⟨rfl, came⟩
    by_cases atSource : place = source
    · subst atSource
      exact .inr (moves.leaves.mem_iff.mpr (List.mem_append_right _ member))
    · rw [moves.others place atSource atTarget] at member
      exact .inr member
  refine ⟨?_, ?_, ?_, ?_, ?_, ?_⟩
  · rw [alive]
    exact conserved.placed.move moved moves.distinct moves.leaves moves.arrives moves.others
  · intro place member
    rcases origin member with ⟨rfl, came⟩ | was
    · exact idleGoes came
    · exact conserved.idleHome was
  · intro key member
    rcases origin member with ⟨here, came⟩ | was
    · exact intoIdle here.symm key came
    · exact conserved.idleOnly key was
  · rw [alive]
    exact conserved.idleAlive
  · intro id member
    rw [freed]
    rcases exited id member with was | ⟨rfl, came⟩
    · refine (conserved.exited id was).imp_left ?_
      intro zombie
      by_cases atTarget : Place.zombies = target
      · subst atTarget
        exact moves.arrives.mem_iff.mpr (List.mem_append_right _ zombie)
      · rwa [moves.others _ notZombies.symm atTarget]
    · exact .inl (moves.arrives.mem_iff.mpr (List.mem_append_left _ came))
  · rw [created, freed]
    exact conserved.freedCreated

theorem handover (conserved : Conserved k) (source target : Place) (moved : List (Nat × Bool))
    (moves : Moves k later source target moved) (created : later.created = k.created)
    (freed : later.freed = k.freed) (exited : later.exited = k.exited)
    (notCurrent : source ≠ .current) (notIdle : source ≠ .idle) (notZombies : source ≠ .zombies)
    (targetNotIdle : target ≠ .idle) : Conserved later := by
  refine conserved.move moves created freed ?_ ?_ notZombies ?_
  · intro idle
    have here : (idleId, true) ∈ k.keys source :=
      moves.leaves.mem_iff.mpr (List.mem_append_left _ idle)
    rcases conserved.idleHome here with home | home
    · exact absurd home notCurrent
    · exact absurd home notIdle
  · intro intoIdle
    exact absurd intoIdle targetNotIdle
  · intro id member
    rw [exited] at member
    exact .inl member

/-- Nothing changes hands. -/
theorem stay (conserved : Conserved k) (keys : later.keys = k.keys)
    (created : later.created = k.created) (freed : later.freed = k.freed)
    (exited : later.exited = k.exited) : Conserved later := by
  have alive : later.Alive = k.Alive := by
    funext key
    rw [Kernel.Alive, Kernel.Alive, created, freed]
  constructor
  · rw [keys, alive]
    exact conserved.placed
  · rw [keys]
    exact conserved.idleHome
  · rw [keys]
    exact conserved.idleOnly
  · rw [alive]
    exact conserved.idleAlive
  · rw [keys, exited, freed]
    exact conserved.exited
  · rw [created, freed]
    exact conserved.freedCreated

theorem alive (conserved : Conserved k) (place : Place) {t : Thread}
    (member : t ∈ k.holds place) : k.Alive t.key :=
  conserved.placed.live_of_mem (Kernel.mem_keys place member)

/-- While the idle thread runs its slot is empty. -/
theorem vacant (conserved : Conserved k) {cur : Thread} (current : k.sched.current = some cur)
    (idle : cur.isIdle = true) : k.sched.idle = none := by
  cases slot : k.sched.idle with
  | none => rfl
  | some t =>
    have inSlot : t ∈ k.holds .idle := by simp [Kernel.holds, slot]
    have running : cur ∈ k.holds .current := by
      simp [Kernel.holds, current]
    have slotKey := (conserved.alive .idle inSlot).eq_idle
      (conserved.idleOnly _ (Kernel.mem_keys .idle inSlot))
    have currentKey := (conserved.alive .current running).eq_idle idle
    have first := Kernel.mem_keys .idle inSlot
    have second := Kernel.mem_keys .current running
    rw [slotKey] at first
    rw [currentKey] at second
    cases conserved.placed.apart first second

/-- While another thread runs, or none, the idle thread is in its slot. -/
theorem occupied (conserved : Conserved k)
    (busy : ∀ cur, k.sched.current = some cur → cur.isIdle = false) :
    ∃ t, k.sched.idle = some t := by
  obtain ⟨place, member⟩ :=
    (conserved.placed.cover _).mp conserved.idleAlive
  obtain ⟨t, held, key⟩ := List.mem_map.mp member
  rcases conserved.idleHome member with rfl | rfl
  · have current : k.sched.current = some t := by
      simpa [Kernel.holds, eq_comm] using held
    have flag := congrArg Prod.snd key
    simp [Thread.key, busy t current] at flag
  · exact ⟨t, by simpa [Kernel.holds, eq_comm] using held⟩

end Conserved

theorem Spawning.same {k later : Kernel} (spawning : Spawning k)
    (same : SameThreads k later) : Spawning later := by
  obtain ⟨doing, created, queued, -, nextId⟩ := same
  constructor
  · rw [created, nextId]
    exact spawning.fresh
  · rw [doing, created, nextId]
    exact spawning.reserved
  · rw [doing]
    exact spawning.reservedOnce
  · rw [doing, created, queued]
    exact spawning.unqueued
  · rw [doing, queued]
    exact spawning.notYet
  · rw [created, queued]
    exact spawning.queuedCreated

/-! ### Rescheduling -/

theorem parkCurrent_conserved {how : Next} {k later : Kernel} {cur : Thread}
    (conserved : Conserved k) (parked : parkCurrent how k = some (cur, later))
    (idleYields : cur.isIdle = true → how = .yield) :
    Conserved later ∧ SameThreads k later ∧ later.sched.current = none := by
  obtain ⟨-, none, same, exited, moves⟩ :=
    parkCurrent_moves parked conserved.vacant
  refine ⟨conserved.move moves same.created same.freed ?_ ?_ (by decide) ?_, same, none⟩
  · intro idle
    have key := List.mem_singleton.mp idle
    have flag : cur.isIdle = true := (congrArg Prod.snd key).symm
    simp [Next.place, idleYields flag, flag]
  · intro intoIdle key member
    rw [List.mem_singleton.mp member]
    cases how with
    | yield =>
      by_contra busy
      have flag : cur.isIdle = false := Bool.eq_false_iff.mpr busy
      simp [Next.place, flag] at intoIdle
    | _ => simp [Next.place] at intoIdle
  · intro id member
    rw [exited] at member
    split at member
    case isTrue leaving =>
      subst leaving
      rcases List.mem_cons.mp member with rfl | member
      · have busy : cur.isIdle = false := by
          by_contra idle
          cases idleYields (by simpa using idle)
        exact .inr ⟨rfl, by simp [Thread.key, busy]⟩
      · exact .inl member
    case isFalse => exact .inl member

theorem pickNext_conserved {k : Kernel} (conserved : Conserved k) (free : k.sched.current = none) :
    ∃ next later, pickNext k = some (next, later) ∧ Conserved later ∧
      SameThreads k later ∧ later.sched.current = some next := by
  obtain ⟨waiting, slot⟩ := conserved.occupied (by simp [free])
  obtain ⟨next, later, picked⟩ : ∃ next later, pickNext k = some (next, later) := by
    cases queue : k.sched.ready with
    | nil => exact ⟨_, _, by simp only [pickNext, queue, slot]; rfl⟩
    | cons head rest => exact ⟨_, _, by simp only [pickNext, queue]; rfl⟩
  obtain ⟨current, same, exited, source, place, moves⟩ :=
    pickNext_moves picked free
  refine ⟨next, later, picked, ?_, same, current⟩
  refine conserved.move moves same.created same.freed
    (fun _ => .inl rfl) (fun impossible => nomatch impossible) ?_ ?_
  · rcases place with rfl | rfl <;> decide
  · intro id member
    rw [exited] at member
    exact .inl member

theorem dispatch_keys (cur next : Thread) (k : Kernel) : (dispatch cur next k).keys = k.keys := by
  funext place
  cases place <;> rfl

/-- `reschedule` never fails, whatever the running thread asks for. -/
theorem reschedule_sound {how : Next} {k : Kernel} {cur : Thread} (sound : Sound k)
    (current : k.sched.current = some cur) (idleYields : cur.isIdle = true → how = .yield) :
    ∃ later, reschedule how k = some later ∧ Sound later := by
  obtain ⟨sameAwake, exitedAwake, currentAwake, due, wakes⟩ := awaken_moves k
  have awake : Conserved (awaken k) :=
    sound.conserved.handover .sleeping .ready due wakes sameAwake.created sameAwake.freed
      exitedAwake (by decide) (by decide) (by decide) (by decide)
  obtain ⟨parked, park⟩ : ∃ parked, parkCurrent how (awaken k) = some (cur, parked) := by
    rw [parkCurrent, currentAwake, current]
    cases how with
    | yield => cases idle : cur.isIdle <;> exact ⟨_, by simp only [idle]; rfl⟩
    | _ => exact ⟨_, rfl⟩
  obtain ⟨parkedSafe, sameParked, free⟩ :=
    parkCurrent_conserved awake park idleYields
  obtain ⟨next, picked, pick, pickedSafe, samePicked, running⟩ :=
    pickNext_conserved parkedSafe free
  refine ⟨dispatch cur next picked, ?_, ?_, ?_, next, running⟩
  · simp only [reschedule_eq, park, pick, Option.bind_some]
  · exact pickedSafe.stay (dispatch_keys cur next picked) rfl rfl rfl
  · have spawning := ((sound.spawning.same sameAwake).same sameParked).same samePicked
    exact spawning.same ⟨rfl, rfl, rfl, rfl, rfl⟩

/-! ### The other sections -/

theorem finishSwitch_fold (dead : List Thread) (k : Kernel) :
    ∃ slots, dead.foldl freeThread k =
      { k with
        sched := { k.sched with freeSlots := slots }
        freed := (dead.map Thread.id).reverse ++ k.freed } := by
  induction dead generalizing k with
  | nil => exact ⟨k.sched.freeSlots, rfl⟩
  | cons t rest induction =>
    obtain ⟨slots, folded⟩ := induction (freeThread k t)
    refine ⟨slots, ?_⟩
    rw [List.foldl_cons, folded]
    simp [freeThread]

theorem finishSwitch_shape (k : Kernel) :
    ∃ slots, finishSwitch k =
      { k with
        sched := { k.sched with zombies := [], freeSlots := slots }
        switched := false
        freed := (k.sched.zombies.map Thread.id).reverse ++ k.freed } :=
  finishSwitch_fold k.sched.zombies
    { k with sched := { k.sched with zombies := [] }, switched := false }

theorem finishSwitch_sound {k : Kernel} (sound : Sound k) : Sound (finishSwitch k) := by
  obtain ⟨slots, result⟩ := finishSwitch_shape k
  obtain ⟨conserved, spawning, running⟩ := sound
  have others : ∀ place, place ≠ .zombies → (finishSwitch k).keys place = k.keys place := by
    intro place notZombies
    rw [result]
    cases place with
    | zombies => exact absurd rfl notZombies
    | _ => rfl
  have emptied : (finishSwitch k).keys .zombies = [] := by rw [result]; rfl
  have created : (finishSwitch k).created = k.created := by rw [result]
  have freed : ∀ id, id ∈ (finishSwitch k).freed ↔
      id ∈ k.sched.zombies.map Thread.id ∨ id ∈ k.freed := by
    intro id
    rw [result]
    simp only [List.mem_append, List.mem_reverse]
  have zombieKey : ∀ {key}, k.Alive key →
      (key.1 ∈ k.sched.zombies.map Thread.id ↔ key ∈ k.keys .zombies) := by
    intro key alive
    constructor
    · intro member
      obtain ⟨t, dead, same⟩ := List.mem_map.mp member
      rw [← (conserved.alive .zombies dead).key_eq alive same]
      exact Kernel.mem_keys .zombies dead
    · intro member
      obtain ⟨t, dead, rfl⟩ := List.mem_map.mp member
      exact List.mem_map_of_mem dead
  have alive : ∀ key, (finishSwitch k).Alive key ↔ k.Alive key ∧ key ∉ k.keys .zombies := by
    intro key
    constructor
    · rintro ⟨made, left, flag⟩
      rw [created] at made
      rw [freed, not_or] at left
      have was : k.Alive key := ⟨made, left.2, flag⟩
      exact ⟨was, fun dead => left.1 ((zombieKey was).mpr dead)⟩
    · rintro ⟨was, survives⟩
      refine ⟨by rw [created]; exact was.1, ?_, was.2.2⟩
      rw [freed, not_or]
      exact ⟨fun dead => survives ((zombieKey was).mp dead), was.2.1⟩
  have idleSurvives : (idleId, true) ∉ k.keys .zombies := by
    intro dead
    rcases conserved.idleHome dead with here | here <;> cases here
  refine ⟨⟨conserved.placed.clear alive emptied others, ?_, ?_, ?_, ?_, ?_⟩, ?_, ?_⟩
  · intro place member
    by_cases zombies : place = .zombies
    · rw [zombies, emptied] at member
      cases member
    · rw [others place zombies] at member
      exact conserved.idleHome member
  · rw [others .idle (by decide)]
    exact conserved.idleOnly
  · exact (alive _).mpr ⟨conserved.idleAlive, idleSurvives⟩
  · intro id member
    have was : id ∈ k.exited := by rwa [result] at member
    rw [freed]
    rcases conserved.exited id was with zombie | gone
    · obtain ⟨t, dead, key⟩ := List.mem_map.mp zombie
      exact .inr (.inl (List.mem_map.mpr ⟨t, dead, congrArg Prod.fst key⟩))
    · exact .inr (.inr gone)
  · intro id member
    rw [created]
    rcases (freed id).mp member with dead | gone
    · obtain ⟨t, zombie, rfl⟩ := List.mem_map.mp dead
      exact (conserved.alive .zombies zombie).1
    · exact conserved.freedCreated id gone
  · rw [result]
    exact ⟨spawning.fresh, spawning.reserved, spawning.reservedOnce,
      spawning.unqueued, spawning.notYet, spawning.queuedCreated⟩
  · rw [result]
    exact running

end Eonos.Sched
