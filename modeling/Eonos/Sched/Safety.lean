import Eonos.Sched.Conservation

/-!
# Runs of the scheduler

Every section keeps the invariant, so it holds over every run.
-/

namespace Eonos.Sched

open Eonos.Lib

/-! ### What a thread is in the middle of -/

theorem setDoing_doing (k : Kernel) (owner other : Nat) (doing : Doing) :
    (k.setDoing owner doing).doing other = if other = owner then doing else k.doing other := by
  simp [Kernel.setDoing, Function.update_apply]

theorem setDoing_self (k : Kernel) (owner : Nat) (doing : Doing) :
    (k.setDoing owner doing).doing owner = doing := by
  simp [setDoing_doing]

/-- The places that follow from the scheduler and the wait queues alone. -/
theorem setDoing_keys (k : Kernel) (owner : Nat) (doing : Doing) {place : Place}
    (notWaking : place ≠ .waking owner) (notSpawning : place ≠ .spawning owner) :
    (k.setDoing owner doing).keys place = k.keys place := by
  cases place with
  | waking other =>
    have differs : other ≠ owner := by
      rintro rfl
      exact notWaking rfl
    simp [Kernel.keys, Kernel.holds, setDoing_doing, differs]
  | spawning other =>
    have differs : other ≠ owner := by
      rintro rfl
      exact notSpawning rfl
    simp [Kernel.keys, Kernel.holds, setDoing_doing, differs]
  | _ => rfl

theorem setDoing_keys_waking (k : Kernel) (owner : Nat) (doing : Doing) :
    (k.setDoing owner doing).keys (.waking owner) = doing.woken.map Thread.key := by
  simp [Kernel.keys, Kernel.holds, setDoing_self]

theorem setDoing_keys_spawning (k : Kernel) (owner : Nat) (doing : Doing) :
    (k.setDoing owner doing).keys (.spawning owner) = doing.spawned.map Thread.key := by
  simp [Kernel.keys, Kernel.holds, setDoing_self]

variable {k later : Kernel} {cur : Thread} {aspace : Option Nat} {slot id : Nat}

theorem Spawning.idleUpdate (spawning : Spawning k) {owner : Nat} {doing : Doing}
    (held : ∀ t, k.doing owner ≠ .spawning t)
    (notCreating : ∀ slot id aspace, doing ≠ .creating slot id aspace)
    (notSpawning : ∀ t, doing ≠ .spawning t) : Spawning (k.setDoing owner doing) := by
  have creating : ∀ {other slot id aspace},
      (k.setDoing owner doing).doing other = .creating slot id aspace →
        k.doing other = .creating slot id aspace := by
    intro other slot id aspace now
    rw [setDoing_doing] at now
    split at now
    · exact absurd now (notCreating slot id aspace)
    · exact now
  constructor
  · exact spawning.fresh
  · intro other slot id aspace now
    exact spawning.reserved (creating now)
  · intro first second slot slot' id aspace aspace' one two
    exact spawning.reservedOnce (creating one) (creating two)
  · intro id made
    refine (spawning.unqueued id made).imp_right ?_
    rintro ⟨other, t, builds, same⟩
    refine ⟨other, t, ?_, same⟩
    rw [setDoing_doing, if_neg]
    · exact builds
    · rintro rfl
      exact held t builds
  · intro other t now
    rw [setDoing_doing] at now
    split at now
    · exact absurd now (notSpawning t)
    · exact spawning.notYet now
  · exact spawning.queuedCreated

/-! ### Spawning a thread -/

theorem spawn_sound {sched : Scheduler} (sound : Sound k) (resting : k.doing cur.id = .nothing)
    (reserves : reserve k.sched = some (slot, id, sched)) :
    Sound ({ k with sched }.setDoing cur.id (.creating slot id aspace)) := by
  obtain ⟨slots, next, taken, shape⟩ : ∃ slots next, id = k.sched.nextId ∧ sched = { k.sched with
          freeSlots := slots, nextSlot := next, nextId := id + 1 } := by
    unfold reserve at reserves
    split at reserves
    · cases reserves
      exact ⟨_, _, rfl, rfl⟩
    · split at reserves
      · cases reserves
        exact ⟨_, _, rfl, rfl⟩
      · cases reserves
  subst shape
  obtain ⟨conserved, spawning, running⟩ := sound
  refine ⟨?_, ?_, running⟩
  · refine conserved.stay ?_ rfl rfl rfl
    funext place
    by_cases waking : place = .waking cur.id
    · subst waking
      simp [Kernel.keys, Kernel.holds, setDoing_self, resting, Doing.woken]
    by_cases building : place = .spawning cur.id
    · subst building
      simp [Kernel.keys, Kernel.holds, setDoing_self, resting, Doing.spawned]
    · rw [setDoing_keys _ _ _ waking building]
      cases place <;> rfl
  · constructor
    · intro other made
      have below := spawning.fresh other made
      change other < id + 1
      omega
    · intro owner slot' other aspace' now
      change other < id + 1 ∧ other ∉ k.created
      rw [setDoing_doing] at now
      split at now
      · cases now
        refine ⟨Nat.lt_succ_self _, ?_⟩
        intro made
        exact absurd (spawning.fresh _ made) (by omega)
      · obtain ⟨below, unmade⟩ := spawning.reserved now
        exact ⟨by omega, unmade⟩
    · intro first second slot₁ slot₂ other aspace₁ aspace₂ one two
      rw [setDoing_doing] at one two
      split at one
      case isTrue here =>
        split at two
        case isTrue there => rw [here, there]
        case isFalse =>
          cases one
          exact absurd (spawning.reserved two).1 (by omega)
      case isFalse =>
        split at two
        case isTrue =>
          cases two
          exact absurd (spawning.reserved one).1 (by omega)
        case isFalse => exact spawning.reservedOnce one two
    · intro other made
      refine (spawning.unqueued other made).imp_right ?_
      rintro ⟨owner, t, builds, same⟩
      refine ⟨owner, t, ?_, same⟩
      rw [setDoing_doing, if_neg]
      · exact builds
      · rintro rfl
        rw [resting] at builds
        cases builds
    · intro owner t now
      rw [setDoing_doing] at now
      split at now
      · cases now
      · exact spawning.notYet now
    · exact spawning.queuedCreated

theorem spawnFails_sound (sound : Sound k) (creating : k.doing cur.id = .creating slot id aspace) :
    Sound ({ k with sched := { k.sched with
      freeSlots := slot :: k.sched.freeSlots } }.setDoing cur.id
        .nothing) := by
  obtain ⟨conserved, spawning, running⟩ := sound
  refine ⟨?_, ?_, running⟩
  · refine conserved.stay ?_ rfl rfl rfl
    funext place
    by_cases waking : place = .waking cur.id
    · subst waking
      simp [Kernel.keys, Kernel.holds, setDoing_self, creating, Doing.woken]
    by_cases building : place = .spawning cur.id
    · subst building
      simp [Kernel.keys, Kernel.holds, setDoing_self, creating, Doing.spawned]
    · rw [setDoing_keys _ _ _ waking building]
      cases place <;> rfl
  · apply Spawning.idleUpdate
    · exact spawning.same ⟨rfl, rfl, rfl, rfl, rfl⟩
    · intro t builds
      cases creating.symm.trans builds
    · simp
    · simp

theorem spawnBuilt_sound (sound : Sound k) (creating : k.doing cur.id = .creating slot id aspace) :
    Sound ({ k with created := id :: k.created }.setDoing cur.id
      (.spawning ⟨id, some slot, 0, false, aspace⟩)) := by
  obtain ⟨conserved, spawning, running⟩ := sound
  obtain ⟨below, unmade⟩ := spawning.reserved creating
  have notIdle : id ≠ idleId := by
    rintro rfl
    exact unmade conserved.idleAlive.1
  have notFreed : id ∉ k.freed := by
    intro gone
    exact unmade (conserved.freedCreated id gone)
  have others : ∀ place, place ≠ .spawning cur.id → ({ k with created := id :: k.created }.setDoing
      cur.id (.spawning ⟨id, some slot, 0, false, aspace⟩)).keys place =
          k.keys place := by
    intro place elsewhere
    by_cases waking : place = .waking cur.id
    · subst waking
      rw [setDoing_keys_waking]
      simp [Kernel.keys, Kernel.holds, creating, Doing.woken]
    · rw [setDoing_keys _ _ _ waking elsewhere]
      cases place <;> rfl
  refine ⟨⟨?_, ?_, ?_, ?_, ?_, ?_⟩, ?_, running⟩
  · refine conserved.placed.add (.spawning cur.id) (id, false) ?_ ?_ ?_ others
    · intro alive
      exact unmade alive.1
    · rintro ⟨other, flag⟩
      simp only [Kernel.Alive, Kernel.setDoing, List.mem_cons, Prod.mk.injEq]
      constructor
      · rintro ⟨rfl | made, kept, same⟩
        · exact .inl ⟨rfl, by simp [same, notIdle]⟩
        · exact .inr ⟨made, kept, same⟩
      · rintro (⟨rfl, rfl⟩ | ⟨made, kept, same⟩)
        · exact ⟨.inl rfl, notFreed, by simp [notIdle]⟩
        · exact ⟨.inr made, kept, same⟩
    · rw [setDoing_keys_spawning]
      simp [Kernel.keys, Kernel.holds, creating, Doing.spawned, Thread.key]
  · intro place member
    by_cases here : place = .spawning cur.id
    · subst here
      rw [setDoing_keys_spawning] at member
      simp [Doing.spawned, Thread.key] at member
    · rw [others place here] at member
      exact conserved.idleHome member
  · rw [others .idle (by simp)]
    exact conserved.idleOnly
  · exact ⟨List.mem_cons_of_mem _ conserved.idleAlive.1, conserved.idleAlive.2⟩
  · rw [others .zombies (by simp)]
    exact conserved.exited
  · intro other gone
    exact List.mem_cons_of_mem _ (conserved.freedCreated other gone)
  · constructor
    · intro other made
      rcases List.mem_cons.mp made with rfl | made
      · exact below
      · exact spawning.fresh other made
    · intro owner slot' other aspace' now
      rw [setDoing_doing] at now
      split at now
      case isTrue => cases now
      case isFalse elsewhere =>
        obtain ⟨small, absent⟩ := spawning.reserved now
        refine ⟨small, ?_⟩
        intro made
        rcases List.mem_cons.mp made with rfl | made
        · exact elsewhere (spawning.reservedOnce now creating)
        · exact absent made
    · intro first second slot₁ slot₂ other aspace₁ aspace₂ one two
      rw [setDoing_doing] at one two
      split at one
      · cases one
      split at two
      · cases two
      exact spawning.reservedOnce one two
    · intro other made
      rcases List.mem_cons.mp made with rfl | made
      · exact .inr ⟨cur.id, _, setDoing_self _ _ _, rfl⟩
      refine (spawning.unqueued other made).imp_right ?_
      rintro ⟨owner, t, builds, same⟩
      refine ⟨owner, t, ?_, same⟩
      rw [setDoing_doing, if_neg]
      · exact builds
      · rintro rfl
        rw [creating] at builds
        cases builds
    · intro owner t now
      rw [setDoing_doing] at now
      split at now
      · cases now
        intro queued
        exact unmade (spawning.queuedCreated _ queued)
      · exact spawning.notYet now
    · intro other queued
      exact List.mem_cons_of_mem _ (spawning.queuedCreated other queued)

theorem spawnQueues_sound {t : Thread} (sound : Sound k) (building : k.doing cur.id = .spawning t) :
    Sound ({ k with
      sched := { k.sched with ready := k.sched.ready ++ [t] }
      queued := t.id :: k.queued }.setDoing cur.id .nothing) := by
  obtain ⟨conserved, spawning, running⟩ := sound
  have held : ∀ {owner built}, k.doing owner = .spawning built →
      built ∈ k.holds (.spawning owner) := by
    intro owner built builds
    simp [Kernel.holds, builds, Doing.spawned]
  refine ⟨?_, ?_, running⟩
  · refine conserved.handover (.spawning cur.id) .ready [t.key]
      ⟨by simp, ?_, ?_, ?_⟩ rfl rfl rfl (by simp) (by simp) (by simp) (by simp)
    · rw [setDoing_keys_spawning]
      simp [Kernel.keys, Kernel.holds, building, Doing.spawned]
    · rw [setDoing_keys _ _ _ (by simp) (by simp)]
      simp [Kernel.keys, Kernel.holds]
    · intro place notSource notReady
      by_cases waking : place = .waking cur.id
      · subst waking
        rw [setDoing_keys_waking]
        simp [Kernel.keys, Kernel.holds, building, Doing.woken]
      · rw [setDoing_keys _ _ _ waking notSource]
        cases place with
        | ready => exact absurd rfl notReady
        | _ => rfl
  · constructor
    · exact spawning.fresh
    · intro owner slot id aspace now
      rw [setDoing_doing] at now
      split at now
      · cases now
      · exact spawning.reserved now
    · intro first second slot₁ slot₂ other aspace₁ aspace₂ one two
      rw [setDoing_doing] at one two
      split at one
      · cases one
      split at two
      · cases two
      exact spawning.reservedOnce one two
    · intro id made
      rcases spawning.unqueued id made with queued | ⟨owner, built, builds, same⟩
      · exact .inl (List.mem_cons_of_mem _ queued)
      by_cases here : owner = cur.id
      · subst here
        rw [building] at builds
        cases builds
        exact .inl (by simp [← same, Kernel.setDoing])
      · exact .inr ⟨owner, built, by rw [setDoing_doing, if_neg here]; exact builds, same⟩
    · intro owner built now
      rw [setDoing_doing] at now
      split at now
      case isTrue => cases now
      case isFalse elsewhere =>
        intro queued
        rcases List.mem_cons.mp queued with same | queued
        · have one := conserved.alive _ (held now)
          have two := conserved.alive _ (held building)
          have first := Kernel.mem_keys _ (held now)
          rw [one.key_eq two same] at first
          cases conserved.placed.apart first (Kernel.mem_keys _ (held building))
          exact elsewhere rfl
        · exact spawning.notYet now queued
    · intro id queued
      rcases List.mem_cons.mp queued with rfl | queued
      · exact (conserved.alive _ (held building)).1
      · exact spawning.queuedCreated id queued

/-! ### Waking a queue -/

theorem wakeTakes_sound {queue : Nat} {taken rest : List Thread} (sound : Sound k)
    (resting : k.doing cur.id = .nothing) (split : k.waiters queue = taken ++ rest) :
    Sound ({ k with
      waiters := Function.update k.waiters queue rest }.setDoing cur.id
        (.waking taken)) := by
  obtain ⟨conserved, spawning, running⟩ := sound
  refine ⟨?_, ?_, running⟩
  · refine conserved.handover (.waiting queue) (.waking cur.id)
      (taken.map Thread.key)
      ⟨by simp, ?_, ?_, ?_⟩ rfl rfl rfl (by simp) (by simp) (by simp) (by simp)
    · rw [setDoing_keys _ _ _ (by simp) (by simp)]
      simp [Kernel.keys, Kernel.holds, split]
    · rw [setDoing_keys_waking]
      simp [Kernel.keys, Kernel.holds, resting, Doing.woken]
    · intro place notSource notTarget
      by_cases building : place = .spawning cur.id
      · subst building
        rw [setDoing_keys_spawning]
        simp [Kernel.keys, Kernel.holds, resting, Doing.spawned]
      · rw [setDoing_keys _ _ _ notTarget building]
        cases place with
        | waiting other =>
          have differs : other ≠ queue := by
            rintro rfl
            exact notSource rfl
          simp [Kernel.keys, Kernel.holds, differs]
        | _ => rfl
  · apply Spawning.idleUpdate
    · exact spawning.same ⟨rfl, rfl, rfl, rfl, rfl⟩
    · intro t builds
      cases resting.symm.trans builds
    · simp
    · simp

theorem wakeQueues_sound {threads : List Thread}
    (sound : Sound k) (waking : k.doing cur.id = .waking threads) :
    Sound ({ k with sched := { k.sched with
      ready := k.sched.ready ++ threads } }.setDoing cur.id .nothing) := by
  obtain ⟨conserved, spawning, running⟩ := sound
  refine ⟨?_, ?_, running⟩
  · refine conserved.handover (.waking cur.id) .ready (threads.map Thread.key)
      ⟨by simp, ?_, ?_, ?_⟩ rfl rfl rfl (by simp) (by simp) (by simp) (by simp)
    · rw [setDoing_keys_waking]
      simp [Kernel.keys, Kernel.holds, waking, Doing.woken]
    · rw [setDoing_keys _ _ _ (by simp) (by simp)]
      simpa [Kernel.keys, Kernel.holds] using List.perm_append_comm
    · intro place notSource notReady
      by_cases building : place = .spawning cur.id
      · subst building
        rw [setDoing_keys_spawning]
        simp [Kernel.keys, Kernel.holds, waking, Doing.spawned]
      · rw [setDoing_keys _ _ _ notSource building]
        cases place with
        | ready => exact absurd rfl notReady
        | _ => rfl
  · apply Spawning.idleUpdate
    · exact spawning.same ⟨rfl, rfl, rfl, rfl, rfl⟩
    · intro t builds
      cases waking.symm.trans builds
    · simp
    · simp

/-! ### Runs -/

/-- A section of the running thread, or the timer striking it. -/
def Step (k later : Kernel) : Prop :=
  ∃ cur event, k.sched.current = some cur ∧ enabled k cur event = true ∧
    perform k cur event = some later

def Initial (k : Kernel) : Prop :=
  ∃ ticks hz rsp0 cr3 kernelCr3, k = boot ticks hz rsp0 cr3 kernelCr3

def Reachable (k : Kernel) : Prop := Lib.Reachable Initial Step k

theorem boot_sound (ticks hz rsp0 cr3 kernelCr3 : Nat) :
    Sound (boot ticks hz rsp0 cr3 kernelCr3) := by
  have keys : ∀ {place key},
      key ∈ (boot ticks hz rsp0 cr3 kernelCr3).keys place ↔
        (place = .current ∧ key = (0, false)) ∨
          (place = .idle ∧ key = (idleId, true)) := by
    intro place key
    cases place <;>
      simp [boot, Kernel.keys, Kernel.holds, Scheduler.new, Thread.key, Doing.woken, Doing.spawned]
  refine ⟨⟨⟨?_, ?_, ?_⟩, ?_, ?_, ?_, ?_, ?_⟩, ?_, _, rfl⟩
  · intro place
    cases place <;>
      simp [boot, Kernel.keys, Kernel.holds, Scheduler.new, Doing.woken, Doing.spawned]
  · intro first second key inFirst inSecond
    rcases keys.mp inFirst with ⟨rfl, rfl⟩ | ⟨rfl, rfl⟩ <;>
      rcases keys.mp inSecond with ⟨rfl, same⟩ | ⟨rfl, same⟩ <;>
      first | rfl | cases same
  · rintro ⟨id, flag⟩
    constructor
    · rintro ⟨made, -, same⟩
      have which : id = 0 ∨ id = idleId := by simpa [boot] using made
      rcases which with rfl | rfl
      · exact ⟨.current, keys.mpr (.inl ⟨rfl, by simpa [idleId] using same⟩)⟩
      · exact ⟨.idle, keys.mpr (.inr ⟨rfl, by simpa using same⟩)⟩
    · rintro ⟨place, member⟩
      rcases keys.mp member with ⟨-, same⟩ | ⟨-, same⟩ <;> cases same <;>
        simp [Kernel.Alive, boot, idleId]
  · intro place member
    rcases keys.mp member with ⟨-, same⟩ | ⟨rfl, -⟩
    · cases same
    · exact .inr rfl
  · intro key member
    rcases keys.mp member with ⟨impossible, -⟩ | ⟨-, rfl⟩
    · cases impossible
    · rfl
  · simp [Kernel.Alive, boot, idleId]
  · simp [boot]
  · simp [boot]
  · constructor <;> simp [boot, idleId, Scheduler.new]

theorem tick_sound (sound : Sound k) : Sound (tick k) := by
  have same : SameThreads k (tick k) ∧ (tick k).keys = k.keys ∧
      (tick k).exited = k.exited ∧
      (tick k).sched.current = k.sched.current := by
    unfold tick
    dsimp only
    split <;> exact ⟨⟨rfl, rfl, rfl, rfl, rfl⟩, rfl, rfl, rfl⟩
  obtain ⟨threads, keys, exited, current⟩ := same
  obtain ⟨conserved, spawning, running⟩ := sound
  refine ⟨conserved.stay keys threads.created threads.freed exited, spawning.same threads, ?_⟩
  rw [current]
  exact running

/-- Every section a thread can come to succeeds and keeps the invariant. -/
theorem perform_sound {event : Event} (sound : Sound k) (current : k.sched.current = some cur)
    (allowed : enabled k cur event = true) :
    ∃ later, perform k cur event = some later ∧ Sound later := by
  have resting : (!k.switched && !cur.isIdle &&
      k.doing cur.id = .nothing) = true →
        cur.isIdle = false ∧ k.doing cur.id = .nothing := by
    simp only [Bool.and_eq_true, Bool.not_eq_true', decide_eq_true_eq]
    rintro ⟨⟨-, busy⟩, nothing⟩
    exact ⟨busy, nothing⟩
  cases event with
  | spawn aspace =>
    obtain ⟨-, nothing⟩ := resting allowed
    simp only [perform]
    cases reserves : reserve k.sched with
    | none => exact ⟨k, rfl, sound⟩
    | some result => exact ⟨_, rfl, spawn_sound sound nothing reserves⟩
  | spawnFails =>
    simp only [perform]
    cases doing : k.doing cur.id with
    | creating slot id aspace => exact ⟨_, rfl, spawnFails_sound sound doing⟩
    | _ => exact ⟨k, rfl, sound⟩
  | spawnBuilt =>
    simp only [perform]
    cases doing : k.doing cur.id with
    | creating slot id aspace => exact ⟨_, rfl, spawnBuilt_sound sound doing⟩
    | _ => exact ⟨k, rfl, sound⟩
  | spawnQueues =>
    simp only [perform]
    cases doing : k.doing cur.id with
    | spawning t => exact ⟨_, rfl, spawnQueues_sound sound doing⟩
    | _ => exact ⟨k, rfl, sound⟩
  | yieldNow => exact reschedule_sound sound current fun _ => rfl
  | sleepMs ms =>
    obtain ⟨busy, -⟩ := resting allowed
    exact reschedule_sound sound current (by simp [busy])
  | exit =>
    obtain ⟨busy, -⟩ := resting allowed
    exact reschedule_sound sound current (by simp [busy])
  | wait queue =>
    obtain ⟨busy, -⟩ := resting allowed
    exact reschedule_sound sound current (by simp [busy])
  | wakeOne queue =>
    obtain ⟨-, nothing⟩ := resting allowed
    simp only [perform]
    cases waiting : k.waiters queue with
    | nil => exact ⟨k, rfl, sound⟩
    | cons t rest =>
      have split : k.waiters queue = [t] ++ rest := waiting
      exact ⟨_, rfl, wakeTakes_sound sound nothing split⟩
  | wakeAll queue =>
    obtain ⟨-, nothing⟩ := resting allowed
    simp only [perform]
    cases waiting : k.waiters queue with
    | nil => exact ⟨k, rfl, sound⟩
    | cons t rest =>
      have split : k.waiters queue = (t :: rest) ++ [] := by
        rw [waiting, List.append_nil]
      exact ⟨_, rfl, wakeTakes_sound sound nothing split⟩
  | wakeQueues =>
    simp only [perform]
    cases doing : k.doing cur.id with
    | waking threads => exact ⟨_, rfl, wakeQueues_sound sound doing⟩
    | _ => exact ⟨k, rfl, sound⟩
  | tick => exact ⟨_, rfl, tick_sound sound⟩
  | preemptIfNeeded =>
    simp only [perform, preemptIfNeeded]
    split
    · obtain ⟨conserved, spawning, running⟩ := sound
      refine reschedule_sound ⟨?_, ?_, running⟩ current fun _ => rfl
      · exact conserved.stay rfl rfl rfl rfl
      · exact spawning.same ⟨rfl, rfl, rfl, rfl, rfl⟩
    · exact ⟨k, rfl, sound⟩
  | finishSwitch => exact ⟨_, rfl, finishSwitch_sound sound⟩

theorem Sound.step (sound : Sound k) (taken : Step k later) : Sound later := by
  obtain ⟨cur, event, current, allowed, performed⟩ := taken
  obtain ⟨result, same, safe⟩ := perform_sound sound current allowed
  rw [same] at performed
  cases performed
  exact safe

theorem reachable_sound (reachable : Reachable k) : Sound k := by
  refine Lib.Reachable.invariant ?_ ?_ reachable
  · rintro _ ⟨ticks, hz, rsp0, cr3, kernelCr3, rfl⟩
    exact boot_sound ticks hz rsp0 cr3 kernelCr3
  · intro k later sound taken
    exact sound.step taken

/-- The ids of the threads a place holds. -/
def Kernel.ids (k : Kernel) (place : Place) : List Nat :=
  (k.holds place).map Thread.id

theorem Conserved.mem_keys (conserved : Conserved k) {place : Place} (member : id ∈ k.ids place) :
    (id, id == idleId) ∈ k.keys place := by
  obtain ⟨t, held, rfl⟩ := List.mem_map.mp member
  have key : t.key = (t.id, t.id == idleId) :=
    Prod.ext rfl (conserved.alive place held).2.2
  rw [← key]
  exact Kernel.mem_keys place held

theorem Conserved.ids_nodup (conserved : Conserved k) (place : Place) : (k.ids place).Nodup := by
  refine List.Nodup.of_map (fun id => (id, id == idleId)) ?_
  have same : (k.ids place).map (fun id => (id, id == idleId)) =
      k.keys place := by
    rw [Kernel.ids, Kernel.keys, List.map_map]
    refine List.map_congr_left ?_
    intro t held
    exact Prod.ext rfl (conserved.alive place held).2.2.symm
  rw [same]
  exact conserved.placed.nodup place

theorem Conserved.ids_apart (conserved : Conserved k) {first second : Place}
    (one : id ∈ k.ids first) (two : id ∈ k.ids second) : first = second :=
  conserved.placed.apart (conserved.mem_keys one) (conserved.mem_keys two)

theorem Conserved.unique_place (conserved : Conserved k) (made : id ∈ k.created)
    (kept : id ∉ k.freed) :
    ∃ place, (k.ids place).count id = 1 ∧ ∀ other, other ≠ place → id ∉ k.ids other := by
  obtain ⟨place, member, only⟩ := conserved.placed.place_of_live
    (id, id == idleId) ⟨made, kept, rfl⟩
  refine ⟨place, ?_, ?_⟩
  · obtain ⟨t, held, key⟩ := List.mem_map.mp member
    refine List.count_eq_one_of_mem (conserved.ids_nodup place) ?_
    exact List.mem_map.mpr ⟨t, held, congrArg Prod.fst key⟩
  · intro other elsewhere held
    exact only other elsewhere (conserved.mem_keys held)

/-- Conservation of threads over every run.  A queued thread that is not freed
has exactly one owner, none of them a spawn's local variable, which holds
exactly the threads not queued yet; the idle slot is full exactly while the
idle thread does not run, so no `expect` of `reschedule` fails; sleepers wake
exactly when due; and an exited thread never runs again. -/
theorem reachable_threads_conserved {k : Kernel} (reachable : Reachable k) :
    (∀ id ∈ k.queued, id ∉ k.freed →
      ∃ place, (∀ owner, place ≠ .spawning owner) ∧
        (k.ids place).count id = 1 ∧
        ∀ other, other ≠ place → id ∉ k.ids other) ∧
    (∀ id ∈ k.created, id ∉ k.queued → ∃ owner,
      (k.ids (.spawning owner)).count id = 1 ∧
        ∀ other, other ≠ .spawning owner → id ∉ k.ids other) ∧
    (∀ place, ∀ id ∈ k.ids place, id ∈ k.created ∧ id ∉ k.freed) ∧
    ((∃ t, k.sched.idle = some t) ↔
      ∀ cur, k.sched.current = some cur → cur.isIdle = false) ∧
    (∃ cur, k.sched.current = some cur ∧
      ∀ how, (cur.isIdle = true → how = .yield) →
        ∃ later, reschedule how k = some later) ∧
    (∀ now, ∃ due asleep, wakeSleepers now k.sched =
        { k.sched with sleeping := asleep, ready := k.sched.ready ++ due } ∧
      due.Perm (k.sched.sleeping.filter fun t => t.wakeAt ≤ now) ∧
      asleep.Perm (k.sched.sleeping.filter fun t => now < t.wakeAt)) ∧
    ∀ id ∈ k.exited, ∀ cur, k.sched.current = some cur → cur.id ≠ id := by
  have sound := reachable_sound reachable
  obtain ⟨conserved, spawning, cur, current⟩ := sound
  refine ⟨?_, ?_, ?_, ?_, ?_, ?_, ?_⟩
  · intro id queued kept
    obtain ⟨place, once, only⟩ :=
      conserved.unique_place (spawning.queuedCreated id queued) kept
    refine ⟨place, ?_, once, only⟩
    rintro owner rfl
    have held : id ∈ k.ids (.spawning owner) :=
      List.one_le_count_iff.mp (Nat.le_of_eq once.symm)
    obtain ⟨t, building, rfl⟩ := List.mem_map.mp held
    cases doing : k.doing owner with
    | spawning built =>
      have same : t = built := by
        simpa [Kernel.holds, doing, Doing.spawned] using building
      subst same
      exact spawning.notYet doing queued
    | _ => simp [Kernel.holds, doing, Doing.spawned] at building
  · intro id made unqueued
    obtain ⟨owner, t, doing, rfl⟩ :=
      (spawning.unqueued id made).resolve_left unqueued
    have building : t ∈ k.holds (.spawning owner) := by
      simp [Kernel.holds, doing, Doing.spawned]
    have alive := conserved.alive _ building
    obtain ⟨place, once, only⟩ := conserved.unique_place alive.1 alive.2.1
    have here : place = .spawning owner := by
      by_contra elsewhere
      exact only _ (Ne.symm elsewhere) (List.mem_map_of_mem building)
    subst here
    exact ⟨owner, once, only⟩
  · intro place id member
    obtain ⟨t, held, rfl⟩ := List.mem_map.mp member
    have alive := conserved.alive place held
    exact ⟨alive.1, alive.2.1⟩
  · constructor
    · rintro ⟨t, slot⟩ running current
      by_contra idle
      have none := conserved.vacant current (by simpa using idle)
      rw [slot] at none
      cases none
    · exact conserved.occupied
  · refine ⟨cur, current, ?_⟩
    intro how idleYields
    obtain ⟨later, result, -⟩ :=
      reschedule_sound ⟨conserved, spawning, cur, current⟩ current idleYields
    exact ⟨later, result⟩
  · intro now
    obtain ⟨due, asleep, result, dueOnly, asleepOnly, -⟩ :=
      wakeSleepers_split now k.sched
    exact ⟨due, asleep, result, dueOnly, asleepOnly⟩
  · rintro _ left running current rfl
    have held : running ∈ k.holds .current := by
      simp [Kernel.holds, current]
    have alive := conserved.alive .current held
    rcases conserved.exited _ left with zombie | gone
    · obtain ⟨t, dead, key⟩ := List.mem_map.mp zombie
      have same : t.id = running.id := congrArg Prod.fst key
      have first := Kernel.mem_keys .zombies dead
      rw [(conserved.alive .zombies dead).key_eq alive same] at first
      cases conserved.placed.apart first (Kernel.mem_keys .current held)
    · exact alive.2.1 gone

/-- Runs the sections in turn; none where one is not enabled or panics. -/
def run : List Event → Kernel → Option Kernel
  | [], k => some k
  | event :: rest, k =>
    match k.sched.current with
    | none => none
    | some cur =>
      if enabled k cur event then (perform k cur event).bind (run rest)
      else none

theorem run_steps {events : List Event}
    (ran : run events k = some later) : Relation.ReflTransGen Step k later := by
  induction events generalizing k with
  | nil =>
    cases ran
    exact .refl
  | cons event rest induction =>
    unfold run at ran
    split at ran
    · cases ran
    case h_2 cur current =>
      split at ran
      case isTrue allowed =>
        obtain ⟨middle, performed, ran⟩ := Option.bind_eq_some_iff.mp ran
        exact .head ⟨cur, event, current, allowed, performed⟩ (induction ran)
      case isFalse => cases ran

theorem run_reachable {events : List Event} (reachable : Reachable k)
    (ran : run events k = some later) : Reachable later := by
  obtain ⟨first, initial, steps⟩ := reachable
  exact ⟨first, initial, steps.trans (run_steps ran)⟩

/-- The boot thread spawns a thread, which runs and exits. -/
def sampleEvents : List Event :=
  [.spawn none, .spawnBuilt, .tick, .spawnQueues, .yieldNow, .finishSwitch,
    .exit]

theorem sampleEvents_conserved :
    ∃ k, run sampleEvents (boot 0 100 0 0 0) = some k ∧ k.exited = [2] ∧
      (∃ place, (∀ owner, place ≠ .spawning owner) ∧
        (k.ids place).count 2 = 1 ∧
        ∀ other, other ≠ place → 2 ∉ k.ids other) ∧
      ∀ cur, k.sched.current = some cur → cur.id ≠ 2 := by
  obtain ⟨k, ran, exited, queued, freed⟩ :
      ∃ k, run sampleEvents (boot 0 100 0 0 0) = some k ∧ k.exited = [2] ∧
        k.queued = [2, 0, 1] ∧ k.freed = [] :=
    ⟨_, rfl, rfl, rfl, rfl⟩
  have started : Reachable (boot 0 100 0 0 0) :=
    Lib.Reachable.start ⟨0, 100, 0, 0, 0, rfl⟩
  obtain ⟨placed, -, -, -, -, -, gone⟩ :=
    reachable_threads_conserved (run_reachable started ran)
  exact ⟨k, ran, exited, placed 2 (by simp [queued]) (by simp [freed]), gone 2 (by simp [exited])⟩

end Eonos.Sched
