import Eonos.Process.Table

/-!
# Exit statuses reach the parent once

The invariant of the process table along every run, and what it says about
`sys_waitpid`: a status leaves the table on its way to the process that spawned
the child, and the copy to that process cannot fail any more.
-/

namespace Eonos.Process

open Eonos.Vmm
open Eonos.Spaces (SameOwn)

/-- A status the process holds but has not returned yet. -/
def Task.pending (t : Task) : Option Delivery :=
  match t.doing with
  | .reaped _ child status => some ⟨t.pid, child, status⟩
  | _ => none

def World.pending (w : World) : List Delivery := w.alive.filterMap Task.pending

/-- Where the status will be copied to. -/
def Doing.pointer : Doing → Option (BitVec 64)
  | .user => none
  | .waiting _ ptr _ | .reaped ptr _ _ => if ptr = 0 then none else some ptr

structure Inv (w : World) : Prop where
  sys : Spaces.Inv w.sys
  positive : 0 < w.nextId
  books : Books w
  /-- What left the table was returned or is about to be. -/
  returned : w.taken.Perm (w.returned ++ w.pending)
  spaces : ∀ t ∈ w.alive, t.space ∈ w.sys.spaces
  ranges : ∀ t ∈ w.alive, ∀ ptr, t.doing.pointer = some ptr →
    UserRange true w.sys.machine.mem t.space ptr 4

section

variable {w later : World} {t : Task} {pid : Nat}

/-! ### One process goes on -/

theorem task_found (found : w.task pid = some t) : t ∈ w.alive ∧ t.pid = pid := by
  have holds := List.find?_some found
  exact ⟨List.mem_of_find?_eq_some found, eq_of_beq holds⟩

theorem setDoing_split (found : w.task pid = some t) (doing : Doing) :
    ∃ before after, w.alive = before ++ t :: after ∧
      (w.setDoing t.pid doing).alive =
        before ++ { t with doing } :: after := by
  obtain ⟨-, rfl⟩ := task_found found
  exact (Lib.updateFirst_found found fun t => { t with doing }).2

theorem setDoing_pids (found : w.task pid = some t) (doing : Doing) :
    (w.setDoing t.pid doing).alive.map Task.pid = w.alive.map Task.pid := by
  obtain ⟨before, after, split, changed⟩ := setDoing_split found doing
  rw [split, changed, List.map_append, List.map_append]
  rfl

theorem mem_setDoing (found : w.task pid = some t) {doing : Doing} {u : Task}
    (member : u ∈ (w.setDoing t.pid doing).alive) : u = { t with doing } ∨ u ∈ w.alive := by
  obtain ⟨before, after, split, changed⟩ := setDoing_split found doing
  rw [changed, List.mem_append, List.mem_cons] at member
  rw [split, List.mem_append, List.mem_cons]
  tauto

/-- The statuses the other processes hold stay as they are. -/
theorem setDoing_pending (found : w.task pid = some t) (doing : Doing) :
    ∃ rest, w.pending.Perm (t.pending.toList ++ rest) ∧
      (w.setDoing t.pid doing).pending.Perm
        (({ t with doing } : Task).pending.toList ++ rest) := by
  obtain ⟨before, after, split, changed⟩ := setDoing_split found doing
  have middle : ∀ u : Task, ((before ++ u :: after).filterMap
      Task.pending).Perm (u.pending.toList ++
        (before.filterMap Task.pending ++ after.filterMap Task.pending)) := by
    intro u
    have cons : (u :: after).filterMap Task.pending =
        u.pending.toList ++ after.filterMap Task.pending := by
      rw [List.filterMap_cons]
      cases u.pending with
      | none => rfl
      | some d => rfl
    rw [List.filterMap_append, cons]
    exact List.perm_append_comm_assoc _ _ _
  refine ⟨before.filterMap Task.pending ++ after.filterMap Task.pending, ?_, ?_⟩
  · rw [World.pending, split]
    exact middle t
  · rw [World.pending, changed]
    exact middle _

/-- Nothing happens to the tables of the spaces in use. -/
def World.Keeps (w later : World) : Prop :=
  ∀ u ∈ w.alive, u.space ∈ later.sys.spaces ∧
    SameOwn u.space w.sys.view later.sys.view

theorem Inv.range_keep (inv : Inv w) (keeps : w.Keeps later) {u : Task} (member : u ∈ w.alive)
    {ptr : BitVec 64} (range : UserRange true w.sys.machine.mem u.space ptr 4) :
    UserRange true later.sys.machine.mem u.space ptr 4 :=
  inv.sys.userRange_keep (inv.spaces u member) (keeps u member).2 range

/-- One process moves on to `doing`, the others stay where they are. -/
theorem Inv.proceed (inv : Inv w) (found : w.task pid = some t) {doing : Doing}
    (alive : later.alive = (w.setDoing t.pid doing).alive) (sys : Spaces.Inv later.sys)
    (keeps : w.Keeps later) (nextId : later.nextId = w.nextId) (books : Books later)
    (returned : later.taken.Perm (later.returned ++ later.pending))
    (pointer : ∀ ptr, doing.pointer = some ptr → UserRange true w.sys.machine.mem t.space ptr 4) :
    Inv later := by
  obtain ⟨member, -⟩ := task_found found
  refine ⟨sys, nextId ▸ inv.positive, books, returned, ?_, ?_⟩
  · intro u here
    rw [alive] at here
    rcases mem_setDoing found here with rfl | old
    · exact (keeps t member).1
    · exact (keeps u old).1
  · intro u here ptr points
    rw [alive] at here
    rcases mem_setDoing found here with rfl | old
    · exact inv.range_keep keeps member (pointer ptr points)
    · exact inv.range_keep keeps old (inv.ranges u old ptr points)

theorem Inv.keeps_self (inv : Inv w) (same : later.sys = w.sys) : w.Keeps later := by
  intro u member
  rw [same]
  exact ⟨inv.spaces u member, fun _ _ => rfl⟩

/-- A step in which the process takes and returns nothing. -/
theorem Inv.setDoing (inv : Inv w) (found : w.task pid = some t) {doing : Doing}
    (before : t.pending = none) (after : ({ t with doing } : Task).pending = none)
    (pointer : ∀ ptr, doing.pointer = some ptr → UserRange true w.sys.machine.mem t.space ptr 4) :
    Inv (w.setDoing t.pid doing) := by
  refine inv.proceed found rfl inv.sys (inv.keeps_self rfl) rfl ?_ ?_ pointer
  · exact inv.books.elsewhere rfl (setDoing_pids found doing) (Nat.le_refl _)
      rfl rfl rfl
  · obtain ⟨rest, held, holds⟩ := setDoing_pending found doing
    rw [before, Option.toList_none, List.nil_append] at held
    rw [after, Option.toList_none, List.nil_append] at holds
    exact inv.returned.trans ((held.trans holds.symm).append_left _)

/-! ### The events -/

theorem Inv.memory (inv : Inv w) {event : Spaces.Event} {sys : Spaces.System}
    (spares : w.Spares event) (result : w.sys.perform event = some sys) : Inv { w with sys } := by
  have leaves := inv.sys.perform_leaves result
  have keeps : w.Keeps { w with sys } := fun u member =>
    leaves.others u.space (inv.spaces u member) (spares u member)
  refine ⟨inv.sys.perform result, inv.positive, ?_, inv.returned,
    fun u member => (keeps u member).1, ?_⟩
  · exact inv.books.elsewhere rfl rfl (Nat.le_refl _) rfl rfl rfl
  · intro u member ptr points
    exact inv.range_keep keeps member (inv.ranges u member ptr points)

theorem Inv.takeId (inv : Inv w) : Inv { w with nextId := w.nextId + 1 } := by
  refine ⟨inv.sys, Nat.succ_pos _, ?_, inv.returned, inv.spaces, inv.ranges⟩
  exact inv.books.elsewhere rfl rfl (Nat.le_succ _) rfl rfl rfl

theorem Inv.spawn (inv : Inv w) {space : BitVec 64} (parent : Nat) (path : String)
    (alive : space ∈ w.sys.spaces) : Inv (w.spawn parent path space) := by
  refine ⟨inv.sys, Nat.succ_pos _, inv.books.spawn parent path space
    inv.positive, inv.returned, ?_, ?_⟩
  · intro u member
    rcases List.mem_cons.mp member with rfl | old
    · exact alive
    · exact inv.spaces u old
  · intro u member ptr points
    rcases List.mem_cons.mp member with rfl | old
    · cases points
    · exact inv.ranges u old ptr points

theorem Inv.exit (inv : Inv w) (found : w.task pid = some t)
    (user : t.doing = .user) (cause : Cause) : Inv (w.exit t cause) := by
  obtain ⟨member, -⟩ := task_found found
  have older : ∀ u ∈ (w.exit t cause).alive, u ∈ w.alive := fun u here =>
    List.mem_of_mem_filter here
  refine ⟨inv.sys, inv.positive, inv.books.exit member cause, ?_, fun u here => inv.spaces u (older
    u here), fun u here => inv.ranges u (older u here)⟩
  have same : (w.exit t cause).pending = w.pending := by
    rw [World.pending, World.exit, List.filterMap_filter, World.pending]
    refine List.filterMap_congr fun u here => ?_
    by_cases pid : u.pid = t.pid
    · have equal := List.inj_on_of_nodup_map inv.books.tasks here member pid
      rw [equal, Task.pending, user]
      exact ite_self none
    · exact if_pos (bne_iff_ne.mpr pid)
  rw [same]
  exact inv.returned

theorem Inv.waitpid (inv : Inv w) (found : w.task pid = some t) (user : t.doing = .user)
    (target ptr options : BitVec 64) : Inv (w.waitpid t target ptr options).1 := by
  unfold World.waitpid
  split
  case isTrue => exact inv
  split
  case isTrue => exact inv
  rename_i checked
  refine inv.setDoing found ?_ rfl ?_
  · rw [Task.pending, user]
  · intro other points
    obtain ⟨some, same⟩ := Option.ite_none_left_eq_some.mp points
    cases same
    have valid : validateUserRange w.sys.machine.mem t.space ptr 4 true =
        true := by
      by_contra refused
      exact checked ⟨some, by simpa using refused⟩
    exact (validateUserRange_iff true _ _ _ _).mp valid

theorem pending_of_waiting {target ptr options : BitVec 64}
    (doing : t.doing = .waiting target ptr options) : t.pending = none := by
  rw [Task.pending, doing]

theorem Inv.poll (inv : Inv w) (found : w.task pid = some t) {target ptr options : BitVec 64}
    (waits : t.doing = .waiting target ptr options) {reply : Option Reply}
    (result : w.poll t target ptr options = some (later, reply)) : Inv later := by
  obtain ⟨member, -⟩ := task_found found
  have idle := pending_of_waiting waits
  have backToUser : Inv (w.setDoing t.pid .user) :=
    inv.setDoing found idle rfl nofun
  obtain ⟨answer, rest, takes, cases⟩ :=
    takeChildExitStatus_takes w.procs t.pid target
  rw [World.poll, takes, Option.map_some] at result
  cases cases with
  | noChild others =>
    cases result
    exact backToUser
  | running child alive =>
    dsimp only at result
    split at result
    · cases result
      exact backToUser
    · cases result
      exact inv
  | exited r rest status child ended perm =>
    cases result
    have parent : r.parent = t.pid :=
      eq_of_beq (Bool.and_eq_true_iff.mp child).1
    obtain ⟨rest, held, holds⟩ :=
      setDoing_pending found (.reaped ptr r.pid status)
    rw [idle, Option.toList_none, List.nil_append] at held
    refine inv.proceed found rfl inv.sys (inv.keeps_self rfl) rfl ?_ ?_ ?_
    · exact (inv.books.take parent ended perm).elsewhere rfl
        (setDoing_pids found _) (Nat.le_refl _) rfl rfl rfl
    · refine List.Perm.trans ?_ (holds.symm.append_left _)
      refine List.Perm.trans ?_ List.perm_middle.symm
      exact (inv.returned.trans (held.append_left _)).cons _
    · intro other points
      refine inv.ranges t member other ?_
      rw [waits]
      exact points

theorem length_toLeBytes (value count : Nat) : (Elf.toLeBytes value count).length = count := by
  induction count generalizing value with
  | zero => rfl
  | succ count induction => rw [Elf.toLeBytes, List.length_cons, induction]

/-- The process can read the status where it asked for it. -/
def World.Reads (w : World) (t : Task) (ptr : BitVec 64) (status : Int) : Prop :=
  ∀ k < 4, ∃ b, Translates true w.sys.machine.mem t.space ptr k b ∧
    (statusBytes status)[k]? = some (w.sys.machine.mem b)

/-- The copy of a status succeeds: the pointer was checked when the call began
and nothing has changed the process's mappings since. -/
theorem Inv.deliver (inv : Inv w) (found : w.task pid = some t) {ptr : BitVec 64} {child : Nat}
    {status : Int} (holds : t.doing = .reaped ptr child status) :
    ∃ later, w.deliver t ptr child status = (later, some (.ok child)) ∧
      Inv later ∧
      later.returned = ⟨t.pid, child, status⟩ :: w.returned ∧
      (ptr ≠ 0 → later.Reads t ptr status) := by
  obtain ⟨member, -⟩ := task_found found
  have returned : ∀ later : World, later.taken = w.taken →
      later.returned = ⟨t.pid, child, status⟩ :: w.returned →
      later.pending = (w.setDoing t.pid .user).pending →
      later.taken.Perm (later.returned ++ later.pending) := by
    intro later taken log pending
    obtain ⟨rest, held, after⟩ := setDoing_pending found .user
    have mine : t.pending = some ⟨t.pid, child, status⟩ := by
      rw [Task.pending, holds]
    rw [mine, Option.toList_some, List.singleton_append] at held
    rw [taken, log, pending]
    refine inv.returned.trans ((held.append_left _).trans ?_)
    refine List.perm_middle.trans (List.Perm.cons _ ?_)
    exact after.symm.append_left _
  have books : ∀ sys log, Books ({ w with
      sys := sys, returned := log }.setDoing t.pid .user) := fun sys log =>
    inv.books.elsewhere rfl (setDoing_pids found _) (Nat.le_refl _) rfl rfl rfl
  unfold World.deliver
  split
  case isTrue none =>
    refine ⟨_, rfl, ?_, rfl, fun some => absurd none some⟩
    exact inv.proceed found rfl inv.sys (inv.keeps_self rfl) rfl (books _ _)
      (returned _ rfl rfl rfl) nofun
  case isFalse some =>
    have points : t.doing.pointer = .some ptr := by
      rw [holds]
      exact if_neg some
    have size : (statusBytes status).length = 4 := length_toLeBytes _ _
    have range := inv.ranges t member ptr points
    rw [← size] at range
    have space := inv.spaces t member
    obtain ⟨mem, copied, fills, reads⟩ := inv.sys.copyToUser space range
    rw [copied]
    refine ⟨_, rfl, ?_, rfl, fun _ k inside => reads k (by omega)⟩
    refine inv.proceed found rfl (inv.sys.fill fills) ?_ rfl (books _ _)
      (returned _ rfl rfl rfl) nofun
    intro u here
    have alive := inv.spaces u here
    exact ⟨alive, inv.sys.fill_sameOwn fills alive⟩

theorem Inv.perform (inv : Inv w) {event : Event} {reply : Option Reply}
    (result : w.perform event = some (later, reply)) : Inv later := by
  cases event with
  | memory event =>
    obtain ⟨spares, result⟩ := Option.ite_none_right_eq_some.mp result
    obtain ⟨sys, performed, same⟩ := Option.map_eq_some_iff.mp result
    cases same
    exact inv.memory spares performed
  | takeId =>
    cases result
    exact inv.takeId
  | spawn parent path space =>
    obtain ⟨⟨-, alive⟩, result⟩ := Option.ite_none_right_eq_some.mp result
    cases result
    exact inv.spawn parent path alive
  | exit pid cause =>
    obtain ⟨t, found, result⟩ := Option.bind_eq_some_iff.mp result
    obtain ⟨user, result⟩ := Option.ite_none_right_eq_some.mp result
    cases result
    exact inv.exit found user cause
  | waitpid pid target ptr options =>
    obtain ⟨t, found, result⟩ := Option.bind_eq_some_iff.mp result
    obtain ⟨user, result⟩ := Option.ite_none_right_eq_some.mp result
    have kept := inv.waitpid found user target ptr options
    rw [Option.some.inj result] at kept
    exact kept
  | poll pid =>
    obtain ⟨t, found, result⟩ := Option.bind_eq_some_iff.mp result
    cases doing : t.doing with
    | waiting target ptr options =>
      rw [doing] at result
      exact inv.poll found doing result
    | user | reaped =>
      rw [doing] at result
      cases result
  | deliver pid =>
    obtain ⟨t, found, result⟩ := Option.bind_eq_some_iff.mp result
    cases doing : t.doing with
    | reaped ptr child status =>
      rw [doing] at result
      obtain ⟨after, delivered, kept, -⟩ := inv.deliver found doing
      cases delivered.symm.trans (Option.some.inj result)
      exact kept
    | user | waiting =>
      rw [doing] at result
      cases result

end

theorem Initial.inv {map : Physical.MemoryMap} {w : World} (initial : Initial map w) : Inv w := by
  obtain ⟨sys, positive, procs, alive, spawned, exited, taken, returned⟩ :=
    initial
  refine ⟨sys.inv, positive, ?_, ?_, ?_, ?_⟩
  · constructor
    all_goals simp [procs, alive, spawned, exited, taken]
  · simp [World.pending, alive, taken, returned]
  · simp [alive]
  · simp [alive]

theorem Reachable.inv {map : Physical.MemoryMap} {w : World}
    (reached : Reachable map w) : Inv w := by
  refine Lib.Reachable.invariant (fun _ initial => initial.inv) ?_ reached
  rintro w later inv ⟨event, reply, result⟩
  exact inv.perform result

/-! ### What waiting comes to -/

/-- `child` was spawned by `parent` and its status has not been taken. -/
def World.Unreaped (w : World) (parent child : Nat) : Prop :=
  (parent, child) ∈ w.spawned ∧ child ∉ w.taken.map Delivery.child

/-- The process is in the loop of `sys_waitpid`. -/
def World.Waits (w : World) (pid : Nat) (target : BitVec 64) : Prop :=
  ∃ t ptr options, w.task pid = some t ∧
    t.doing = .waiting target ptr options

/-- What one event means for the calls of `sys_waitpid`. -/
structure Delivers (w : World) (event : Event) (later : World)
    (reply : Option Reply) : Prop where
  /-- ECHILD says that the caller has no unreaped matching child. -/
  childless : reply = some (.error ECHILD) ↔
    ∃ pid target, event = .poll pid ∧ w.Waits pid target ∧
      ∀ child, w.Unreaped pid child → wanted target child = false
  /-- EFAULT comes before the table is looked at. -/
  fault : reply = some (.error EFAULT) →
    later = w ∧ ∃ pid target ptr options,
      event = .waitpid pid target ptr options
  /-- A status is returned with the child's pid, and can be read where the
  caller asked for it. -/
  returns : later.returned = w.returned ∧
      (∀ child, reply = some (.ok child) → child = 0) ∨
    ∃ t ptr d, event = .deliver t.pid ∧ w.task t.pid = some t ∧
      t.doing = .reaped ptr d.child d.status ∧ d.waiter = t.pid ∧
      later.returned = d :: w.returned ∧ reply = some (.ok d.child) ∧
      (ptr ≠ 0 → later.Reads t ptr d.status)

section

variable {w later : World} {t : Task} {pid : Nat}

/-- The children the table knows are those not reaped. -/
theorem Books.isChild_iff (books : Books w) {parent : Nat} {target : BitVec 64} :
    (∀ r ∈ w.procs, r.isChild parent target = false) ↔
      ∀ child, w.Unreaped parent child → wanted target child = false := by
  constructor
  · rintro none child ⟨spawned, untaken⟩
    obtain ⟨r, member, rfl⟩ := List.mem_map.mp (books.kept child
      (List.mem_map_of_mem (f := Prod.snd) spawned) untaken)
    have same := List.inj_on_of_nodup_map books.children (books.parent r member) spawned rfl
    have refused := none r member
    rw [Record.isChild, (Prod.mk.inj same).1, beq_self_eq_true, Bool.true_and] at refused
    exact refused
  · intro none r member
    by_cases own : r.parent = parent
    · rw [Record.isChild, own, beq_self_eq_true, Bool.true_and]
      refine none r.pid ⟨own ▸ books.parent r member, fun taken => ?_⟩
      obtain ⟨d, here, same⟩ := List.mem_map.mp taken
      exact (books.taken d here).2.2 (same ▸ List.mem_map_of_mem member)
    · rw [Record.isChild, beq_eq_false_iff_ne.mpr own, Bool.false_and]

theorem Delivers.silent {event : Event} (same : later.returned = w.returned)
    (other : ∀ pid, event ≠ .poll pid) : Delivers w event later none where
  childless := by
    refine ⟨nofun, ?_⟩
    rintro ⟨pid, -, poll, -⟩
    exact absurd poll (other pid)
  fault := nofun
  returns := .inl ⟨same, nofun⟩

theorem Inv.poll_delivers (inv : Inv w) (found : w.task pid = some t)
    {target ptr options : BitVec 64} (waits : t.doing = .waiting target ptr options)
    {reply : Option Reply} (result : w.poll t target ptr options = some (later, reply)) :
    Delivers w (.poll pid) later reply := by
  obtain ⟨-, rfl⟩ := task_found found
  have here : w.Waits t.pid target := ⟨t, ptr, options, found, waits⟩
  have only : ∀ {other}, w.Waits t.pid other → other = target := by
    rintro other ⟨u, _, _, same, doing⟩
    cases found.symm.trans same
    cases waits.symm.trans doing
    rfl
  have notEmpty : (∃ r ∈ w.procs, r.isChild t.pid target = true) →
      ¬ ∃ pid target, Event.poll t.pid = .poll pid ∧ w.Waits pid target ∧
        ∀ child, w.Unreaped pid child → wanted target child = false := by
    rintro ⟨r, member, child⟩ ⟨_, other, ⟨⟩, waiting, none⟩
    cases only waiting
    have refused := inv.books.isChild_iff.mpr none r member
    rw [child] at refused
    cases refused
  obtain ⟨answer, rest, takes, cases⟩ :=
    takeChildExitStatus_takes w.procs t.pid target
  rw [World.poll, takes, Option.map_some] at result
  cases cases with
  | noChild others =>
    cases result
    refine ⟨⟨fun _ => ?_, fun _ => rfl⟩, nofun, .inl ⟨rfl, nofun⟩⟩
    exact ⟨t.pid, target, rfl, here, inv.books.isChild_iff.mp others⟩
  | running child alive =>
    dsimp only at result
    split at result
    · cases result
      refine ⟨⟨nofun, fun empty => absurd empty (notEmpty child)⟩, nofun, .inl ⟨rfl, ?_⟩⟩
      rintro child ⟨⟩
      rfl
    · cases result
      exact ⟨⟨nofun, fun empty => absurd empty (notEmpty child)⟩, nofun, .inl ⟨rfl, nofun⟩⟩
  | exited r rest status child ended perm =>
    cases result
    have member : r ∈ w.procs := perm.mem_iff.mpr List.mem_cons_self
    exact ⟨⟨nofun, fun empty => absurd empty (notEmpty ⟨r, member, child⟩)⟩,
      nofun, .inl ⟨rfl, nofun⟩⟩

theorem waitpid_delivers (target ptr options : BitVec 64) :
    Delivers w (.waitpid pid target ptr options)
      (w.waitpid t target ptr options).1
      (w.waitpid t target ptr options).2 := by
  unfold World.waitpid
  split
  case isTrue =>
    refine ⟨⟨nofun, ?_⟩, nofun, .inl ⟨rfl, nofun⟩⟩
    rintro ⟨_, _, ⟨⟩, _⟩
  split
  case isTrue =>
    refine ⟨⟨nofun, ?_⟩, fun _ => ⟨rfl, _, _, _, _, rfl⟩, .inl ⟨rfl, nofun⟩⟩
    rintro ⟨_, _, ⟨⟩, _⟩
  exact .silent rfl nofun

theorem Inv.delivers (inv : Inv w) {event : Event} {reply : Option Reply}
    (result : w.perform event = some (later, reply)) : Delivers w event later reply := by
  cases event with
  | memory event =>
    obtain ⟨spares, result⟩ := Option.ite_none_right_eq_some.mp result
    obtain ⟨sys, performed, same⟩ := Option.map_eq_some_iff.mp result
    cases same
    exact .silent rfl nofun
  | takeId =>
    cases result
    exact .silent rfl nofun
  | spawn parent path space =>
    obtain ⟨⟨-, alive⟩, result⟩ := Option.ite_none_right_eq_some.mp result
    cases result
    exact .silent rfl nofun
  | exit pid cause =>
    obtain ⟨t, found, result⟩ := Option.bind_eq_some_iff.mp result
    obtain ⟨user, result⟩ := Option.ite_none_right_eq_some.mp result
    cases result
    exact .silent rfl nofun
  | waitpid pid target ptr options =>
    obtain ⟨t, found, result⟩ := Option.bind_eq_some_iff.mp result
    obtain ⟨user, result⟩ := Option.ite_none_right_eq_some.mp result
    have waits := @waitpid_delivers w t pid target ptr options
    rw [Option.some.inj result] at waits
    exact waits
  | poll pid =>
    obtain ⟨t, found, result⟩ := Option.bind_eq_some_iff.mp result
    cases doing : t.doing with
    | waiting target ptr options =>
      rw [doing] at result
      exact inv.poll_delivers found doing result
    | user | reaped =>
      rw [doing] at result
      cases result
  | deliver pid =>
    obtain ⟨t, found, performed⟩ := Option.bind_eq_some_iff.mp result
    obtain ⟨-, rfl⟩ := task_found found
    cases doing : t.doing with
    | reaped ptr child status =>
      rw [doing] at performed
      obtain ⟨after, delivered, -, log, reads⟩ := inv.deliver found doing
      cases delivered.symm.trans (Option.some.inj performed)
      refine ⟨⟨nofun, ?_⟩, nofun, .inr ⟨t, ptr, ⟨t.pid, child, status⟩, rfl,
        found, doing, rfl, log, rfl, reads⟩⟩
      rintro ⟨_, _, ⟨⟩, _⟩
    | user | waiting =>
      rw [doing] at performed
      cases performed

end

/-- Exit statuses are delivered once and only to the parent.  In every state
any interleaving reaches, the table holds one record per pid, a child has one
parent and exits once, and what calls of `sys_waitpid` returned are exit codes
of the caller's own children, each child's once; and every event keeps to
`Delivers`. -/
theorem exit_statuses_delivered_once {map : Physical.MemoryMap} {w : World}
    (reached : Reachable map w) :
    (w.procs.map Record.pid).Nodup ∧
    (w.spawned.map Prod.snd).Nodup ∧ (w.exited.map Prod.fst).Nodup ∧
    (w.returned.map Delivery.child).Nodup ∧
    (∀ d ∈ w.returned, (d.waiter, d.child) ∈ w.spawned ∧
      (d.child, d.status) ∈ w.exited ∧ 0 ≤ d.status ∧ d.status < 256) ∧
    (∀ pid target, w.Waits pid target → (w.perform (.poll pid)).isSome) ∧
    ∀ event later reply, w.perform event = some (later, reply) →
      Delivers w event later reply := by
  have inv := reached.inv
  have books := inv.books
  have taken : ∀ d ∈ w.returned, d ∈ w.taken := fun d member =>
    inv.returned.mem_iff.mpr (List.mem_append_left _ member)
  refine ⟨books.pids, books.children, books.exits, ?_, ?_, ?_, ?_⟩
  · have nodup := (inv.returned.map Delivery.child).nodup_iff.mp books.once
    rw [List.map_append] at nodup
    exact nodup.of_append_left
  · intro d member
    obtain ⟨spawned, exited, -⟩ := books.taken d (taken d member)
    exact ⟨spawned, exited, books.codes _ exited⟩
  · rintro pid target ⟨t, ptr, options, found, doing⟩
    obtain ⟨answer, rest, takes, -⟩ :=
      takeChildExitStatus_takes w.procs t.pid target
    simp [World.perform, found, doing, World.poll, takes]
  · intro event later reply result
    exact inv.delivers result

/-- The boot thread spawns `/init`, which spawns a program, waits for it and
gets its status. -/
theorem sample_status_delivered :
    ∃ w : World, Reachable Physical.sampleMap w ∧
      w.returned = [⟨2, 3, 7⟩] ∧ (w.procs.map Record.pid).Nodup ∧
      ∀ d ∈ w.returned, (d.waiter, d.child) ∈ w.spawned := by
  have evaluated : ((Spaces.sampleStart.bind fun start =>
      [Spaces.Event.create, .create].foldlM Spaces.System.perform start).map
        Spaces.System.spaces) = some [0x106000, 0x105000] := by
    decide +kernel
  obtain ⟨sys, ran, spaces⟩ := Option.map_eq_some_iff.mp evaluated
  have start : Reachable Physical.sampleMap ⟨sys, [], [], 2, [], [], [], []⟩ :=
    Lib.Reachable.start ⟨Spaces.sample_reachable ran, Nat.two_pos, rfl, rfl, rfl, rfl, rfl, rfl⟩
  have alive : ∀ space ∈ [0x106000#64, 0x105000#64], sys.Alive space := by
    intro space member
    rw [Spaces.System.Alive, spaces]
    exact member
  have init := start.next ⟨.spawn 0 "/init" 0x106000, none,
    if_pos ⟨.inl rfl, alive _ (by decide)⟩⟩
  have child := init.next ⟨.spawn 2 "/bin/true" 0x105000, none,
    if_pos ⟨.inr ⟨_, List.mem_cons_self, rfl, rfl⟩, alive _ (by decide)⟩⟩
  have waits := child.next ⟨.waitpid 2 0 0 0, none, rfl⟩
  have polls := waits.next ⟨.poll 2, none, rfl⟩
  have exits := polls.next ⟨.exit 3 (.exit 7), none, rfl⟩
  have takes := exits.next ⟨.poll 2, none, rfl⟩
  have returns := takes.next ⟨.deliver 2, some (.ok 3), rfl⟩
  obtain ⟨nodup, -, -, -, sound, -⟩ := exit_statuses_delivered_once returns
  exact ⟨_, returns, rfl, nodup, fun d member => (sound d member).1⟩

/-- No exit status is lost: until it is taken the table has it for the parent,
whose wait for that child neither fails nor blocks. -/
theorem exit_status_never_lost {map : Physical.MemoryMap} {w : World} (reached : Reachable map w)
    {parent child : Nat} {code : Int} (spawned : (parent, child) ∈ w.spawned)
    (exited : (child, code) ∈ w.exited) (untaken : child ∉ w.taken.map Delivery.child) :
    (∃ name, ⟨child, parent, name, some code⟩ ∈ w.procs) ∧
      ∀ target, wanted target child = true → ∃ got rest,
        takeChildExitStatus w.procs parent target = some (.ok (some got), rest) := by
  have books := reached.inv.books
  obtain ⟨r, member, rfl⟩ :=
    List.mem_map.mp (books.kept child (List.mem_map_of_mem spawned) untaken)
  cases List.inj_on_of_nodup_map books.children (books.parent r member) spawned rfl
  have ended := (books.status r member code).mpr exited
  refine ⟨⟨r.name, ended ▸ member⟩, fun target asked => ?_⟩
  have child : r.isChild r.parent target = true := by simp [Record.isChild, asked]
  obtain ⟨result, rest, takes, outcome⟩ := takeChildExitStatus_takes w.procs r.parent target
  cases outcome with
  | noChild others =>
    rw [others r member] at child
    cases child
  | running _ alive =>
    rw [alive r member child] at ended
    cases ended
  | exited => exact ⟨_, rest, takes⟩

theorem sample_status_kept :
    ∃ w : World, Reachable Physical.sampleMap w ∧ ∃ name, ⟨2, 0, name, some 7⟩ ∈ w.procs := by
  have evaluated : ((Spaces.sampleStart.bind fun start =>
      [Spaces.Event.create].foldlM Spaces.System.perform start).map
        Spaces.System.spaces) = some [0x105000] := by decide +kernel
  obtain ⟨sys, ran, spaces⟩ := Option.map_eq_some_iff.mp evaluated
  have start : Reachable Physical.sampleMap ⟨sys, [], [], 2, [], [], [], []⟩ :=
    Lib.Reachable.start ⟨Spaces.sample_reachable ran, Nat.two_pos, rfl, rfl, rfl, rfl, rfl, rfl⟩
  have alive : sys.Alive 0x105000 := by simp [Spaces.System.Alive, spaces]
  have init := start.next ⟨.spawn 0 "/init" 0x105000, none, if_pos ⟨.inl rfl, alive⟩⟩
  have exits := init.next ⟨.exit 2 (.exit 7), none, rfl⟩
  exact ⟨_, exits, (exit_status_never_lost exits List.mem_cons_self
    List.mem_cons_self List.not_mem_nil).1⟩

end Eonos.Process
