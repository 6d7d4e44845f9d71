import Eonos.Lib.Reachable
import Eonos.Lib.Vectors
import Eonos.Elf.Model
import Eonos.Spaces.UserMemory
import Eonos.Terminal.SysRead

/-!
# Processes and their exit statuses

The process table of `process.rs` and the calls that work on it: `spawn_with`,
`exit_current` and `sys_waitpid`.  An event below is one section of the source
that runs under the lock of the table, so a run may interleave the sections of
all processes in any order.  Memory belongs to the state because the status is
copied to it after it has left the table.
-/

namespace Eonos.Process

open Eonos.Vmm

structure Record where
  pid : Nat
  parent : Nat
  name : String
  /-- None while the process runs. -/
  status : Option Int
deriving DecidableEq, Repr

def register (procs : List Record) (pid parent : Nat) (name : String) : List Record :=
  match procs.find? fun r => r.pid == pid with
  | some _ =>
    Lib.updateFirst (fun r => r.pid == pid)
      (fun r => { r with parent, name }) procs
  | none => procs ++ [⟨pid, parent, name, none⟩]

/-- `exit_current`, under the lock of the table. -/
def exitCurrent (procs : List Record) (pid : Nat) (code : Int) : List Record :=
  match procs.find? fun r => r.pid == pid with
  | some _ =>
    Lib.updateFirst (fun r => r.pid == pid)
      (fun r => { r with status := some code }) procs
  | none => procs ++ [⟨pid, 0, "", some code⟩]

/-- `any || r.pid == pid`. -/
def wanted (target : BitVec 64) (pid : Nat) : Bool :=
  target == -1#64 || target == 0#64 || pid == target.toNat

def Record.isChild (parent : Nat) (target : BitVec 64) (r : Record) : Bool :=
  r.parent == parent && wanted target r.pid

/-- There is no result where `swap_remove` or `unwrap` would panic. -/
def takeChildExitStatus (procs : List Record) (parent : Nat) (target : BitVec 64) :
    Option (Except Unit (Option (Nat × Int)) × List Record) :=
  if !procs.any (Record.isChild parent target) then
    some (.error (), procs)
  else
    match procs.findIdx? fun r => r.isChild parent target && r.status.isSome with
    | none => some (.ok none, procs)
    | some i => do
        let (record, rest) ← Lib.swapRemove procs i
        let status ← record.status
        return (.ok (some (record.pid, status)), rest)

/-- What ends a process. -/
inductive Cause where
  /-- `sys_exit`, with the value of `rdi`. -/
  | exit (rdi : BitVec 64)
  /-- `sys_kill` of itself with 9 or 15. -/
  | kill (hard : Bool)
  /-- An exception in user mode. -/
  | fault (vector : Fin 32)
deriving DecidableEq, Repr

/-- What `exit_current` is called with. -/
def Cause.code : Cause → Int
  | .exit rdi => (rdi &&& 0xff#64).toNat
  | .kill hard => 128 + if hard then 9 else 15
  | .fault vector => if vector.val = 14 then 139 else 128 + vector.val

/-- `(status as i32).to_ne_bytes()`. -/
def statusBytes (status : Int) : List UInt8 :=
  Elf.toLeBytes (BitVec.ofInt 32 status).toNat 4

/-! ### The system -/

/-- What a process is in the middle of. -/
inductive Doing where
  /-- Nothing in this module. -/
  | user
  /-- The loop of `sys_waitpid`. -/
  | waiting (target statusPtr options : BitVec 64)
  /-- `sys_waitpid` has a status and is about to copy it out. -/
  | reaped (statusPtr : BitVec 64) (child : Nat) (status : Int)
deriving DecidableEq, Repr

/-- A process that runs. -/
structure Task where
  pid : Nat
  space : BitVec 64
  doing : Doing
deriving DecidableEq, Repr

/-- A status on its way from a child to a process that waits. -/
structure Delivery where
  waiter : Nat
  child : Nat
  status : Int
deriving DecidableEq, Repr

structure World where
  sys : Spaces.System
  /-- `PROCS`. -/
  procs : List Record
  alive : List Task
  /-- The scheduler's next thread id. -/
  nextId : Nat
  /-- Logs, which no operation reads: who spawned whom, who exited with what,
  what left the table and what a call returned. -/
  spawned : List (Nat × Nat)
  exited : List (Nat × Int)
  taken : List Delivery
  returned : List Delivery

inductive Event where
  /-- Anything that happens to memory or page tables. -/
  | memory (event : Spaces.Event)
  /-- An id goes to another thread, or to one that could not be made. -/
  | takeId
  /-- The last section of `spawn_with`, interrupts off: the thread gets its id
  and the process its record. -/
  | spawn (parent : Nat) (path : String) (space : BitVec 64)
  | exit (pid : Nat) (cause : Cause)
  /-- `sys_waitpid` up to its loop. -/
  | waitpid (pid : Nat) (target statusPtr options : BitVec 64)
  /-- One round of the loop, up to the copy. -/
  | poll (pid : Nat)
  /-- The copy of the status, and the return. -/
  | deliver (pid : Nat)

def EINVAL : Nat := 22
def ECHILD : Nat := 10
def EFAULT : Nat := 14

def WNOHANG : BitVec 64 := 1

/-- What a call returns: an error number or a value. -/
abbrev Reply := Except Nat Nat

namespace World

variable (w : World)

def task (pid : Nat) : Option Task :=
  w.alive.find? fun t => t.pid == pid

def setDoing (pid : Nat) (doing : Doing) : World :=
  { w with
    alive := Lib.updateFirst (fun t => t.pid == pid)
      (fun t => { t with doing }) w.alive }

/-- Who may spawn: the boot thread, and a process in a system call. -/
def CanSpawn (parent : Nat) : Prop :=
  parent = 0 ∨ ∃ t ∈ w.alive, t.pid = parent ∧ t.doing = .user

instance (parent : Nat) : Decidable (w.CanSpawn parent) :=
  inferInstanceAs (Decidable (_ ∨ _))

/-- Memory work leaves the address spaces of running processes alone: they are
built before the process runs and dropped after it has exited. -/
def Spares (event : Spaces.Event) : Prop :=
  ∀ t ∈ w.alive, ¬ event.Concerns t.space

instance (event : Spaces.Event) : Decidable (w.Spares event) :=
  inferInstanceAs (Decidable (∀ t ∈ w.alive, _))

def spawn (parent : Nat) (path : String) (space : BitVec 64) : World :=
  { w with
    nextId := w.nextId + 1
    procs := register w.procs w.nextId parent path
    alive := ⟨w.nextId, space, .user⟩ :: w.alive
    spawned := (parent, w.nextId) :: w.spawned }

def exit (t : Task) (cause : Cause) : World :=
  { w with
    procs := exitCurrent w.procs t.pid cause.code
    alive := w.alive.filter fun other => other.pid != t.pid
    exited := (t.pid, cause.code) :: w.exited }

/-- `sys_waitpid` up to its loop. -/
def waitpid (t : Task) (target statusPtr options : BitVec 64) : World × Option Reply :=
  if options &&& ~~~WNOHANG ≠ 0 then (w, some (.error EINVAL))
  else if statusPtr ≠ 0 ∧
      !validateUserRange w.sys.machine.mem t.space statusPtr 4 true then
    (w, some (.error EFAULT))
  else (w.setDoing t.pid (.waiting target statusPtr options), none)

def poll (t : Task) (target statusPtr options : BitVec 64) : Option (World × Option Reply) :=
  (takeChildExitStatus w.procs t.pid target).map fun result =>
    match result with
    | (.error (), _) => (w.setDoing t.pid .user, some (.error ECHILD))
    | (.ok (some (child, status)), procs) =>
      ({ w with
          procs
          taken := ⟨t.pid, child, status⟩ :: w.taken }.setDoing t.pid
        (.reaped statusPtr child status), none)
    | (.ok none, _) =>
      if options &&& WNOHANG ≠ 0 then
        (w.setDoing t.pid .user, some (.ok 0))
      else (w, none)

/-- The process's own page tables are in `cr3` during its calls. -/
def deliver (t : Task) (statusPtr : BitVec 64) (child : Nat)
    (status : Int) : World × Option Reply :=
  if statusPtr = 0 then
    ({ w with returned := ⟨t.pid, child, status⟩ :: w.returned }.setDoing
      t.pid .user, some (.ok child))
  else
    match copyToUser w.sys.machine.mem t.space statusPtr
        (statusBytes status) with
    | (false, mem) =>
      ({ w with sys := w.sys.fill mem }.setDoing t.pid .user,
        some (.error EFAULT))
    | (true, mem) =>
      ({ w with
          sys := w.sys.fill mem
          returned := ⟨t.pid, child, status⟩ :: w.returned }.setDoing
        t.pid .user, some (.ok child))

/-- One event, and what a system call that ends with it returns.  There is no
next state where the source panics, and for events that cannot come up. -/
def perform : Event → Option (World × Option Reply)
  | .memory event =>
    if w.Spares event then
      (w.sys.perform event).map fun sys => ({ w with sys }, none)
    else none
  | .takeId => some ({ w with nextId := w.nextId + 1 }, none)
  | .spawn parent path space =>
    if w.CanSpawn parent ∧ w.sys.Alive space then
      some (w.spawn parent path space, none)
    else none
  | .exit pid cause =>
    (w.task pid).bind fun t =>
      if t.doing = .user then some (w.exit t cause, none) else none
  | .waitpid pid target statusPtr options =>
    (w.task pid).bind fun t =>
      if t.doing = .user then some (w.waitpid t target statusPtr options)
      else none
  | .poll pid =>
    (w.task pid).bind fun t =>
      match t.doing with
      | .waiting target statusPtr options =>
        w.poll t target statusPtr options
      | _ => none
  | .deliver pid =>
    (w.task pid).bind fun t =>
      match t.doing with
      | .reaped statusPtr child status =>
        some (w.deliver t statusPtr child status)
      | _ => none

end World

/-- The world before `/init` is spawned. -/
def Initial (map : Physical.MemoryMap) (w : World) : Prop :=
  Spaces.Reachable map w.sys ∧ 0 < w.nextId ∧ w.procs = [] ∧ w.alive = [] ∧
    w.spawned = [] ∧ w.exited = [] ∧ w.taken = [] ∧ w.returned = []

def Reachable (map : Physical.MemoryMap) : World → Prop :=
  Lib.Reachable (Initial map) fun w later =>
    ∃ event reply, w.perform event = some (later, reply)

end Eonos.Process
