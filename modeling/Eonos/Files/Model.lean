import Eonos.Lib.Reachable
import Eonos.Lib.Vectors
import Eonos.Terminal.SysRead

/-!
# File descriptors

The descriptor table of `syscall.rs` and the calls that work on it.  A call
runs in sections: what it does under one lock, or in one call of the file
system, is one event, and between two events of a process any other process may
run.  The file systems are a parameter; what user memory holds, and whether it
can be read or written, comes with the request.
-/

namespace Eonos.Files

open Eonos.Terminal (FdKind OpenFile FsError errno fsErrno maxWrite EBADF
  EFAULT)

/-- The file system calls, each of which runs under one lock. -/
structure Vfs (FS : Type) where
  fileSize : FS → String → Except FsError Nat × FS
  createFile : FS → String → Except FsError Unit × FS
  truncate : FS → String → Except FsError Unit × FS
  /-- The bytes read; the last argument is the length of the buffer. -/
  readAt : FS → String → Nat → Nat → Except FsError (List UInt8) × FS
  writeAt : FS → String → Nat → List UInt8 → Except FsError Nat × FS

def ENOENT : Nat := 2
def EINVAL : Nat := 22
def ENAMETOOLONG : Nat := 36

def O_WRONLY : BitVec 64 := 1
def O_RDWR : BitVec 64 := 2
def O_CREAT : BitVec 64 := 0x40
def O_TRUNC : BitVec 64 := 0x200
def O_APPEND : BitVec 64 := 0x400

def maxName : Nat := 255

/-! ### The table -/

def isFd (pid fd : BitVec 64) (file : OpenFile) : Bool :=
  file.pid == pid && file.fd == fd

/-- More elements than this no vector can hold: `push` panics. -/
def vecLimit : Nat := 2 ^ 63 - 1

def push (files : List OpenFile) (file : OpenFile) : Option (List OpenFile) :=
  if files.length < vecLimit then some (files ++ [file]) else none

/-- `(3..).find(..)`: among one more number than there are descriptors one is
free. -/
def nextFd (files : List OpenFile) (pid : BitVec 64) : BitVec 64 :=
  (((List.range (files.length + 1)).map fun i => BitVec.ofNat 64 (3 + i)).find?
    fun fd => !files.any (isFd pid fd)).getD 3

def initProcessFiles (files : List OpenFile) (pid : BitVec 64) : Option (List OpenFile) :=
  [((0 : BitVec 64), FdKind.stdin, true, false), (1, .stdout, false, true),
    (2, .stderr, false, true)].foldlM
    (fun files stream => push files
      ⟨pid, stream.1, stream.2.1, "", 0, stream.2.2.1, stream.2.2.2, false⟩)
    (files.filter fun file => file.pid != pid)

def closeProcessFiles (files : List OpenFile) (pid : BitVec 64) : List OpenFile :=
  files.filter fun file => file.pid != pid

/-! ### Calls -/

/-- A system call, with what it finds in user memory. -/
inductive Request where
  | open (flags pathLen : BitVec 64) (copies : Bool) (bytes : Nat → UInt8)
  | close (fd : BitVec 64)
  /-- `line` is what the terminal will supply. -/
  | read (fd len : BitVec 64) (valid copies : Bool) (random : Nat → UInt8)
      (line : List UInt8)
  | write (fd len : BitVec 64) (copies : Bool) (bytes : Nat → UInt8)

/-- Where a process is in its call. -/
inductive Call where
  | idle
  /-- `sys_open` before each of its file system calls, and before the table. -/
  | looking (path : String) (flags : BitVec 64)
  | creating (path : String) (flags : BitVec 64)
  | truncating (path : String) (flags : BitVec 64) (size : Nat)
  | installing (path : String) (flags : BitVec 64) (size : Nat)
  /-- `sys_read` on the terminal. -/
  | onTerminal (copies : Bool) (line : List UInt8)
  /-- `sys_read` and `sys_write` before they take the lock again. -/
  | reading (fd : BitVec 64) (n : Nat) (copies : Bool)
  | writing (fd : BitVec 64) (path : String) (offset : Nat) (append : Bool)
      (data : List UInt8)
deriving DecidableEq, Repr

/-- What a call returns, and what it has copied to user memory. -/
structure Reply where
  rax : BitVec 64
  bytes : List UInt8
deriving DecidableEq, Repr

/-- How a section ends. -/
inductive Outcome where
  | returns (reply : Reply)
  | goesOn (call : Call)
deriving DecidableEq, Repr

def Outcome.error (e : Nat) : Outcome := .returns ⟨errno e, []⟩

def Outcome.fsError (e : FsError) : Outcome := .returns ⟨fsErrno e, []⟩

def Outcome.value (n : Nat) : Outcome := .returns ⟨BitVec.ofNat 64 n, []⟩

/-- `copy_to_user` of what was read. -/
def Outcome.deliver (copies : Bool) (bytes : List UInt8) : Outcome :=
  if copies then .returns ⟨BitVec.ofNat 64 bytes.length, bytes⟩
  else .error EFAULT

def badFlags (flags : BitVec 64) : Prop :=
  flags &&& ~~~(O_WRONLY ||| O_RDWR ||| O_CREAT ||| O_TRUNC ||| O_APPEND) ≠ 0 ∨
    flags &&& 3 = O_WRONLY ||| O_RDWR ∨
    flags &&& (O_TRUNC ||| O_APPEND) ≠ 0 ∧ flags &&& 3 = 0

instance (flags : BitVec 64) : Decidable (badFlags flags) :=
  inferInstanceAs (Decidable (_ ∨ _))

def canRead (flags : BitVec 64) : Bool :=
  flags &&& 3 == 0 || flags &&& 3 == O_RDWR

def canWrite (flags : BitVec 64) : Bool :=
  flags &&& 3 == O_WRONLY || flags &&& 3 == O_RDWR

def device (path : String) : Option FdKind :=
  if path = "/device/console" then some .console
  else if path = "/device/null" then some .null
  else if path = "/device/zero" then some .zero
  else if path = "/device/urandom" then some .urandom
  else none

structure World (FS : Type) where
  /-- `OPEN_FILES`. -/
  files : List OpenFile
  fs : FS
  calls : BitVec 64 → Call

section

variable {FS : Type}

namespace World

variable (w : World FS)

/-- A new descriptor for `pid`; the number is chosen under the same lock. -/
def install (pid : BitVec 64) (kind : FdKind) (path : String) (offset : Nat)
    (flags : BitVec 64) (append : Bool) : Option (World FS × Outcome) :=
  let fd := nextFd w.files pid
  (push w.files
    ⟨pid, fd, kind, path, offset, canRead flags, canWrite flags, append⟩).map
    fun files => ({ w with files }, .returns ⟨fd, []⟩)

def sysOpen (pid flags pathLen : BitVec 64) (copies : Bool)
    (bytes : Nat → UInt8) : Option (World FS × Outcome) :=
  if badFlags flags then some (w, .error EINVAL)
  else if maxName < pathLen.toNat then some (w, .error ENAMETOOLONG)
  else if !copies then some (w, .error EFAULT)
  else
    match String.fromUTF8?
        ((List.range pathLen.toNat).map bytes).toByteArray with
    | none => some (w, .error ENOENT)
    | some path =>
      match device path with
      | some kind =>
        if flags &&& (O_CREAT ||| O_TRUNC ||| O_APPEND) ≠ 0 then
          some (w, .error EINVAL)
        else w.install pid kind "" 0 flags false
      | none => some (w, .goesOn (.looking path flags))

def sysClose (pid fd : BitVec 64) : Option (World FS × Outcome) :=
  match w.files.findIdx? (isFd pid fd) with
  | some i =>
    (Lib.swapRemove w.files i).map fun result =>
      ({ w with files := result.2 }, .value 0)
  | none => some (w, .error EBADF)

def sysRead (pid fd len : BitVec 64) (valid copies : Bool)
    (random : Nat → UInt8) (line : List UInt8) : World FS × Outcome :=
  let n := min len.toNat maxWrite
  if n = 0 then (w, .value 0)
  else
    match w.files.find? (isFd pid fd) with
    | none => (w, .error EBADF)
    | some file =>
      if !file.readable then (w, .error EBADF)
      else if !valid then (w, .error EFAULT)
      else
        match file.kind with
        | .null => (w, .value 0)
        | .zero => (w, .deliver copies (List.replicate n 0))
        | .urandom => (w, .deliver copies ((List.range n).map random))
        | .stdin | .console => (w, .goesOn (.onTerminal copies line))
        | .stdout | .stderr => (w, .error EBADF)
        | .file => (w, .goesOn (.reading fd n copies))

def sysWrite (pid fd len : BitVec 64) (copies : Bool) (bytes : Nat → UInt8) : World FS × Outcome :=
  let n := min len.toNat maxWrite
  if n = 0 then (w, .value 0)
  else
    match w.files.find? (isFd pid fd) with
    | none => (w, .error EBADF)
    | some file =>
      if !file.writable then (w, .error EBADF)
      else if !copies then (w, .error EFAULT)
      else
        match file.kind with
        | .stdout | .stderr | .console | .null | .zero | .urandom =>
          (w, .value n)
        | .stdin => (w, .error EBADF)
        | .file =>
          (w, .goesOn (.writing fd file.path file.offset file.append
            ((List.range n).map bytes)))

/-- The first section of a call. -/
def begin (pid : BitVec 64) : Request → Option (World FS × Outcome)
  | .open flags pathLen copies bytes => w.sysOpen pid flags pathLen copies bytes
  | .close fd => w.sysClose pid fd
  | .read fd len valid copies random line =>
    some (w.sysRead pid fd len valid copies random line)
  | .write fd len copies bytes => some (w.sysWrite pid fd len copies bytes)

/-- `sys_open` once it knows the size. -/
def sized (path : String) (flags : BitVec 64) (size : Nat) : Outcome :=
  if flags &&& O_TRUNC ≠ 0 then .goesOn (.truncating path flags size)
  else .goesOn (.installing path flags size)

variable (vfs : Vfs FS)

def setOffset (pid fd : BitVec 64) (offset : Nat) : List OpenFile :=
  Lib.updateFirst (isFd pid fd) (fun file => { file with offset }) w.files

/-- The second section of `sys_read` on a file.  There is no result where the
slice of the buffer would panic. -/
def finishRead (pid fd : BitVec 64) (n : Nat) (copies : Bool) : Option (World FS × Outcome) :=
  match w.files.find? (isFd pid fd) with
  | none => some (w, .error EBADF)
  | some file =>
    match vfs.readAt w.fs file.path file.offset n with
    | (.error error, fs) => some ({ w with fs }, .fsError error)
    | (.ok data, fs) =>
      if n < data.length then none
      else if !copies then some ({ w with fs }, .error EFAULT)
      else some ({ w with
        fs, files := w.setOffset pid fd (file.offset + data.length) },
        .deliver true data)

/-- The second section of `sys_write` on a file: the size for an append and
the write happen under one lock. -/
def finishWrite (pid fd : BitVec 64) (path : String) (offset : Nat)
    (append : Bool) (data : List UInt8) : World FS × Outcome :=
  match w.files.find? (isFd pid fd) with
  | none => (w, .error EBADF)
  | some _ =>
    let (start, fs) :=
      if append then vfs.fileSize w.fs path else (.ok offset, w.fs)
    match start with
    | .error error => ({ w with fs }, .fsError error)
    | .ok offset =>
      match vfs.writeAt fs path offset data with
      | (.error error, fs) => ({ w with fs }, .fsError error)
      | (.ok written, fs) =>
        ({ w with fs, files := w.setOffset pid fd (offset + written) },
          .value written)

/-- The next section of a call. -/
def goOn (pid : BitVec 64) : Call → Option (World FS × Outcome)
  | .idle => none
  | .looking path flags =>
    match vfs.fileSize w.fs path with
    | (.ok size, fs) => some ({ w with fs }, sized path flags size)
    | (.error _, fs) =>
      if flags &&& O_CREAT ≠ 0 then
        some ({ w with fs }, .goesOn (.creating path flags))
      else some ({ w with fs }, .error ENOENT)
  | .creating path flags =>
    match vfs.createFile w.fs path with
    | (.ok (), fs) => some ({ w with fs }, sized path flags 0)
    | (.error error, fs) => some ({ w with fs }, .fsError error)
  | .truncating path flags size =>
    match vfs.truncate w.fs path with
    | (.ok (), fs) => some ({ w with fs }, .goesOn (.installing path flags size))
    | (.error error, fs) => some ({ w with fs }, .fsError error)
  | .installing path flags size =>
    let offset :=
      if flags &&& O_APPEND ≠ 0 ∧ flags &&& O_TRUNC = 0 then size else 0
    w.install pid .file path offset flags (flags &&& O_APPEND != 0)
  | .onTerminal copies line => some (w, .deliver copies line)
  | .reading fd n copies => w.finishRead vfs pid fd n copies
  | .writing fd path offset append data =>
    some (w.finishWrite vfs pid fd path offset append data)

/-- The process notes where it is, or returns. -/
def settle (pid : BitVec 64) (result : World FS × Outcome) : World FS × Option Reply :=
  match result.2 with
  | .returns reply =>
    ({ result.1 with calls := Function.update result.1.calls pid .idle },
      some reply)
  | .goesOn call =>
    ({ result.1 with calls := Function.update result.1.calls pid call }, none)

end World

inductive Event (FS : Type) where
  /-- `init_process_files`, for a process about to start. -/
  | init (pid : BitVec 64)
  /-- `close_process_files`, for a process that ends. -/
  | exit (pid : BitVec 64)
  | call (pid : BitVec 64) (request : Request)
  | goOn (pid : BitVec 64)
  /-- Whatever else happens to the file systems. -/
  | elsewhere (fs : FS)

def World.perform (vfs : Vfs FS) (w : World FS) :
    Event FS → Option (World FS × Option Reply)
  | .init pid =>
    (initProcessFiles w.files pid).map fun files => ({ w with files }, none)
  | .exit pid =>
    some ({ w with files := closeProcessFiles w.files pid }, none)
  | .call pid request =>
    if w.calls pid = .idle then (w.begin pid request).map (World.settle pid)
    else none
  | .goOn pid => (w.goOn vfs pid (w.calls pid)).map (World.settle pid)
  | .elsewhere fs => some ({ w with fs }, none)

/-- Before the first process. -/
def Initial (w : World FS) : Prop := w.files = [] ∧ ∀ pid, w.calls pid = .idle

def Reachable (vfs : Vfs FS) : World FS → Prop :=
  Lib.Reachable Initial fun w later =>
    ∃ event reply, w.perform vfs event = some (later, reply)

end

end Eonos.Files
