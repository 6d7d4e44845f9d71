import Eonos.Lib.Prog
import Eonos.Elf.Model
import Eonos.Spaces.Model

/-!
# Starting a process

`build_stack` of `process.rs` maps the user stack and lays out the arguments
and the environment in its topmost page; `spawn_with` calls it between loading
the program and creating the thread.  Every `None` is an error, and a failed
assertion panics.
-/

namespace Eonos.Process

open Eonos.Vmm
open Eonos.Elf
open Eonos.Spaces
open Eonos.Lib

/-- One past the highest byte of the user stack. -/
def userStackTop : Nat := 0x7ffffffff000

def userStackPages : Nat := 16

/-- `page_base`: the topmost page of the stack. -/
def pageBase : Nat := userStackTop - pageSize

abbrev Build := Prog Machine Unit

/-- `pmm::alloc_frame_zeroed()?`. -/
def takeFrame : Build (BitVec 64) := do
  let m ← Prog.get
  let (phys, later) ← Prog.okOr () m.allocFrameZeroed
  Prog.modify fun _ => later
  return phys

/-- `aspace.map`. -/
def mapUser (pml4 virt phys flags : BitVec 64) : Build Unit := do
  let m ← Prog.get
  let s ← Prog.unwrap (AddressSpace.map m.view pml4 virt phys flags)
  Prog.modify fun _ => m.after s

/-- The address of stack page `i`, counted from the top. -/
def stackPage (i : Nat) : BitVec 64 :=
  BitVec.ofNat 64 (userStackTop - (i + 1) * pageSize)

/-- One round of the mapping loop; the first one finds the top frame. -/
def mapStackPage (pml4 topFrame : BitVec 64) (i : Nat) :
    Build (BitVec 64) := do
  let phys ← takeFrame
  mapUser pml4 (stackPage i) phys userRw
  return if i = 0 then phys else topFrame

def mapStack (pml4 : BitVec 64) : Build (BitVec 64) :=
  (List.range userStackPages).foldlM (mapStackPage pml4) 0

/-- The closure `write`: bytes at `virt`, in the topmost page. -/
def write (topFrame : BitVec 64) (virt : Nat) (bytes : List UInt8) :
    Build Unit := do
  let off ← Prog.unwrap
    (if pageBase ≤ virt ∧ virt - pageBase + bytes.length ≤ pageSize then
      some (virt - pageBase)
    else none)
  Prog.modify fun m =>
    { m with
      mem := copyBytes m.mem (topFrame.toNat + off) (bytes.getD · 0)
        bytes.length }

/-- `u64::checked_sub`. -/
def checkedSub (a b : Nat) : Option Nat := if b ≤ a then some (a - b) else none

/-- One string, below the cursor; its address goes to the pointers. -/
def pushString (topFrame : BitVec 64) (bytes : List UInt8)
    (state : Nat × List Nat) : Build (Nat × List Nat) := do
  Prog.require (bytes.length ≤ 255) ()
  let cursor ← Prog.okOr () (checkedSub state.1 (bytes.length + 1))
  Prog.require (pageBase ≤ cursor) ()
  write topFrame cursor bytes
  return (cursor, state.2 ++ [cursor])

/-- The strings of one vector, the last one first. -/
def pushStrings (topFrame : BitVec 64) (cursor : Nat)
    (values : List (List UInt8)) : Build (Nat × List Nat) := do
  let (cursor, ptrs) ←
    values.foldrM (pushString topFrame) (cursor, [])
  return (cursor, ptrs.reverse)

/-- Words `i` and following, at `sp + i * 8`. -/
def writeWords (topFrame : BitVec 64) (sp : Nat) : Nat → List Nat → Build Unit
  | _, [] => return ()
  | i, word :: rest => do
      write topFrame (sp + i * 8) (toLeBytes word 8)
      writeWords topFrame sp (i + 1) rest

/-- What a process finds at its stack pointer. -/
def stackWords (argc : Nat) (argvPtrs envPtrs : List Nat) : List Nat :=
  [argc] ++ argvPtrs ++ [0] ++ envPtrs ++ [0, 0, 0]

/-- The part of `build_stack` behind the mapping loop. -/
def layStack (topFrame : BitVec 64) (argv env : List (List UInt8)) :
    Build Nat := do
  let (cursor, argvPtrs) ← pushStrings topFrame userStackTop argv
  let (cursor, envPtrs) ← pushStrings topFrame cursor env
  let words := stackWords argv.length argvPtrs envPtrs
  let below ← Prog.okOr () (checkedSub cursor (words.length * 8))
  let sp := below / 16 * 16
  Prog.require (pageBase ≤ sp) ()
  writeWords topFrame sp 0 words
  return sp

def buildStack (pml4 : BitVec 64) (argv env : List (List UInt8)) :
    Build Nat := do
  let topFrame ← mapStack pml4
  layStack topFrame argv env

/-! ### Starting -/

inductive SpawnError where
  | noMemory
  | elf (e : ElfError)
deriving DecidableEq, Repr

/-- The part of `spawn_with` that takes memory: a new address space, the
program, its entry point and its stack pointer.  Where a step fails the address
space is dropped. -/
def prepare (kernel : BitVec 64) (image : List UInt8) (argv env : List (List UInt8)) (m : Machine) :
    Option (Except SpawnError (BitVec 64 × Nat × Nat) × Machine) :=
  match m.createAddressSpace kernel with
  | none => some (.error .noMemory, m)
  | some (aspace, m) =>
    (load image aspace m).bind fun loaded =>
      match loaded with
      | (.error e, m) => some (.error (.elf e), m.dropSpace aspace)
      | (.ok entry, m) =>
        ((buildStack aspace argv env).exec m).map fun built =>
          match built with
          | (.error _, m) => (.error .noMemory, m.dropSpace aspace)
          | (.ok rsp, m) => (.ok (aspace, entry, rsp), m)

end Eonos.Process
