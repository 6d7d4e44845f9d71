import Eonos.Spaces.Machine

/-!
# Address spaces

`create_address_space`, the teardown of an address space, and the system they
run in: the kernel's own tables, the address spaces alive, and the callers'
frames.  What a space has taken and been given is recorded beside the state;
no operation reads the records.
-/

namespace Eonos.Spaces

open Eonos.Vmm

/-- `KERNEL_PML4_START`. -/
def kernelPml4Start : Nat := 256

namespace Machine

/-- `for i in KERNEL_PML4_START..ENTRIES { pml4[i] = kernel_pml4[i] }`. -/
def copyKernelHalf (m : Memory) (kernel pml4 : BitVec 64) : Memory :=
  ((List.finRange 512).filter fun i => kernelPml4Start ≤ i.val).foldl
    (fun m i => writeEntry m pml4 i (readEntry m kernel i)) m

def createAddressSpace (m : Machine) (kernel : BitVec 64) : Option (BitVec 64 × Machine) :=
  m.allocFrameZeroed.map fun result =>
    (result.1,
      { result.2 with
        mem := copyKernelHalf result.2.mem kernel result.1 })

end Machine

/-! ### Teardown

The calls of `free_frame` a teardown makes, in order.  Freeing writes no page
table, so the calls depend on the memory before the first of them. -/

def freePt (m : Memory) (phys : BitVec 64) : List (BitVec 64) :=
  (List.finRange 512).flatMap (fun i =>
    let e := readEntry m phys i
    if has e present then [e &&& addrMask] else []) ++ [phys]

def freePd (m : Memory) (phys : BitVec 64) : List (BitVec 64) :=
  (List.finRange 512).flatMap (fun i =>
    let e := readEntry m phys i
    if !has e present then []
    else if has e huge then [e &&& huge2mMask]
    else freePt m (e &&& addrMask)) ++ [phys]

def freePdpt (m : Memory) (phys : BitVec 64) : List (BitVec 64) :=
  (List.finRange 512).flatMap (fun i =>
    let e := readEntry m phys i
    if !has e present then []
    else if has e huge then [e &&& huge1gMask]
    else freePd m (e &&& addrMask)) ++ [phys]

def freeUserHalf (m : Memory) (pml4 : BitVec 64) : List (BitVec 64) :=
  ((List.finRange 512).filter fun i => i.val < kernelPml4Start).flatMap (fun i =>
    let e := readEntry m pml4 i
    if has e present then freePdpt m (e &&& addrMask) else []) ++ [pml4]

/-- `Drop for AddressSpace`. -/
def Machine.dropSpace (m : Machine) (pml4 : BitVec 64) : Machine :=
  (freeUserHalf m.mem pml4).foldl Machine.freeFrame m

/-- The contents of a frame replaced. -/
def overwrite (m : Memory) (frame : BitVec 64) (bytes : Nat → UInt8) : Memory :=
  fun b =>
    if frame.toNat ≤ b ∧ b < frame.toNat + pageSize then
      bytes (b - frame.toNat)
    else m b

/-! ### The system -/

structure System where
  machine : Machine
  /-- The PML4 `vmm::init` built. -/
  kernel : BitVec 64
  /-- The address spaces alive, by their PML4. -/
  spaces : List (BitVec 64)
  /-- Frames on loan that are in the callers' hands. -/
  held : List (BitVec 64)
  /-- The slots of the kernel's PML4 in use when a space was created. -/
  populated : BitVec 64 → Fin 512 → Bool
  /-- Every frame a space has taken for its page tables. -/
  tables : BitVec 64 → List (BitVec 64)
  /-- The frames mapped into a space and not unmapped since. -/
  mapped : BitVec 64 → List (BitVec 64)

inductive Event where
  | create
  | map (space virt phys flags : BitVec 64)
  | unmap (space virt : BitVec 64)
  | protect (space virt flags : BitVec 64)
  | drop (space : BitVec 64)
  | mapPage (virt phys flags : BitVec 64)
  | unmapPage (virt : BitVec 64)
  | protectPage (virt flags : BitVec 64)
  /-- A caller takes a frame from the allocator. -/
  | alloc
  /-- A caller takes a run of frames. -/
  | allocContiguous (count : Nat)
  /-- The memory of the bootloader becomes free. -/
  | reclaim
  /-- A caller gives a frame back. -/
  | free (frame : BitVec 64)
  /-- The owner of a frame writes to it. -/
  | store (frame : BitVec 64) (bytes : Nat → UInt8)

/-- Addresses of the kernel half. -/
def KernelHalf (virt : BitVec 64) : Prop := 2 ^ 64 - 2 ^ 47 ≤ virt.toNat

instance (virt : BitVec 64) : Decidable (KernelHalf virt) :=
  inferInstanceAs (Decidable (_ ≤ _))

namespace System

variable (sys : System)

/-- The frames an operation that ended in `s` took. -/
def used (s : Vmm.State) : List (BitVec 64) :=
  sys.machine.pool.take (sys.machine.pool.length - s.pool.length)

/-- An operation on the tables of `space` that ended in `s`. -/
def onSpace (space : BitVec 64) (s : Vmm.State) : System :=
  { sys with
    machine := sys.machine.after s
    tables := Function.update sys.tables space
      (sys.tables space ++ sys.used s) }

def create : System :=
  (sys.machine.createAddressSpace sys.kernel).elim sys fun result =>
    { sys with
      machine := result.2
      spaces := result.1 :: sys.spaces
      populated := Function.update sys.populated result.1 fun i =>
        has (sys.machine.view.read sys.kernel i) present
      tables := Function.update sys.tables result.1 [result.1]
      mapped := Function.update sys.mapped result.1 [] }

/-- The frame moves from the caller's hands into the space. -/
def map (space virt phys flags : BitVec 64) : Option System :=
  (AddressSpace.map sys.machine.view space virt phys flags).map fun s =>
    { sys.onSpace space s with
      held := sys.held.erase phys
      mapped := Function.update sys.mapped space (phys :: sys.mapped space) }

/-- The frame, if one was mapped, goes back to the caller. -/
def unmap (space virt : BitVec 64) : Option System :=
  (AddressSpace.unmap sys.machine.view space virt).map fun result =>
    { sys.onSpace space result.2 with
      held := result.1.toList ++ sys.held
      mapped := Function.update sys.mapped space
        ((sys.mapped space).diff result.1.toList) }

def protect (space virt flags : BitVec 64) : Option System :=
  (AddressSpace.protect sys.machine.view space virt flags).map fun result =>
    sys.onSpace space result.2

def dropSpace (space : BitVec 64) : System :=
  { sys with
    machine := sys.machine.dropSpace space
    spaces := sys.spaces.erase space }

/-- An operation on the kernel's tables that ended in `s`. -/
def onKernel (s : Vmm.State) : System :=
  { sys with machine := sys.machine.after s }

def alloc : System :=
  sys.machine.allocFrame.elim sys fun result =>
    { sys with machine := result.2, held := result.1 :: sys.held }

def allocContiguous (count : Nat) : System :=
  (sys.machine.allocContiguous count).elim sys fun result =>
    { sys with machine := result.2, held := result.1 ++ sys.held }

def reclaim : System := { sys with machine := sys.machine.reclaim }

def free (frame : BitVec 64) : System :=
  { sys with
    machine := sys.machine.freeFrame frame
    held := sys.held.erase frame }

def store (frame : BitVec 64) (bytes : Nat → UInt8) : System :=
  { sys with
    machine :=
      { sys.machine with mem := overwrite sys.machine.mem frame bytes } }

def Alive (space : BitVec 64) : Prop := space ∈ sys.spaces

def Holds (frame : BitVec 64) : Prop := frame ∈ sys.held

/-- Frames whose contents belong to a caller or a process. -/
def Owned (frame : BitVec 64) : Prop :=
  frame ∈ sys.held ∨ ∃ space ∈ sys.spaces, frame ∈ sys.mapped space

instance (space : BitVec 64) : Decidable (sys.Alive space) :=
  inferInstanceAs (Decidable (_ ∈ _))

instance (frame : BitVec 64) : Decidable (sys.Holds frame) :=
  inferInstanceAs (Decidable (_ ∈ _))

instance (frame : BitVec 64) : Decidable (sys.Owned frame) :=
  inferInstanceAs (Decidable (_ ∨ _))

/-- One event.  There is no next state where the source panics, and where a
caller would use a space that is gone or a frame that is not its own. -/
def perform : Event → Option System
  | .create => some sys.create
  | .map space virt phys flags =>
    if sys.Alive space ∧ sys.Holds phys then
      sys.map space virt phys flags
    else none
  | .unmap space virt =>
    if sys.Alive space then sys.unmap space virt else none
  | .protect space virt flags =>
    if sys.Alive space then sys.protect space virt flags else none
  | .drop space =>
    if sys.Alive space then some (sys.dropSpace space) else none
  | .mapPage virt phys flags =>
    if KernelHalf virt then
      (Vmm.mapPage sys.machine.view sys.kernel virt phys flags).map
        sys.onKernel
    else none
  | .unmapPage virt =>
    if KernelHalf virt then
      (Vmm.unmapPage sys.machine.view sys.kernel virt).map fun result =>
        sys.onKernel result.2
    else none
  | .protectPage virt flags =>
    if KernelHalf virt then
      (Vmm.protectPage sys.machine.view sys.kernel virt flags).map
        fun result => sys.onKernel result.2
    else none
  | .alloc => some sys.alloc
  | .allocContiguous count => some (sys.allocContiguous count)
  | .reclaim =>
    if sys.machine.frames.reclaimed = false then some sys.reclaim else none
  | .free frame => if sys.Holds frame then some (sys.free frame) else none
  | .store frame bytes =>
    if sys.Owned frame then some (sys.store frame bytes) else none

end System

/-- The system once `vmm::init` has run on a machine that booted with `map`. -/
def Initial (map : Physical.MemoryMap) (sys : System) : Prop :=
  ∃ (first : Machine) (boot : BootInfo) (s : Vmm.State),
    Physical.Reachable map first.frames ∧
      first.frames.pmm.totalFrames ≤ 2 ^ 40 ∧
      Vmm.init boot first.view = some (sys.kernel, s) ∧
      sys.machine = first.after s ∧ sys.spaces = [] ∧ sys.held = []

def Reachable (map : Physical.MemoryMap) : System → Prop :=
  Lib.Reachable (Initial map) fun sys later =>
    ∃ event, sys.perform event = some later

end Eonos.Spaces
