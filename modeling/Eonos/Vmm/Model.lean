import Eonos.Vmm.Memory

/-!
# Page tables

The four-level page tables of `vmm.rs`: on-demand allocation, splitting of
huge pages, mapping, unmapping, protection and the software walk.  A frame for
a new table comes from the pool of frames the frame allocator still has; none
is a failed `expect` or `assert!`.  Flushing the translation cache has no
effect on the tables and is left out.
-/

namespace Eonos.Vmm

def present : BitVec 64 := 1#64 <<< 0
def writable : BitVec 64 := 1#64 <<< 1
def user : BitVec 64 := 1#64 <<< 2
def pwt : BitVec 64 := 1#64 <<< 3
def pcd : BitVec 64 := 1#64 <<< 4
def huge : BitVec 64 := 1#64 <<< 7
def noExecute : BitVec 64 := 1#64 <<< 63

def kernelRx : BitVec 64 := present
def kernelRo : BitVec 64 := present ||| noExecute
def kernelRw : BitVec 64 := present ||| writable ||| noExecute
def userRx : BitVec 64 := present ||| user
def userRo : BitVec 64 := present ||| user ||| noExecute
def userRw : BitVec 64 := present ||| writable ||| user ||| noExecute
def kernelWc : BitVec 64 := present ||| writable ||| noExecute ||| pwt
def kernelUc : BitVec 64 := present ||| writable ||| noExecute ||| pcd

def addrMask : BitVec 64 := 0x000ffffffffff000
def huge2m : BitVec 64 := 0x200000
def huge1g : BitVec 64 := 0x40000000
def huge2mMask : BitVec 64 := 0x000fffffffe00000
def huge1gMask : BitVec 64 := 0x000fffffc0000000
def patHuge : BitVec 64 := 1#64 <<< 12
def pat4k : BitVec 64 := 1#64 <<< 7

def userSpaceEnd : BitVec 64 := 0x0000800000000000

/-- `entry & flag != 0`. -/
def has (entry flag : BitVec 64) : Bool := entry &&& flag != 0

theorem index_bound (x : BitVec 64) : (x &&& 0x1ff#64).toNat < 512 := by
  have bound := Nat.and_le_right (n := x.toNat) (m := 0x1ff)
  rw [BitVec.toNat_and]
  exact Nat.lt_succ_of_le bound

def index (virt : BitVec 64) (level : Nat) : Fin 512 :=
  ⟨((virt >>> (39 - level * 9)) &&& 0x1ff#64).toNat, index_bound _⟩

structure State where
  mem : Memory
  /-- The frames `pmm::alloc_frame_zeroed` will hand out. -/
  pool : List (BitVec 64)

def allocFrameZeroed (s : State) : Option (BitVec 64 × State) :=
  match s.pool with
  | [] => none
  | frame :: pool => some (frame, ⟨zeroFrame s.mem frame, pool⟩)

def State.read (s : State) (table : BitVec 64) (i : Fin 512) : BitVec 64 :=
  readEntry s.mem table i

def State.write (s : State) (table : BitVec 64) (i : Fin 512) (entry : BitVec 64) : State :=
  { s with mem := writeEntry s.mem table i entry }

def childTable (s : State) (parent : BitVec 64) (i : Fin 512) :
    Option (BitVec 64 × State) := do
  let entry := s.read parent i
  if has entry present then
    if has entry huge then none else some (entry &&& addrMask, s)
  else
    let (phys, s) ← allocFrameZeroed s
    return (phys, s.write parent i (phys ||| present ||| writable ||| user))

/-- The 4 KiB entries that replace a 2 MiB one. -/
def splitEntry (entry : BitVec 64) (i : Fin 512) : BitVec 64 :=
  let base := entry &&& huge2mMask
  let flags := entry &&& ~~~addrMask &&& ~~~huge
  let flags := if has entry patHuge then flags ||| pat4k else flags
  (base + BitVec.ofNat 64 i * BitVec.ofNat 64 pageSize) ||| flags

def splitHuge (s : State) (pd : BitVec 64) (i : Fin 512) : Option State := do
  let entry := s.read pd i
  let (phys, s) ← allocFrameZeroed s
  let s := { s with mem := fillTable s.mem phys (splitEntry entry) }
  return s.write pd i (phys ||| present ||| writable ||| user)

/-- The 2 MiB entries that replace a 1 GiB one. -/
def split1gEntry (entry : BitVec 64) (i : Fin 512) : BitVec 64 :=
  let base := entry &&& huge1gMask
  let flags := entry &&& ~~~addrMask &&& ~~~huge
  let flags := if has entry patHuge then flags ||| patHuge else flags
  (base + BitVec.ofNat 64 i * huge2m) ||| flags ||| present ||| huge

def split1gHuge (s : State) (pdpt : BitVec 64) (i : Fin 512) :
    Option State := do
  let entry := s.read pdpt i
  let (phys, s) ← allocFrameZeroed s
  let s := { s with mem := fillTable s.mem phys (split1gEntry entry) }
  return s.write pdpt i (phys ||| present ||| writable ||| user)

def pdFor (s : State) (pdpt virt : BitVec 64) :
    Option (BitVec 64 × State) := do
  let i := index virt 1
  let entry := s.read pdpt i
  let s ←
    if has entry present && has entry huge then split1gHuge s pdpt i
    else some s
  childTable s pdpt i

def ptFor (s : State) (pd virt : BitVec 64) :
    Option (BitVec 64 × State) := do
  let i := index virt 2
  let entry := s.read pd i
  let s ←
    if has entry present && has entry huge then splitHuge s pd i
    else some s
  childTable s pd i

/-- The last level of `leaf_for`. -/
def leafPt (s : State) (pt virt : BitVec 64) : Option (BitVec 64) × State :=
  if has (s.read pt (index virt 3)) present then (some pt, s) else (none, s)

def leafPd (s : State) (pd virt : BitVec 64) : Option (Option (BitVec 64) × State) :=
  let entry := s.read pd (index virt 2)
  if !has entry present then some (none, s)
  else if has entry huge then
    (splitHuge s pd (index virt 2)).bind fun s =>
      some (leafPt s (s.read pd (index virt 2) &&& addrMask) virt)
  else some (leafPt s (entry &&& addrMask) virt)

def leafPdpt (s : State) (pdpt virt : BitVec 64) : Option (Option (BitVec 64) × State) :=
  let entry := s.read pdpt (index virt 1)
  if !has entry present then some (none, s)
  else if has entry huge then
    (split1gHuge s pdpt (index virt 1)).bind fun s =>
      leafPd s (s.read pdpt (index virt 1) &&& addrMask) virt
  else leafPd s (entry &&& addrMask) virt

/-- `leaf_for`: the table that holds the 4 KiB leaf of `virt`, if it is mapped.
The source descends the four levels in one body. -/
def leafFor (s : State) (pml4 virt : BitVec 64) : Option (Option (BitVec 64) × State) :=
  let entry := s.read pml4 (index virt 0)
  if !has entry present || has entry huge then some (none, s)
  else leafPdpt s (entry &&& addrMask) virt

def map4k (s : State) (pml4 virt phys flags : BitVec 64) : Option State := do
  let (pdpt, s) ← childTable s pml4 (index virt 0)
  let (pd, s) ← pdFor s pdpt virt
  let (pt, s) ← ptFor s pd virt
  return s.write pt (index virt 3) ((phys &&& addrMask) ||| flags ||| present)

def map2m (s : State) (pml4 virt phys flags : BitVec 64) : Option State := do
  let (pdpt, s) ← childTable s pml4 (index virt 0)
  let (pd, s) ← childTable s pdpt (index virt 1)
  let existing := s.read pd (index virt 2)
  if has existing present && !has existing huge then none
  else some (s.write pd (index virt 2)
    ((phys &&& huge2mMask) ||| flags ||| present ||| huge))

def mapPage (s : State) (pml4 virt phys flags : BitVec 64) : Option State :=
  map4k s pml4 virt phys flags

def unmapPage (s : State) (pml4 virt : BitVec 64) :
    Option (Option (BitVec 64) × State) := do
  match ← leafFor s pml4 virt with
  | (none, s) => return (none, s)
  | (some pt, s) =>
    let phys := s.read pt (index virt 3) &&& addrMask
    return (some phys, s.write pt (index virt 3) 0)

/-- The common end of `protect_page` and `AddressSpace::protect`. -/
def protectLeaf (s : State) (pml4 virt flags : BitVec 64) :
    Option (Bool × State) := do
  match ← leafFor s pml4 virt with
  | (none, s) => return (false, s)
  | (some pt, s) =>
    let leaf := s.read pt (index virt 3)
    return (true,
      s.write pt (index virt 3) ((leaf &&& addrMask) ||| flags ||| present))

def kernelFlags : List (BitVec 64) :=
  [kernelRx, kernelRo, kernelRw, kernelWc, kernelUc]

def protectPage (s : State) (pml4 virt flags : BitVec 64) : Option (Bool × State) :=
  if flags ∉ kernelFlags then some (false, s)
  else protectLeaf s pml4 virt flags

/-- The last level of `walk`. -/
def walkPt (s : State) (pt virt : BitVec 64) : Option (BitVec 64) :=
  let leaf := s.read pt (index virt 3)
  if !has leaf present then none
  else some ((leaf &&& addrMask) + (virt &&& 0xfff#64))

def walkPd (s : State) (pd virt : BitVec 64) : Option (BitVec 64) :=
  let e := s.read pd (index virt 2)
  if !has e present then none
  else if has e huge then
    some ((e &&& huge2mMask) + (virt &&& (huge2m - 1)))
  else walkPt s (e &&& addrMask) virt

def walkPdpt (s : State) (pdpt virt : BitVec 64) : Option (BitVec 64) :=
  let e := s.read pdpt (index virt 1)
  if !has e present then none
  else if has e huge then
    some ((e &&& huge1gMask) + (virt &&& (huge1g - 1)))
  else walkPd s (e &&& addrMask) virt

/-- `walk`: the source descends the four levels in one body. -/
def walk (s : State) (pml4 virt : BitVec 64) : Option (BitVec 64) :=
  let e := s.read pml4 (index virt 0)
  if !has e present then none
  else walkPdpt s (e &&& addrMask) virt

/-! ### Address spaces -/

namespace AddressSpace

def userFlags : List (BitVec 64) := [userRx, userRo, userRw]

def translate (s : State) (pml4 virt : BitVec 64) : Option (BitVec 64) :=
  walk s pml4 virt

def map (s : State) (pml4 virt phys flags : BitVec 64) : Option State :=
  if ¬ virt < userSpaceEnd then none
  else if virt &&& 0xfff#64 ≠ 0 then none
  else if phys &&& 0xfff#64 ≠ 0 then none
  else if flags ∉ userFlags then none
  else if (translate s pml4 virt).isSome then none
  else map4k s pml4 virt phys flags

def unmap (s : State) (pml4 virt : BitVec 64) : Option (Option (BitVec 64) × State) :=
  if ¬ virt < userSpaceEnd then none else unmapPage s pml4 virt

def protect (s : State) (pml4 virt flags : BitVec 64) : Option (Bool × State) :=
  if userSpaceEnd ≤ virt ∨ flags ∉ userFlags then some (false, s)
  else protectLeaf s pml4 virt flags

end AddressSpace

/-! ### The kernel's own tables -/

/-- `map_hhdm_range`; `fuel` bounds the pages left. -/
def mapHhdmLoop (pml4 : BitVec 64) (hhdm finish : Nat) :
    Nat → Nat → State → Option State
  | 0, _, s => some s
  | fuel + 1, p, s =>
    if p < finish then
      if p % 0x200000 = 0 ∧ 0x200000 ≤ finish - p then do
        let s ← map2m s pml4 (BitVec.ofNat 64 (hhdm + p)) (BitVec.ofNat 64 p)
          kernelRw
        mapHhdmLoop pml4 hhdm finish fuel (p + 0x200000) s
      else do
        let s ← map4k s pml4 (BitVec.ofNat 64 (hhdm + p)) (BitVec.ofNat 64 p)
          kernelRw
        mapHhdmLoop pml4 hhdm finish fuel (p + pageSize) s
    else some s

def mapHhdmRange (s : State) (pml4 : BitVec 64) (hhdm start finish : Nat) : Option State :=
  mapHhdmLoop pml4 hhdm finish ((finish - start) / pageSize + 1) start s

/-- Maps the pages from `v` up to `finish`, each to `toPhys` of its address. -/
def mapPagesLoop (pml4 flags : BitVec 64) (toPhys : Nat → Nat) (finish : Nat) :
    Nat → Nat → State → Option State
  | 0, _, s => some s
  | fuel + 1, v, s =>
    if v < finish then do
      let s ← map4k s pml4 (BitVec.ofNat 64 v) (BitVec.ofNat 64 (toPhys v))
        flags
      mapPagesLoop pml4 flags toPhys finish fuel (v + pageSize) s
    else some s

def mapPages (s : State) (pml4 flags : BitVec 64) (toPhys : Nat → Nat)
    (start finish : Nat) : Option State :=
  mapPagesLoop pml4 flags toPhys finish ((finish - start) / pageSize + 1) start s

/-- What `init` learns from the bootloader and the linker. -/
structure BootInfo where
  hhdm : Nat
  /-- The merged ranges of physical memory to map. -/
  ranges : List (Nat × Nat)
  /-- Page-aligned bounds of the framebuffer, in physical memory. -/
  framebuffer : Option (Nat × Nat)
  kernelPhys : Nat
  kernelVirt : Nat
  /-- Page-aligned bounds of text, rodata and data. -/
  text : Nat × Nat
  rodata : Nat × Nat
  data : Nat × Nat

/-- The tables `init` builds before it loads them. -/
def init (boot : BootInfo) (s : State) : Option (BitVec 64 × State) := do
  let (pml4, s) ← allocFrameZeroed s
  let s ← boot.ranges.foldlM
    (fun s range => mapHhdmRange s pml4 boot.hhdm range.1 range.2) s
  let s ←
    match boot.framebuffer with
    | none => some s
    | some (start, finish) =>
      mapPages s pml4 kernelWc (fun v => v - boot.hhdm) (boot.hhdm + start)
        (boot.hhdm + finish)
  let toPhys := fun v => boot.kernelPhys + (v - boot.kernelVirt)
  let s ← mapPages s pml4 kernelRx toPhys boot.text.1 boot.text.2
  let s ← mapPages s pml4 kernelRo toPhys boot.rodata.1 boot.rodata.2
  let s ← mapPages s pml4 kernelRw toPhys boot.data.1 boot.data.2
  return (pml4, s)

end Eonos.Vmm
