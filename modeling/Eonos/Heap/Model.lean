import Eonos.Lib.Spans

/-!
# The kernel heap

The address-ordered, coalescing first-fit allocator of `heap.rs`.  The free
blocks are linked through their own headers in the source; here the linked list
is the list of its blocks in link order.  `usize` sums that come near the top
of the address space keep their 64-bit wrap.
-/

namespace Eonos.Heap

open Lib

def heapStart : Nat := 0xffffffff90000000

def heapMaxSize : Nat := 64 * 1024 * 1024

def heapGrowStep : Nat := 64 * 1024

def pageSize : Nat := 4096

/-- `size_of::<FreeBlock>()`. -/
def blockHeaderSize : Nat := 16

/-- `align_of::<FreeBlock>()`. -/
def blockHeaderAlign : Nat := 8

/-- `(addr + align - 1) & !(align - 1)` on 64-bit words. -/
def alignUp (addr align : Nat) : Nat :=
  (addr + align - 1) % 2 ^ 64 / align * align

def alignDown (v a : Nat) : Nat := v / a * a

/-- `FreeBlock`: the addresses it describes, headed by its own header. -/
abbrev FreeBlock := Span

structure FreeList where
  blocks : List FreeBlock
  mappedEnd : Nat
  allocated : Nat
  total : Nat
  deriving DecidableEq, Repr

namespace FreeList

def new : FreeList := ⟨[], 0, 0, 0⟩

/-- Merge `[addr, addr + size)` with the following block, if adjacent. -/
def mergeNext (addr size : Nat) : List FreeBlock → Nat × List FreeBlock
  | [] => (size, [])
  | cur :: rest =>
    if addr + size = cur.addr then (size + cur.size, rest)
    else (size, cur :: rest)

/-- Merge the (possibly already grown) block into its predecessor, if
adjacent, instead of writing a new node at all. -/
def mergePrev (before : List FreeBlock) (addr size : Nat)
    (next : List FreeBlock) : List FreeBlock :=
  match before.getLast? with
  | some prev =>
    if prev.finish = addr then
      before.dropLast ++ ⟨prev.addr, prev.size + size⟩ :: next
    else before ++ ⟨addr, size⟩ :: next
  | none => ⟨addr, size⟩ :: next

/-- `FreeList::insert` on the linked blocks: when the search loop stops, the
blocks below `addr` end in `prev` and the others start with `cur`. -/
def insertBlocks (blocks : List FreeBlock) (addr size : Nat) : List FreeBlock :=
  let before := blocks.takeWhile fun block => block.addr < addr
  let after := blocks.dropWhile fun block => block.addr < addr
  let (size, next) := mergeNext addr size after
  mergePrev before addr size next

def insert (list : FreeList) (addr size : Nat) : FreeList :=
  { list with blocks := insertBlocks list.blocks addr size }

/-- Bytes skipped at the start of a block to reach the alignment, a 64-bit
difference. -/
def padding (block : FreeBlock) (align : Nat) : Nat :=
  (alignUp block.addr align + 2 ^ 64 - block.addr) % 2 ^ 64

def fits (size align : Nat) (block : FreeBlock) : Bool :=
  padding block align + size ≤ block.size

/-- First-fit search; what is left of the block before and after the
allocation goes back to the list when it can hold a header. -/
def findAndRemove (list : FreeList) (size align : Nat) : Option (Nat × FreeList) :=
  let before := list.blocks.takeWhile fun block => !fits size align block
  match list.blocks.dropWhile fun block => !fits size align block with
  | [] => none
  | cur :: next =>
    let allocStart := alignUp cur.addr align
    let padding := padding cur align
    let list := { list with blocks := before ++ next }
    let list :=
      if blockHeaderSize ≤ padding then list.insert cur.addr padding
      else list
    let afterSize := cur.size - padding - size
    let list :=
      if blockHeaderSize ≤ afterSize then
        list.insert (allocStart + size) afterSize
      else list
    some (allocStart, list)

end FreeList

/-- What the physical allocator and the mapper do for one page of growth.
`vmm::map_page` panics when it cannot get a frame for a page table. -/
inductive FrameReply where
  | granted
  | refused
  | panics
  deriving DecidableEq, Repr

/-- The mapping loop of `grow`: how many pages were mapped, or `none` if the
kernel panicked on the way. -/
def mapPages (replies : Nat → FrameReply) (mapped : Nat) : Nat → Option Nat
  | 0 => some mapped
  | pages + 1 =>
    match replies mapped with
    | .granted => mapPages replies (mapped + 1) pages
    | .refused => some mapped
    | .panics => none

/-- Number of bytes `grow` tries to map. -/
def growBy (minExtra remainingVa : Nat) : Nat :=
  let wanted := max heapGrowStep (alignUp minExtra pageSize)
  let wanted := min wanted remainingVa
  min (alignUp wanted pageSize) (alignDown remainingVa pageSize)

/-- `FreeList::grow`; `none` when the kernel panicked. -/
def FreeList.grow (list : FreeList) (replies : Nat → FrameReply)
    (minExtra : Nat) : Option (Bool × FreeList) :=
  let list :=
    if list.mappedEnd = 0 then { list with mappedEnd := heapStart } else list
  let remainingVa := heapStart + heapMaxSize - list.mappedEnd
  if remainingVa = 0 then some (false, list)
  else
    let growBy := growBy minExtra remainingVa
    if growBy = 0 then some (false, list)
    else
      let start := list.mappedEnd
      match mapPages replies 0 (growBy / pageSize) with
      | none => none
      | some 0 => some (false, list)
      | some pages =>
        let mapped := pages * pageSize
        some (true,
          { list with
            mappedEnd := start + mapped
            total := list.total + mapped }.insert start mapped)

/-- A `core::alloc::Layout`: a power-of-two alignment, and a size that does not
pass `isize::MAX` when rounded up to it. -/
structure Layout where
  size : Nat
  align : Nat
  power : ∃ k, align = 2 ^ k
  small : (size + align - 1) / align * align < 2 ^ 63

/-- Size and alignment a request is served with. -/
def adjust (layout : Layout) : Nat × Nat :=
  let align := max layout.align blockHeaderAlign
  let size := max layout.size blockHeaderSize
  (alignUp size blockHeaderAlign, align)

/-- `GlobalAlloc::alloc`; the pointer is `none` where the source returns null,
and the whole result is `none` when the kernel panicked while growing. -/
def alloc (list : FreeList) (replies : Nat → FrameReply) (layout : Layout) :
    Option (Option Nat × FreeList) :=
  let (size, align) := adjust layout
  match list.findAndRemove size align with
  | some (addr, list) =>
    some (some addr, { list with allocated := list.allocated + size })
  | none =>
    match list.grow replies (size + align) with
    | none => none
    | some (false, list) => some (none, list)
    | some (true, list) =>
      match list.findAndRemove size align with
      | some (addr, list) =>
        some (some addr, { list with allocated := list.allocated + size })
      | none => some (none, list)

def dealloc (list : FreeList) (ptr : Nat) (layout : Layout) : FreeList :=
  let (size, _) := adjust layout
  { list with allocated := list.allocated - size }.insert ptr size

end Eonos.Heap
