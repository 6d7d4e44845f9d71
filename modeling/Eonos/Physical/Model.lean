import Eonos.Physical.Bitmap

/-!
# The physical frame allocator

State and operations of the allocator in `pmm.rs`.  Physical addresses and
frame counts are natural numbers; a memory map carries the bound that keeps the
64-bit sums of the source from wrapping.
-/

namespace Eonos.Physical

def pageSize : Nat := 4096

/-- Nothing below 1 MiB is ever handed out. -/
def minAllocAddr : Nat := 0x100000

def maxRegions : Nat := 128

inductive Kind where
  | usable
  | reserved
  | acpiReclaimable
  | acpiNvs
  | badMemory
  | bootloaderReclaimable
  | kernelAndModules
  | framebuffer
  | unknown
  deriving DecidableEq, Repr

structure Region where
  base : Nat
  len : Nat
  kind : Kind
  deriving DecidableEq, Repr

/-- `(v + a - 1) & !(a - 1)` for a power of two `a`. -/
def alignUp (v a : Nat) : Nat := (v + a - 1) / a * a

/-- `v & !(a - 1)` for a power of two `a`. -/
def alignDown (v a : Nat) : Nat := v / a * a

namespace Region

def finish (r : Region) : Nat := r.base + r.len

/-- The part of a region the allocator may use: whole pages at or above
`MIN_ALLOC_ADDR`. -/
def allocStart (r : Region) : Nat := alignUp (max r.base minAllocAddr) pageSize

def allocEnd (r : Region) : Nat := alignDown r.finish pageSize

/-- Number of whole pages in that part. -/
def allocFrames (r : Region) : Nat := (r.allocEnd - r.allocStart) / pageSize

end Region

inductive FreeError where
  | notInitialized
  | unaligned
  | outOfRange
  | notAllocated
  deriving DecidableEq, Repr

structure Pmm where
  /-- Physical address behind the `bitmap` pointer. -/
  bitmapPhys : Nat
  bitmap : Bitmap
  bitmapWords : Nat
  totalFrames : Nat
  freeFrames : Nat
  usableFrames : Nat
  nextHint : Nat
  regions : List Region
  deriving DecidableEq, Repr

namespace Pmm

/-- The `for n in 0..words` search of `alloc_one`. -/
def allocOneLoop (p : Pmm) : List Nat → Option (Nat × Pmm)
  | [] => none
  | n :: rest =>
    let w := (p.nextHint + n) % p.bitmapWords
    let word := p.bitmap.word w
    if word ≠ BitVec.allOnes 64 then
      let bit := (~~~word).ctz.toNat
      let frame := w * 64 + bit
      some (frame * pageSize,
        { p with
          bitmap := p.bitmap.set w (word ||| 1#64 <<< bit)
          freeFrames := p.freeFrames - 1
          nextHint := w })
    else p.allocOneLoop rest

def allocOne (p : Pmm) : Option (Nat × Pmm) :=
  if p.freeFrames = 0 then none
  else p.allocOneLoop (List.range p.bitmapWords)

/-- The `while frame < total_frames` scan of `alloc_contiguous`; the result is
the first frame of a free run.  Every pass advances `frame`, so `total_frames`
passes are enough. -/
def findRun (p : Pmm) (count : Nat) : Nat → Nat → Nat → Nat → Option Nat
  | 0, _, _, _ => none
  | fuel + 1, run, start, frame =>
    if frame < p.totalFrames then
      if frame % 64 = 0 ∧ p.bitmap.word (frame / 64) = BitVec.allOnes 64 then
        p.findRun count fuel 0 start (frame + 64)
      else if p.bitmap.testBit frame then
        p.findRun count fuel 0 start (frame + 1)
      else
        let start := if run = 0 then frame else start
        if run + 1 = count then some start
        else p.findRun count fuel (run + 1) start (frame + 1)
    else none

def allocContiguousRun (p : Pmm) (count : Nat) : Option (Nat × Pmm) :=
  if count = 0 ∨ p.freeFrames < count then none
  else
    (p.findRun count p.totalFrames 0 0 0).map fun start =>
      (start * pageSize,
        { p with
          bitmap := p.bitmap.fillRange start count true
          freeFrames := p.freeFrames - count })

/-- `Pmm::free`; the allocator is returned on the error paths as well, since
they run on the same `&mut self`. -/
def free (p : Pmm) (phys count : Nat) : Except FreeError Unit × Pmm :=
  if count = 0 then (.ok (), p)
  else if phys % pageSize ≠ 0 then (.error .unaligned, p)
  else
    let first := phys / pageSize
    if 2 ^ 64 ≤ first + count then (.error .outOfRange, p)
    else if p.totalFrames < first + count then (.error .outOfRange, p)
    else if (List.range' first count).any (fun f => !p.bitmap.testBit f) then
      (.error .notAllocated, p)
    else
      (.ok (),
        { p with
          bitmap := p.bitmap.fillRange first count false
          freeFrames := p.freeFrames + count
          nextHint := min p.nextHint (first / 64) })

end Pmm

/-! ## The public entry points -/

def allocFrame (p : Pmm) : Option (Nat × Pmm) := p.allocOne

def allocContiguous (p : Pmm) (count : Nat) : Option (Nat × Pmm) :=
  if count = 1 then p.allocOne else p.allocContiguousRun count

/-- `free_frames` logs a rejected request and otherwise ignores it. -/
def freeFrames (p : Pmm) (phys count : Nat) : Pmm := (p.free phys count).2

/-- Clear the bits of every region of one kind, counting the frames. -/
def releaseRegions (kind : Kind) :
    List Region → Bitmap → Nat → Bitmap × Nat
  | [], bm, frames => (bm, frames)
  | r :: rest, bm, frames =>
    if r.kind = kind ∧ r.allocStart < r.allocEnd then
      releaseRegions kind rest
        (bm.fillRange (r.allocStart / pageSize) r.allocFrames false)
        (frames + r.allocFrames)
    else releaseRegions kind rest bm frames

def reclaimBootloaderMemory (p : Pmm) : Nat × Pmm :=
  let (bitmap, frames) :=
    releaseRegions .bootloaderReclaimable p.regions p.bitmap 0
  (frames,
    { p with
      bitmap
      freeFrames := p.freeFrames + frames
      usableFrames := p.usableFrames + frames
      nextHint := 0 })

/-- One past the highest usable or reclaimable address. -/
def highest (regions : List Region) : Nat :=
  regions.foldl
    (fun highest r =>
      match r.kind with
      | .usable | .bootloaderReclaimable => max highest r.finish
      | _ => highest) 0

def bitmapWordsFor (totalFrames : Nat) : Nat := (totalFrames + 63) / 64

/-- Frames the bitmap itself occupies. -/
def bitmapFramesFor (bitmapWords : Nat) : Nat :=
  alignUp (bitmapWords * 8) pageSize / pageSize

/-- The first usable region with room for the bitmap gives its address. -/
def placeBitmap (regions : List Region) (bitmapFrames : Nat) : Option Nat :=
  (regions.find? fun r =>
    r.kind = .usable ∧ r.allocStart < r.allocEnd ∧
      bitmapFrames * pageSize ≤ r.allocEnd - r.allocStart).map
    Region.allocStart

/-- `init`, from the bootloader's memory map to the allocator; `none` where the
source logs a failure and leaves the allocator uninitialised. -/
def init (entries : List Region) : Option Pmm :=
  let regions := entries.take maxRegions
  let highest := highest regions
  if highest = 0 then none
  else
    let totalFrames := highest / pageSize
    let bitmapWords := bitmapWordsFor totalFrames
    let bitmapFrames := bitmapFramesFor bitmapWords
    match placeBitmap regions bitmapFrames with
    | none => none
    | some bitmapPhys =>
      let (bitmap, free) :=
        releaseRegions .usable regions
          (List.replicate bitmapWords (BitVec.allOnes 64)) 0
      let bitmap :=
        bitmap.fillRange (bitmapPhys / pageSize) bitmapFrames true
      some
        { bitmapPhys, bitmap, bitmapWords, totalFrames
          freeFrames := free - bitmapFrames
          usableFrames := free - bitmapFrames
          nextHint := 0
          regions }

end Eonos.Physical
