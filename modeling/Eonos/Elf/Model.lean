import Eonos.Spaces.Machine

/-!
# The ELF loader

`elf.rs`: `parse` checks the headers of an executable, `populate` builds its
pages in fresh frames, and `load` maps them into an address space.  Sizes and
addresses are numbers; `parse` bounds every one that is added up later.
-/

namespace Eonos.Elf

open Eonos.Vmm
open Eonos.Spaces

def loadMin : Nat := 0x1000
def loadMax : Nat := 0x400000000000

def maxSegments : Nat := 16
def maxPhdrs : Nat := 64
def maxPages : Nat := 16 * 1024

def ehdrSize : Nat := 64
def phdrSize : Nat := 56

def etExec : Nat := 2
def emX8664 : Nat := 62

def ptLoad : Nat := 1
def ptInterp : Nat := 3

def pfX : Nat := 1
def pfW : Nat := 2

inductive ElfError where
  | tooShort
  | badMagic
  | notElf64Le
  | notExecutable
  | wrongArch
  | badHeader
  | dynamic
  | truncated
  | badSegment
  | tooManySegments
  | overlap
  | writableExecutable
  | tooLarge
  | noLoadable
  | badEntry
  | noMemory
  deriving DecidableEq, Repr

/-- One `PT_LOAD` entry. -/
structure Segment where
  vaddr : Nat
  offset : Nat
  filesz : Nat
  memsz : Nat
  flags : Nat
  deriving DecidableEq, Repr

namespace Segment

def finish (s : Segment) : Nat := s.vaddr + s.memsz

def writable (s : Segment) : Bool := s.flags &&& pfW ≠ 0

def executable (s : Segment) : Bool := s.flags &&& pfX ≠ 0

end Segment

def alignDown (v : Nat) : Nat := v / pageSize * pageSize

def alignUp (v : Nat) : Nat := (v + pageSize - 1) / pageSize * pageSize

/-! ### Parsing -/

/-- A computation with errors; there is no result where the source would
index out of bounds. -/
abbrev Checked := ExceptT ElfError Option

/-- `count` bytes at `o`, little-endian. -/
def readLe (b : List UInt8) : Nat → Nat → Option Nat
  | _, 0 => some 0
  | o, count + 1 => do
      let low ← b[o]?
      let rest ← readLe b (o + 1) count
      return low.toNat + 256 * rest

def rd16 (b : List UInt8) (o : Nat) : Option Nat := readLe b o 2
def rd32 (b : List UInt8) (o : Nat) : Option Nat := readLe b o 4
def rd64 (b : List UInt8) (o : Nat) : Option Nat := readLe b o 8

/-- The checks of the ELF header: the entry point, and the place and size of
the program header table. -/
def parseHeader (image : List UInt8) : Checked (Nat × Nat × Nat) :=
  if image.length < ehdrSize then throw .tooShort
  else if image.take 4 ≠ [0x7f, 0x45, 0x4c, 0x46] then throw .badMagic
  else do
    let fileClass ← (image[4]? : Option UInt8)
    let encoding ← (image[5]? : Option UInt8)
    if fileClass ≠ 2 ∨ encoding ≠ 1 then throw .notElf64Le
    else do
      let kind ← rd16 image 16
      if kind ≠ etExec then throw .notExecutable
      else do
        let arch ← rd16 image 18
        if arch ≠ emX8664 then throw .wrongArch
        else do
          let entry ← rd64 image 24
          let phoff ← rd64 image 32
          let phentsize ← rd16 image 54
          let phnum ← rd16 image 56
          if phentsize ≠ phdrSize ∨ phnum = 0 ∨ maxPhdrs < phnum then
            throw .badHeader
          -- `checked_add` and the bound fail alike
          else if 2 ^ 64 ≤ phoff + phnum * phdrSize then throw .truncated
          else if image.length < phoff + phnum * phdrSize then
            throw .truncated
          else return (entry, phoff, phnum)

/-- The checks on one `PT_LOAD` entry, given the segments and pages so far. -/
def checkSegment (image : List UInt8) (segments : List Segment)
    (totalPages : Nat) (s : Segment) : Checked (List Segment × Nat) :=
  if s.memsz < s.filesz then throw .badSegment
  else if 2 ^ 64 ≤ s.finish then throw .badSegment
  else if s.vaddr < loadMin ∨ loadMax < s.finish then throw .badSegment
  else if 2 ^ 64 ≤ s.offset + s.filesz then throw .truncated
  else if image.length < s.offset + s.filesz then throw .truncated
  else if s.writable ∧ s.executable then throw .writableExecutable
  else if segments.length = maxSegments then throw .tooManySegments
  else
    let totalPages :=
      totalPages + (alignUp s.finish - alignDown s.vaddr) / pageSize
    if maxPages < totalPages then throw .tooLarge
    else return (segments ++ [s], totalPages)

/-- The loop body of `parse`, for the program header at `o`. -/
def parsePhdr (image : List UInt8) (found : List Segment × Nat) (o : Nat) :
    Checked (List Segment × Nat) := do
  let pType ← rd32 image o
  let pFlags ← rd32 image (o + 4)
  let pOffset ← rd64 image (o + 8)
  let pVaddr ← rd64 image (o + 16)
  let pFilesz ← rd64 image (o + 32)
  let pMemsz ← rd64 image (o + 40)
  if pType = ptInterp then throw .dynamic
  else if pType ≠ ptLoad ∨ pMemsz = 0 then return found
  else
    checkSegment image found.1 found.2
      { vaddr := pVaddr, offset := pOffset, filesz := pFilesz,
        memsz := pMemsz, flags := pFlags }

/-- Some segment overlaps a later one. -/
def overlapping : List Segment → Bool
  | [] => false
  | a :: rest =>
    rest.any (fun b => a.vaddr < b.finish && b.vaddr < a.finish) ||
      overlapping rest

def parse (image : List UInt8) : Checked (Nat × List Segment) := do
  let (entry, phoff, phnum) ← parseHeader image
  let (segments, _) ←
    ((List.range phnum).map fun i => phoff + i * phdrSize).foldlM
      (parsePhdr image) ([], 0)
  if segments.isEmpty then throw .noLoadable
  else if overlapping segments then throw .overlap
  else if !segments.any fun s =>
      s.executable && s.vaddr ≤ entry && entry < s.finish then
    throw .badEntry
  else return (entry, segments)

/-! ### Building the pages -/

/-- One page of the image while it is being assembled. -/
structure Page where
  phys : BitVec 64
  writable : Bool
  executable : Bool

/-- The pages so far, and the machine their frames are on. -/
structure Loader where
  pages : Std.TreeMap Nat Page
  machine : Machine

/-- The frames of `pages.values()`. -/
def Loader.frames (st : Loader) : List (BitVec 64) :=
  st.pages.toList.map fun entry => entry.2.phys

/-- `core::ptr::copy_nonoverlapping` to physical memory at `dst`. -/
def copyBytes (m : Memory) (dst : Nat) (src : Nat → UInt8) (n : Nat) : Memory :=
  fun b => if dst ≤ b ∧ b < dst + n then src (b - dst) else m b

/-- What `populate` has reached: an error leaves the pages as they are. -/
abbrev Outcome := Except ElfError Unit × Loader

/-- `?` between two parts of `populate`. -/
def Outcome.andThen (first : Outcome) (next : Loader → Outcome) : Outcome :=
  match first with
  | (.ok _, st) => next st
  | (.error e, st) => (.error e, st)

/-- A page shared with an earlier segment, or a fresh one. -/
def touchPage (s : Segment) (va : Nat) (st : Loader) : Outcome :=
  match st.pages[va]? with
  | some page =>
    (.ok (),
      { st with
        pages := st.pages.insert va
          { page with
            writable := page.writable || s.writable
            executable := page.executable || s.executable } })
  | none =>
    st.machine.allocFrameZeroed.elim (.error .noMemory, st) fun taken =>
      (.ok (),
        { pages := st.pages.insert va ⟨taken.1, s.writable, s.executable⟩
          machine := taken.2 })

/-- `while va < last`; `fuel` bounds the pages left. -/
def pageLoop (s : Segment) (last : Nat) : Nat → Nat → Loader → Outcome
  | 0, _, st => (.ok (), st)
  | fuel + 1, va, st =>
    if va < last then
      (touchPage s va st).andThen (pageLoop s last fuel (va + pageSize))
    else (.ok (), st)

/-- `while copied < seg.filesz`; `fuel` bounds the bytes left. -/
def copyLoop (image : List UInt8) (s : Segment) :
    Nat → Nat → Loader → Outcome
  | 0, _, st => (.ok (), st)
  | fuel + 1, copied, st =>
    if copied < s.filesz then
      let dstVa := s.vaddr + copied
      let pageVa := alignDown dstVa
      let inPage := dstVa - pageVa
      let n := min (s.filesz - copied) (pageSize - inPage)
      match st.pages[pageVa]? with
      | none => (.error .badSegment, st)
      | some page =>
        copyLoop image s fuel (copied + n)
          { st with
            machine :=
              { st.machine with
                mem := copyBytes st.machine.mem (page.phys.toNat + inPage)
                  (fun k => image.getD (s.offset + copied + k) 0) n } }
    else (.ok (), st)

def populateSegment (image : List UInt8) (s : Segment) (st : Loader) : Outcome :=
  let first := alignDown s.vaddr
  let last := alignUp s.finish
  (pageLoop s last ((last - first) / pageSize + 1) first st).andThen
    (copyLoop image s (s.filesz + 1) 0)

def populateSegments (image : List UInt8) : List Segment → Loader → Outcome
  | [], st => (.ok (), st)
  | s :: rest, st =>
    (populateSegment image s st).andThen (populateSegments image rest)

def populate (image : List UInt8) (segments : List Segment) (st : Loader) : Outcome :=
  (populateSegments image segments st).andThen fun st =>
    if st.pages.toList.any fun entry =>
        entry.2.writable && entry.2.executable then
      (.error .writableExecutable, st)
    else (.ok (), st)

def freePages (st : Loader) : Machine :=
  st.frames.foldl Machine.freeFrame st.machine

/-! ### Loading -/

def Page.flags (page : Page) : BitVec 64 :=
  match page.writable, page.executable with
  | false, false => userRo
  | true, false => userRw
  | false, true => userRx
  | true, true => userRo

/-- `aspace.map(va, page.phys, flags)`. -/
def mapPage (pml4 : BitVec 64) (m : Machine) (entry : Nat × Page) : Option Machine :=
  (AddressSpace.map m.view pml4 (BitVec.ofNat 64 entry.1) entry.2.phys
    entry.2.flags).map m.after

/-- `load`, into the address space with the given PML4. -/
def load (image : List UInt8) (pml4 : BitVec 64) (m : Machine) :
    Option (Except ElfError Nat × Machine) :=
  (parse image).run.bind fun parsed =>
    match parsed with
    | .error e => some (.error e, m)
    | .ok (entry, segments) =>
      match populate image segments ⟨∅, m⟩ with
      | (.error e, st) => some (.error e, freePages st)
      | (.ok _, st) =>
        (st.pages.toList.foldlM (mapPage pml4) st.machine).map fun m =>
          (.ok entry, m)

/-! ### A small file -/

/-- `to_le_bytes`, `count` of them. -/
def toLeBytes (value : Nat) : Nat → List UInt8
  | 0 => []
  | count + 1 => UInt8.ofNat value :: toLeBytes (value / 256) count

/-- `make_test_elf` of the self test: one segment of four bytes in the file. -/
def makeTestElf (entry vaddr filesz memsz flags : Nat) : List UInt8 :=
  [0x7f, 0x45, 0x4c, 0x46, 2, 1, 1, 0] ++ toLeBytes 0 8 ++ toLeBytes 2 2 ++
    toLeBytes 62 2 ++ toLeBytes 1 4 ++ toLeBytes entry 8 ++ toLeBytes 64 8 ++
    toLeBytes 0 12 ++ toLeBytes 64 2 ++ toLeBytes 56 2 ++ toLeBytes 1 2 ++
    toLeBytes 0 6 ++ toLeBytes 1 4 ++ toLeBytes flags 4 ++ toLeBytes 120 8 ++
    toLeBytes vaddr 8 ++ toLeBytes vaddr 8 ++ toLeBytes filesz 8 ++
    toLeBytes memsz 8 ++ toLeBytes 4096 8 ++ [0xde, 0xad, 0xbe, 0xef]

end Eonos.Elf
