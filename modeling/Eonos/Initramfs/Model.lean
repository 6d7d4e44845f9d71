import Eonos.Lib.Utf8

/-!
# The reader of the initial RAM filesystem

`initramfs.rs` walks the 512-byte headers of a `ustar` archive in place.  An
archive is the list of its bytes, a text the list of its characters, and an
offset a natural number with the checked additions of the source.
-/

namespace Eonos.Initramfs

open Eonos.Lib

/-- `BLOCK`. -/
def block : Nat := 512

/-- A borrowed byte slice; no slice spans more than `isize::MAX` bytes. -/
structure Slice where
  bytes : List UInt8
  fits : bytes.length < 2 ^ 63

/-- One regular file of the archive. -/
structure Entry where
  name : List Char
  data : List UInt8
deriving DecidableEq

/-- The iterator over the archive. -/
structure Entries where
  data : List UInt8
  off : Nat

/-- `bytes[first..last]`. -/
def slice (bytes : List UInt8) (first last : Nat) : List UInt8 :=
  (bytes.drop first).take (last - first)

/-- `usize::checked_add` and `u64::checked_add`. -/
def checkedAdd (left right : Nat) : Option Nat :=
  if left + right < 2 ^ 64 then some (left + right) else none

/-- `u64::checked_mul`. -/
def checkedMul (left right : Nat) : Option Nat :=
  if left * right < 2 ^ 64 then some (left * right) else none

/-- The bytes in front of the first NUL, all of them if there is none. -/
def cstr (field : List UInt8) : List UInt8 :=
  field.takeWhile (· != 0)

/-- The loop of `parse_octal`: a separator in front of the first digit is
passed over, one after it ends the number. -/
def octalLoop : List UInt8 → Nat → Bool → Option (Nat × Bool)
  | [], value, seen => some (value, seen)
  | b :: field, value, seen =>
    if 0x30 ≤ b && b ≤ 0x37 then
      (checkedMul value 8).bind fun scaled =>
        (checkedAdd scaled (b - 0x30).toNat).bind fun value =>
          octalLoop field value true
    else if b == 0x20 || b == 0 then
      if seen then some (value, seen) else octalLoop field value seen
    else none

def parseOctal (field : List UInt8) : Option Nat :=
  (octalLoop field 0 false).bind fun result =>
    if result.2 then some result.1 else none

/-- The loop of `checksum_ok`, from header byte `i` on. -/
def checksumLoop : List UInt8 → Nat → Nat → Nat
  | [], _, sum => sum
  | b :: hdr, i, sum =>
    checksumLoop hdr (i + 1)
      (sum + if 148 ≤ i && i < 156 then 0x20 else b.toNat)

def checksumOk (hdr : List UInt8) : Bool :=
  parseOctal (slice hdr 148 156) == some (checksumLoop hdr 0 0)

/-- Strip any leading `./` and `/` components. -/
def normalize : List Char → List Char
  | '.' :: '/' :: rest => normalize rest
  | '/' :: rest => normalize rest
  | s => s

/-- `b"ustar"`. -/
def ustar : List UInt8 := [0x75, 0x73, 0x74, 0x61, 0x72]

def entryName (hdr : List UInt8) : List Char :=
  let name := cstr (slice hdr 0 100)
  let isUstar := slice hdr 257 262 == ustar
  let dir := if isUstar then cstr (slice hdr 345 500) else []
  let full := if dir.isEmpty then [] else fromUtf8Lossy dir ++ ['/']
  normalize (full ++ fromUtf8Lossy name)

/-- One turn of the loop of `Entries::next`: `none` where the source returns
`None`, otherwise the new offset, with an entry if the turn returns one. -/
def turn (data : List UInt8) (off : Nat) : Option (Nat × Option Entry) :=
  (checkedAdd off block).bind fun hdrEnd =>
  if hdrEnd > data.length then none
  else
    let hdr := slice data off hdrEnd
    if hdr.all (· == 0) then none
    else if !checksumOk hdr then none
    else
      (parseOctal (slice hdr 124 136)).bind fun size =>
      (checkedAdd hdrEnd size).bind fun dataEnd =>
      if dataEnd > data.length then none
      else
        (checkedAdd size (block - 1)).bind fun rounded =>
        (checkedAdd hdrEnd (rounded / block * block)).bind fun off =>
        let typeflag := hdr.getD 156 0
        if typeflag == 0x30 || typeflag == 0 then
          some (off, some ⟨entryName hdr, slice data hdrEnd dataEnd⟩)
        else some (off, none)

/-- The loop of `Entries::next`, with the offset it leaves behind. -/
def nextLoop (data : List UInt8) : Nat → Nat → Option Entry × Nat
  | 0, off => (none, off)
  | fuel + 1, off =>
    (turn data off).elim (none, off) fun (later, found) =>
      found.elim (nextLoop data fuel later) fun entry => (some entry, later)

/-- `Entries::next`.  A turn that goes on moves past a whole header, so the
length of the archive bounds the turns. -/
def Entries.next (it : Entries) : Option Entry × Entries :=
  let result := nextLoop it.data (it.data.length + 1) it.off
  (result.1, { it with off := result.2 })

/-- What a consumer that calls `next` until `None` sees. -/
def collectLoop : Nat → Entries → List Entry
  | 0, _ => []
  | fuel + 1, it =>
    it.next.1.elim [] fun entry => entry :: collectLoop fuel it.next.2

def Entries.collect (it : Entries) : List Entry :=
  collectLoop (it.data.length + 1) it

/-- The iterator over the archive, or over nothing if none was loaded. -/
def entries (archive : Option Slice) : Entries :=
  { data := (archive.map Slice.bytes).getD [], off := 0 }

/-- The contents of the file at `path`. -/
def find (archive : Option Slice) (path : List Char) : Option (List UInt8) :=
  let want := normalize path
  ((entries archive).collect.find? (·.name == want)).map Entry.data

/-! ## The fuel is no restriction -/

variable {data : List UInt8} {fuel off : Nat}

theorem nextLoop_stop (stopped : turn data off = none) : nextLoop data fuel off = (none, off) := by
  cases fuel with
  | zero => rfl
  | succ fuel =>
    rw [nextLoop, stopped, Option.elim_none]

theorem nextLoop_found {later : Nat}
    {entry : Entry} (turned : turn data off = some (later, some entry)) :
    nextLoop data (fuel + 1) off = (some entry, later) := by
  rw [nextLoop, turned, Option.elim_some]
  rfl

theorem nextLoop_skip {later : Nat} (turned : turn data off = some (later, none)) :
    nextLoop data (fuel + 1) off = nextLoop data fuel later := by
  rw [nextLoop, turned, Option.elim_some]
  rfl

end Eonos.Initramfs
