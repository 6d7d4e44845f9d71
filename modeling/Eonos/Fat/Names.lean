import Eonos.Lib.Bytes
import Eonos.Lib.Utf8
import Eonos.Lib.Utf16

/-!
# Names in FAT directories

Directory slots, the long names spread over them, and the short names, as
`fat32.rs` reads and writes them.  A text is its list of characters.
-/

namespace Eonos.Fat

open Eonos.Lib

inductive FatError where
  | io
  | invalidBootSector
  | unsupported
  | corrupt
  | notFound
  | notDirectory
  | isDirectory
  | tooLarge
  | noSpace
  | invalidName
  | alreadyExists
  | directoryNotEmpty
deriving DecidableEq, Repr

/-- One record of a directory. -/
abbrev Slot := Bytes 32

scoped instance slot_ne_zero : NeZero 32 := ⟨by decide⟩

scoped instance short_ne_zero : NeZero 11 := ⟨by decide⟩

/-- `str::len`. -/
def len (text : List Char) : Nat := (utf8Bytes text).length

/-- `&text[..n]`, which panics unless a character ends at byte `n`. -/
def byteTake : List Char → Nat → Option (List Char)
  | _, 0 => some []
  | [], _ + 1 => none
  | c :: text, n + 1 =>
    if c.utf8Size ≤ n + 1 then
      (byteTake text (n + 1 - c.utf8Size)).map (c :: ·)
    else none

/-- `str::eq_ignore_ascii_case`. -/
def eqIgnoreAsciiCase (a b : List Char) : Bool :=
  a.map Char.toLower == b.map Char.toLower

/-- `str::rsplit_once`. -/
def rsplitOnce (separator : Char) (text : List Char) : Option (List Char × List Char) :=
  if separator ∈ text then
    some ((text.reverse.dropWhile (· ≠ separator)).tail.reverse,
      (text.reverse.takeWhile (· ≠ separator)).reverse)
  else none

/-- `str::trim_matches` with a character. -/
def trimMatches (c : Char) (text : List Char) : List Char :=
  ((text.dropWhile (· = c)).reverse.dropWhile (· = c)).reverse

/-! ### Long names -/

/-- Where the units of a long name are in a slot. -/
def positions : List (Fin 31) :=
  [1, 3, 5, 7, 9, 14, 16, 18, 20, 22, 24, 28, 30]

theorem position_inside (p : Fin 31) : p.val + 1 < 32 :=
  Nat.succ_lt_succ p.isLt

def recordUnits (e : Slot) : List Nat :=
  positions.map fun p => e.u16le p.val (position_inside p)

@[simp]
theorem length_recordUnits (e : Slot) : (recordUnits e).length = 13 := rfl

/-- The variables `lfn` and `have_lfn` of the two scanners. -/
structure LongName where
  lfn : Fin 260 → Nat
  haveLfn : Bool

namespace LongName

def empty : LongName := ⟨fun _ => 0xffff, false⟩

def drop (l : LongName) : LongName := { l with haveLfn := false }

/-- `lfn[base + i] = units[i]` for every `i`. -/
def put (lfn : Fin 260 → Nat) (base : Nat) (units : List Nat)
    (_ : base + units.length ≤ 260) : Fin 260 → Nat :=
  fun i =>
    if base ≤ i.val ∧ i.val < base + units.length then
      units.getD (i.val - base) 0
    else lfn i

/-- The flag `0x40` starts a name. -/
def start (l : LongName) (e : Slot) : LongName :=
  if e 0 &&& 0x40 ≠ 0 then ⟨fun _ => 0xffff, true⟩ else l

def order (e : Slot) : Nat := (e 0 &&& 0x1f).toNat

/-- A long-name record, in both scanners. -/
def absorb (l : LongName) (e : Slot) : LongName :=
  if outside : order e = 0 ∨ 20 < order e then l.drop
  else if (l.start e).haveLfn then
    { l.start e with
      lfn := put (l.start e).lfn ((order e - 1) * 13) (recordUnits e) (by
        rw [length_recordUnits]
        omega) }
  else l.start e

def text (l : LongName) : List Char :=
  fromUtf16Lossy
    ((List.ofFn l.lfn).takeWhile fun u => decide (u ≠ 0 ∧ u ≠ 0xffff))

end LongName

/-- A part of a short name, up to its padding. -/
def shortPart (bytes : List UInt8) : List Char :=
  (bytes.takeWhile (· ≠ 0x20)).map fun b => Char.ofNat b.toNat

/-- The first eleven bytes of a slot. -/
def shortBytes (e : Slot) : Bytes 11 := fun i => e ⟨i.val, by omega⟩

def shortName (raw : Bytes 11) : List Char :=
  let base := shortPart ((List.ofFn raw).take 8)
  let ext := shortPart ((List.ofFn raw).drop 8)
  if ext.isEmpty then base else base ++ '.' :: ext

/-- The name of a live entry. -/
def entryName (l : LongName) (e : Slot) : List Char :=
  if l.haveLfn ∧ ¬ l.text.isEmpty then l.text else shortName (shortBytes e)

def firstCluster (e : Slot) : Nat :=
  e.u16le 20 (by decide) * 2 ^ 16 + e.u16le 26 (by decide)

def fileSize (e : Slot) : Nat := e.u32le 28 (by decide)

def isDirectory (e : Slot) : Bool := e 11 &&& 0x10 ≠ 0

/-- What a scanner that decodes long names makes of a slot. -/
inductive Seen where
  /-- The end marker. -/
  | finished
  | skipped (l : LongName)
  | live (name : List Char)

def look (l : LongName) (e : Slot) : Seen :=
  if e 0 = 0 then .finished
  else if e 0 = 0xe5 then .skipped l.drop
  else if e 11 = 0x0f then .skipped (l.absorb e)
  else if e 11 &&& 0x08 ≠ 0 then .skipped l.drop
  else .live (entryName l e)

/-! ### Writing names -/

/-- The characters of an 8.3 name besides letters and digits. -/
def shortSpecials : List UInt8 :=
  [0x24, 0x25, 0x27, 0x2d, 0x5f, 0x40, 0x7e, 0x60, 0x21, 0x28, 0x29, 0x7b,
    0x7d, 0x5e, 0x23, 0x26]

/-- `u8::is_ascii_alphanumeric`. -/
def isAlphanumeric (b : UInt8) : Bool :=
  (0x30 ≤ b && b ≤ 0x39) || (0x41 ≤ b && b ≤ 0x5a) || (0x61 ≤ b && b ≤ 0x7a)

/-- `u8::to_ascii_uppercase`. -/
def toUppercase (b : UInt8) : UInt8 :=
  if 0x61 ≤ b && b ≤ 0x7a then b - 0x20 else b

def validPart (bytes : List UInt8) : Bool :=
  bytes.all fun b => isAlphanumeric b || shortSpecials.contains b

/-- `to_short_name`; every error is `InvalidName`. -/
def toShortName (name : List Char) : Option (Bytes 11) :=
  let parts := name.splitOn '.'
  let base := utf8Bytes (parts.getD 0 [])
  let ext := utf8Bytes (parts.getD 1 [])
  if fits : ¬ (2 < parts.length ∨ base = [] ∨ 8 < base.length ∨
      3 < ext.length) ∧ validPart base ∧ validPart ext then
    let raw : Bytes 11 := fun _ => 0x20
    let raw := raw.splice 0 (base.map toUppercase) (by
      rw [List.length_map]
      omega)
    some (raw.splice 8 (ext.map toUppercase) (by
      rw [List.length_map]
      omega))
  else none

/-- The units `lfn_records` refuses. -/
def forbiddenUnit (u : Nat) : Bool :=
  u < 0x20 || [0x22, 0x2a, 0x2f, 0x3a, 0x3c, 0x3e, 0x3f, 0x5c, 0x7c].contains u

def checksum (short : Bytes 11) : UInt8 :=
  (List.ofFn short).foldl (fun sum byte => ((sum &&& 1) <<< 7) + (sum >>> 1) +
    byte) 0

/-- Unit `i` of the records: the name, one zero, then filler. -/
def paddedUnit (units : List Nat) (i : Nat) : Nat :=
  if i < units.length then units.getD i 0
  else if i = units.length then 0
  else 0xffff

/-- The units of record `order`, at their positions. -/
def putUnits (e : Slot) (units : List Nat) (order : Nat) : Slot :=
  positions.zipIdx.foldl (fun e (p, i) =>
    e.splice p.val (leBytes 2 (paddedUnit units ((order - 1) * 13 + i))) (by
      rw [length_leBytes]
      omega)) e

def lfnRecord (units : List Nat) (sum : UInt8) (count order : Nat) : Slot :=
  let e : Slot := fun i =>
    if i = 0 then
      UInt8.ofNat order ||| if order = count then 0x40 else 0
    else if i = 11 then 0x0f
    else if i = 13 then sum
    else 0
  putUnits e units order

/-- `lfn_records`; every error is `InvalidName`. -/
def lfnRecords (name : List Char) (short : Bytes 11) : Option (List Slot) :=
  let units := encodeUtf16 name
  if units = [] ∨ 255 < units.length ∨ units.any forbiddenUnit then none
  else
    let count := (units.length + 1 + 12) / 13
    some ((List.range count).reverse.map fun i =>
      lfnRecord units (checksum short) count (i + 1))

/-! ### Aliases -/

/-- One character of an alias. -/
def sanitizeChar (c : Char) : Char :=
  if 128 ≤ c.toNat then '_'
  else
    let upper := c.toUpper
    if upper.isAlphanum ∨ shortSpecials.contains (UInt8.ofNat upper.toNat) then
      upper
    else '_'

def sanitize (part : List Char) : List Char :=
  (part.filter (· ≠ '.')).map sanitizeChar

/-- The stem and the extension aliases are made of. -/
def aliasParts (name : List Char) : Option (List Char × List Char) := do
  let (stem, ext) := (rsplitOnce '.' name).getD (name, [])
  let stem := sanitize stem
  let ext := sanitize ext
  let ext ← byteTake ext (min (len ext) 3)
  return (if stem.isEmpty then "FILE".toList else stem, ext)

/-- The parts of an alias copied over blanks; `none` is a panic. -/
def assemble (head suffix ext : List UInt8) : Option (Bytes 11) := do
  let raw : Bytes 11 := fun _ => 0x20
  let raw ← raw.copyFrom 0 head
  let raw ← raw.copyFrom head.length suffix
  raw.copyFrom 8 ext

/-- The alias with one number. -/
def numberedAlias (stem ext : List Char) (serial : Nat) : Option (Bytes 11) :=
  let suffix := '~' :: Nat.toDigits 10 serial
  (byteTake stem (min (len stem) (8 - len suffix))).bind fun head =>
    assemble (utf8Bytes head) (utf8Bytes suffix) (utf8Bytes ext)

end Eonos.Fat
