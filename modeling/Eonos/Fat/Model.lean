import Eonos.Lib.Script
import Eonos.Fat.Names

/-!
# The FAT32 file system

`fat32.rs` as scripts over its block device.  A script asks the device to read
and write sectors and keeps the two atomic fields of `Fat32` there as well; a
failed assertion, slice or subtraction panics.  Cluster numbers, sizes and
sector numbers are natural numbers, and the fields of `Fat32` carry the bounds
under which the sums of the source do not overflow.
-/

namespace Eonos.Fat

open Eonos.Lib
open Eonos.Lib.Script

def sectorSize : Nat := 512

def maxChainSteps : Nat := 1000000

abbrev Sector := Bytes 512

scoped instance sector_ne_zero : NeZero 512 := ⟨by decide⟩

theorem offset_lt (i : Nat) : i % 512 < 512 := Nat.mod_lt i (by decide)

structure DirEntry where
  name : List Char
  isDir : Bool
  size : Nat
deriving DecidableEq, Repr

structure EntryLocation where
  cluster : Nat
  offset : Nat
  firstCluster : Nat
  size : Nat
  isDir : Bool
deriving DecidableEq, Repr

/-- A mounted volume; `mount` is the only way to get one. -/
structure Fat32 where
  sectorsPerCluster : Nat
  reservedSectors : Nat
  fatCount : Nat
  sectorsPerFat : Nat
  rootCluster : Nat
  dataStart : Nat
  clusterCount : Nat
  fsinfoSector : Option Nat
  spc_pos : 0 < sectorsPerCluster
  spc_lt : sectorsPerCluster < 2 ^ 8
  reserved_pos : 0 < reservedSectors
  reserved_lt : reservedSectors < 2 ^ 16
  fatCount_pos : 0 < fatCount
  fatCount_lt : fatCount < 2 ^ 8
  sectorsPerFat_lt : sectorsPerFat < 2 ^ 32
  dataStart_eq : dataStart = reservedSectors + fatCount * sectorsPerFat
  count_pos : 0 < clusterCount
  count_le : clusterCount ≤ 0x0ffffff5
  entries_fit : clusterCount + 2 ≤ sectorsPerFat * 128
  root_low : 2 ≤ rootCluster
  root_high : rootCluster < clusterCount + 2
  extent_lt : dataStart + clusterCount * sectorsPerCluster < 2 ^ 32
  fsinfo_inside : ∀ s, fsinfoSector = some s → 0 < s ∧ s < reservedSectors

namespace Fat32

/-- `cluster_count + 2`, one past the last cluster. -/
def clusterEnd (v : Fat32) : Nat := v.clusterCount + 2

/-- `next_cluster` and `cluster_lba` accept only such a number. -/
def IsCluster (v : Fat32) (c : Nat) : Prop := 2 ≤ c ∧ c < v.clusterEnd

instance (v : Fat32) (c : Nat) : Decidable (v.IsCluster c) :=
  inferInstanceAs (Decidable (_ ∧ _))

def clusterBytes (v : Fat32) : Nat := v.sectorsPerCluster * sectorSize

/-- One past the last sector of the clusters. -/
def extent (v : Fat32) : Nat :=
  v.dataStart + v.clusterCount * v.sectorsPerCluster

end Fat32

/-! ### The device -/

/-- What a script asks for.  The last five are the atomic fields. -/
inductive Call where
  | readSector (lba : Nat)
  | writeSector (lba : Nat) (data : Sector)
  | flush
  | loadHint
  | storeHint (cluster : Nat)
  | fetchMinHint (cluster : Nat)
  | loadInvalidated
  | storeInvalidated

/-- `none` is an error of the device. -/
def Call.Answer : Call → Type
  | .readSector _ => Option Sector
  | .writeSector _ _ => Option Unit
  | .flush => Option Unit
  | .loadHint => Nat
  | .loadInvalidated => Bool
  | _ => Unit

abbrev FatIo := Script Call Call.Answer FatError

def readSector (lba : Nat) : FatIo Sector := do
  let answer : Option Sector ← ask (Call.readSector lba)
  okOr .io answer

def writeSector (lba : Nat) (data : Sector) : FatIo Unit := do
  let answer : Option Unit ← ask (Call.writeSector lba data)
  okOr .io answer

def loadHint : FatIo Nat := ask Call.loadHint

def storeHint (cluster : Nat) : FatIo Unit := ask (Call.storeHint cluster)

def fetchMinHint (cluster : Nat) : FatIo Unit := ask (Call.fetchMinHint cluster)

def loadInvalidated : FatIo Bool := ask Call.loadInvalidated

def storeInvalidated : FatIo Unit := ask Call.storeInvalidated

/-- A sum or product of `u64` or `usize`, which must not overflow. -/
def checked (n : Nat) : FatIo Nat := unwrap (if n < 2 ^ 64 then some n else none)

/-- A subtraction, which must not underflow. -/
def minus (a b : Nat) : FatIo Nat := unwrap (if b ≤ a then some (a - b) else none)

/-! ### Mounting -/

/-- `u8::is_power_of_two`. -/
def isPowerOfTwo (n : Nat) : Bool := (List.range 8).any fun k => n == 2 ^ k

/-- `total_sectors` of a boot sector. -/
def totalSectors (b : Sector) : Nat :=
  if b.u16le 19 (by decide) ≠ 0 then b.u16le 19 (by decide)
  else b.u32le 32 (by decide)

theorem totalSectors_lt (b : Sector) : totalSectors b < 2 ^ 32 := by
  unfold totalSectors
  split
  · have := b.u16le_lt (show 19 + 1 < 512 by decide)
    omega
  · exact b.u32le_lt (by decide)

/-- The checks of `mount` before the geometry. -/
def Unsupported (b : Sector) (sectorCount : Nat) : Prop :=
  b.u16le 11 (by decide) ≠ sectorSize ∨ (b 13).toNat = 0 ∨
    isPowerOfTwo (b 13).toNat = false ∨ b.u16le 14 (by decide) = 0 ∨
    (b 16).toNat = 0 ∨ b.u32le 36 (by decide) = 0 ∨
    b.u16le 17 (by decide) ≠ 0 ∨ b.u16le 22 (by decide) ≠ 0 ∨
    sectorCount < totalSectors b

def bootDataStart (b : Sector) : Nat :=
  b.u16le 14 (by decide) + (b 16).toNat * b.u32le 36 (by decide)

def bootClusters (b : Sector) : Nat :=
  (totalSectors b - bootDataStart b) / (b 13).toNat % 2 ^ 32

def bootRoot (b : Sector) : Nat := b.u32le 44 (by decide) % 2 ^ 28

/-- The checks of the geometry. -/
def Inconsistent (b : Sector) : Prop :=
  bootClusters b < 1 ∨ 0x0ffffff5 < bootClusters b ∨
    b.u32le 36 (by decide) * sectorSize / 4 < bootClusters b + 2 ∨
    bootRoot b < 2 ∨ bootClusters b + 2 ≤ bootRoot b

instance (b : Sector) (sectorCount : Nat) :
    Decidable (Unsupported b sectorCount) :=
  inferInstanceAs (Decidable (_ ∨ _))

instance (b : Sector) : Decidable (Inconsistent b) :=
  inferInstanceAs (Decidable (_ ∨ _))

def bootFsinfo (b : Sector) : Option Nat :=
  if b.u16le 48 (by decide) ≠ 0 ∧
      b.u16le 48 (by decide) < b.u16le 14 (by decide) then
    some (b.u16le 48 (by decide))
  else none

theorem bootFsinfo_inside (b : Sector) (s : Nat) (found : bootFsinfo b = some s) :
    0 < s ∧ s < b.u16le 14 (by decide) := by
  unfold bootFsinfo at found
  split at found
  · rename_i inside
    cases found
    exact ⟨Nat.pos_of_ne_zero inside.1, inside.2⟩
  · cases found

/-- The clusters end within the sectors of the volume. -/
theorem boot_extent {b : Sector} (room : ¬ totalSectors b ≤ bootDataStart b) :
    bootDataStart b + bootClusters b * (b 13).toNat ≤ totalSectors b := by
  have least : bootClusters b ≤ (totalSectors b - bootDataStart b) / (b 13).toNat := Nat.mod_le _ _
  have product := (Nat.mul_le_mul_right _ least).trans (Nat.div_mul_le_self _ _)
  omega

/-- `mount`, behind the read of the boot sector.  The checked sums of the
source cannot overflow. -/
def mountBoot (b : Sector) (sectorCount : Nat) : Except FatError Fat32 :=
  if b 510 ≠ 0x55 ∨ b 511 ≠ 0xaa then .error .invalidBootSector
  else if refused : Unsupported b sectorCount then .error .unsupported
  else if room : totalSectors b ≤ bootDataStart b then
    .error .invalidBootSector
  else if broken : Inconsistent b then .error .invalidBootSector
  else .ok {
    sectorsPerCluster := (b 13).toNat
    reservedSectors := b.u16le 14 (by decide)
    fatCount := (b 16).toNat
    sectorsPerFat := b.u32le 36 (by decide)
    rootCluster := bootRoot b
    dataStart := bootDataStart b
    clusterCount := bootClusters b
    fsinfoSector := bootFsinfo b
    spc_pos := by unfold Unsupported at refused; omega
    spc_lt := (b 13).toNat_lt
    reserved_pos := by unfold Unsupported at refused; omega
    reserved_lt := b.u16le_lt _
    fatCount_pos := by unfold Unsupported at refused; omega
    fatCount_lt := (b 16).toNat_lt
    sectorsPerFat_lt := b.u32le_lt _
    dataStart_eq := rfl
    count_pos := by unfold Inconsistent at broken; omega
    count_le := by unfold Inconsistent at broken; omega
    entries_fit := by unfold Inconsistent sectorSize at broken; omega
    root_low := by unfold Inconsistent at broken; omega
    root_high := by unfold Inconsistent at broken; omega
    extent_lt := (boot_extent room).trans_lt (totalSectors_lt b)
    fsinfo_inside := bootFsinfo_inside b }

/-- The argument is `sector_count` of the device. -/
def mount (sectorCount : Nat) : FatIo Fat32 := do
  let b ← readSector 0
  done (mountBoot b sectorCount)

def flush : FatIo (Option Unit) := ask Call.flush

/-! ### The allocation table -/

/-- The FSInfo sector with its two hints cleared, if it is one. -/
def clearFsinfo (no : Nat) (sector : Sector) : FatIo Unit :=
  if sector.u32le 0 (by decide) = 0x41615252 ∧
      sector.u32le 484 (by decide) = 0x61417272 ∧
      sector.u32le 508 (by decide) = 0xaa550000 then
    writeSector no ((sector.splice 488 (leBytes 4 0xffffffff)
      (by decide)).splice 492 (leBytes 4 0xffffffff) (by decide))
  else pure ()

def invalidateFsinfoHint (v : Fat32) : FatIo Unit := do
  if ← loadInvalidated then return ()
  else
    match v.fsinfoSector with
    | none => storeInvalidated
    | some no => do
        let sector ← readSector no
        clearFsinfo no sector
        storeInvalidated

/-- The sector of a FAT copy that holds the entry of a cluster. -/
def sectorInFat (cluster : Nat) : Nat := cluster * 4 / sectorSize

/-- The entry of a cluster in its sector, with the four reserved bits. -/
def entryIn (sector : Sector) (cluster : Nat) : Nat :=
  sector.u32le (cluster * 4 % 512) (by omega)

/-- The sector with the low 28 bits of one entry replaced. -/
def patchEntry (sector : Sector) (cluster value : Nat) : Sector :=
  sector.splice (cluster * 4 % 512)
    (leBytes 4 (entryIn sector cluster / 2 ^ 28 * 2 ^ 28 + value % 2 ^ 28)) (by
      rw [length_leBytes]
      omega)

def fatEntry (v : Fat32) (cluster : Nat) : FatIo Nat := do
  require (cluster < v.clusterEnd) .corrupt
  require (sectorInFat cluster < v.sectorsPerFat) .corrupt
  let sector ← readSector (v.reservedSectors + sectorInFat cluster)
  return entryIn sector cluster % 2 ^ 28

/-- One FAT copy of `set_fat_entry`. -/
def setFatCopy (v : Fat32) (cluster value fat : Nat) : FatIo Unit := do
  let lba := v.reservedSectors + fat * v.sectorsPerFat + sectorInFat cluster
  let sector ← readSector lba
  writeSector lba (patchEntry sector cluster value)

def setFatEntry (v : Fat32) (cluster value : Nat) : FatIo Unit := do
  require (cluster < v.clusterEnd) .corrupt
  require (sectorInFat cluster < v.sectorsPerFat) .corrupt
  invalidateFsinfoHint v
  (List.range v.fatCount).forM (setFatCopy v cluster value)

def clusterLba (v : Fat32) (cluster : Nat) : FatIo Nat := do
  require (v.IsCluster cluster) .corrupt
  return v.dataStart + (cluster - 2) * v.sectorsPerCluster

def zeroCluster (v : Fat32) (cluster : Nat) : FatIo Unit := do
  let first ← clusterLba v cluster
  (List.range v.sectorsPerCluster).forM fun sector =>
    writeSector (first + sector) fun _ => 0

/-- The end-of-chain mark the code writes. -/
def endOfChain : Nat := 0x0fffffff

/-- A free cluster is marked, zeroed and remembered. -/
def claimCluster (v : Fat32) (cluster : Nat) : FatIo Nat := do
  setFatEntry v cluster endOfChain
  match ← attempt (zeroCluster v cluster) with
  | .error e => do
      let _ ← attempt (setFatEntry v cluster 0)
      fail e
  | .ok _ => do
      storeHint (if cluster = v.clusterCount + 1 then 2 else cluster + 1)
      return cluster

def allocateLoop (v : Fat32) (start : Nat) : Nat → Nat → FatIo Nat
  | 0, _ => fail .noSpace
  | left + 1, step => do
      let cluster := 2 + (start - 2 + step) % v.clusterCount
      if (← fatEntry v cluster) = 0 then claimCluster v cluster
      else allocateLoop v start left (step + 1)

/-- `clamp(2, count + 1)`. -/
def clampHint (v : Fat32) (hint : Nat) : Nat :=
  max 2 (min hint (v.clusterCount + 1))

def allocateCluster (v : Fat32) : FatIo Nat := do
  let hint ← loadHint
  allocateLoop v (clampHint v hint) v.clusterCount 0

/-- What an entry says about the cluster that follows. -/
def decodeLink (v : Fat32) (next : Nat) : Except FatError (Option Nat) :=
  if 0x0ffffff8 ≤ next then .ok none
  else if next = 0 ∨ next = 1 ∨ (0x0ffffff0 ≤ next ∧ next ≤ 0x0ffffff7) then
    .error .corrupt
  else if next < 2 ∨ v.clusterEnd ≤ next then .error .corrupt
  else .ok (some next)

def nextCluster (v : Fat32) (cluster : Nat) : FatIo (Option Nat) := do
  require (v.IsCluster cluster) .corrupt
  let next ← fatEntry v cluster
  done (decodeLink v next)

/-! ### Reading clusters -/

def readSectors : Nat → Nat → FatIo (List Sector)
  | _, 0 => return []
  | first, count + 1 => do
      let sector ← readSector first
      let rest ← readSectors (first + 1) count
      return sector :: rest

/-- The bytes of a cluster, as the sectors they come from. -/
def readCluster (v : Fat32) (cluster : Nat) : FatIo (List Sector) := do
  let first ← clusterLba v cluster
  readSectors first v.sectorsPerCluster

/-- The records of a sector. -/
def sectorSlots (s : Sector) : List Slot :=
  List.ofFn fun i : Fin 16 => fun j => s ⟨32 * i.val + j.val, by omega⟩

/-- `data.chunks_exact(32)`. -/
def slots (data : List Sector) : List Slot := data.flatMap sectorSlots

/-! ### Scanning directories -/

section

variable {σ β : Type}

/-- One loop over slots, the first of which has the number given; the step
returns or goes on. -/
def scanSlots (step : Nat → Slot → σ → β ⊕ σ) :
    Nat → List Slot → σ → β ⊕ σ
  | _, [], s => .inr s
  | index, e :: rest, s =>
    match step index e s with
    | .inl b => .inl b
    | .inr s => scanSlots step (index + 1) rest s

/-- The loop over the clusters of a chain that the scanners share, with a limit
on its rounds. -/
def scanChain (v : Fat32) (step : Nat → Nat → Slot → σ → β ⊕ σ) :
    Nat → Nat → σ → FatIo (β ⊕ σ)
  | 0, _, _ => fail .corrupt
  | left + 1, cluster, s => do
      let data ← readCluster v cluster
      match scanSlots (step cluster) 0 (slots data) s with
      | .inl b => return .inl b
      | .inr s =>
        match ← nextCluster v cluster with
        | none => return .inr s
        | some next => scanChain v step left next s

end

/-- An entry of a listing and its first cluster. -/
abbrev Listed := DirEntry × Nat

def isDots (name : List Char) : Bool := name == ['.'] || name == ['.', '.']

/-- One slot of `directory_entries`. -/
def listStep (_ _ : Nat) (e : Slot) (s : LongName × List Listed) :
    List Listed ⊕ (LongName × List Listed) :=
  match look s.1 e with
  | .finished => .inl s.2
  | .skipped l => .inr (l, s.2)
  | .live name =>
    if isDots name then .inr (s.1.drop, s.2)
    else
      .inr (s.1.drop,
        s.2 ++ [(⟨name, isDirectory e, fileSize e⟩, firstCluster e)])

def directoryEntries (v : Fat32) (cluster : Nat) : FatIo (List Listed) := do
  match ← scanChain v listStep maxChainSteps cluster (.empty, []) with
  | .inl out => return out
  | .inr (_, out) => return out

/-- A live entry at its place. -/
def locate (cluster index : Nat) (e : Slot) : EntryLocation :=
  ⟨cluster, index * 32, firstCluster e, fileSize e, isDirectory e⟩

/-- One slot of `find_short_entry`. -/
def findShortStep (short : Bytes 11) (cluster index : Nat) (e : Slot)
    (_ : Unit) : Option EntryLocation ⊕ Unit :=
  if e 0 = 0 then .inl none
  else if e 0 = 0xe5 ∨ e 11 = 0x0f ∨ e 11 &&& 0x08 ≠ 0 then .inr ()
  else if shortBytes e = short then .inl (some (locate cluster index e))
  else .inr ()

def findShortEntry (v : Fat32) (directory : Nat) (short : Bytes 11) :
    FatIo (Option EntryLocation) := do
  match ← scanChain v (findShortStep short) v.clusterCount directory () with
  | .inl found => return found
  | .inr _ => return none

/-- One slot of `find_named_entry`. -/
def findNamedStep (name : List Char) (cluster index : Nat) (e : Slot)
    (l : LongName) : Option EntryLocation ⊕ LongName :=
  match look l e with
  | .finished => .inl none
  | .skipped l => .inr l
  | .live entryName =>
    if eqIgnoreAsciiCase entryName name then
      .inl (some (locate cluster index e))
    else .inr l.drop

def findNamedEntry (v : Fat32) (directory : Nat) (name : List Char) :
    FatIo (Option EntryLocation) := do
  match ← scanChain v (findNamedStep name) v.clusterCount directory
      .empty with
  | .inl found => return found
  | .inr _ => return none

/-! ### Paths -/

def rootEntry : DirEntry := ⟨['/'], true, 0⟩

/-- The loop of `resolve`; `last` is what the components so far led to. -/
def resolveLoop (v : Fat32) :
    List (List Char) → Nat → Option Listed → FatIo Listed
  | [], cluster, last => return last.getD (rootEntry, cluster)
  | component :: rest, cluster, last =>
    if component = [] ∨ component = ['.'] then
      resolveLoop v rest cluster last
    else if component = ['.', '.'] then fail .notFound
    else if last.any fun found => !found.1.isDir then fail .notDirectory
    else do
      let entries ← directoryEntries v cluster
      let found ← okOr .notFound
        (entries.find? fun entry => eqIgnoreAsciiCase entry.1.name component)
      resolveLoop v rest found.2 (some found)

def resolve (v : Fat32) (path : List Char) : FatIo Listed :=
  let clean := trimMatches '/' path
  if clean = [] then return (rootEntry, v.rootCluster)
  else resolveLoop v (clean.splitOn '/') v.rootCluster none

def stat (v : Fat32) (path : List Char) : FatIo DirEntry := do
  let found ← resolve v path
  return found.1

def list (v : Fat32) (path : List Char) : FatIo (List DirEntry) := do
  let (entry, cluster) ← resolve v path
  require (entry.isDir = true) .notDirectory
  let entries ← directoryEntries v cluster
  return entries.map Prod.fst

/-- Byte `i` of a cluster. -/
def byteAt (data : List Sector) (i : Nat) : Option UInt8 :=
  data[i / 512]?.map fun s => s ⟨i % 512, offset_lt i⟩

/-- `data[from..from + n]`. -/
def slice (data : List Sector) (start n : Nat) : Option (List UInt8) :=
  (List.range n).mapM fun i => byteAt data (start + i)

/-- The first loop of `read_at`: it passes over whole clusters. -/
def skipLoop (v : Fat32) : Nat → Nat → Nat → FatIo (Nat × Nat)
  | 0, cluster, steps => return (cluster, steps)
  | skip + 1, cluster, steps => do
      let next ← nextCluster v cluster
      let cluster ← okOr .corrupt next
      require (steps + 1 ≤ maxChainSteps) .corrupt
      skipLoop v skip cluster (steps + 1)

/-- The second loop of `read_at`.  Every round reads a byte or fails, so the
bytes wanted bound the rounds. -/
def readLoop (v : Fat32) (wanted : Nat) :
    Nat → Nat → Nat → Nat → List UInt8 → FatIo (List UInt8)
  | 0, _, _, _, out => return out
  | left + 1, cluster, inCluster, steps, out =>
    if wanted ≤ out.length then return out
    else do
      require (steps < maxChainSteps) .corrupt
      let data ← readCluster v cluster
      let missing ← minus wanted out.length
      let rest ← minus v.clusterBytes inCluster
      let bytes ← unwrap (slice data inCluster (min missing rest))
      let out := out ++ bytes
      if out.length < wanted then do
        let next ← nextCluster v cluster
        let cluster ← okOr .corrupt next
        readLoop v wanted left cluster 0 (steps + 1) out
      else return out

/-- The bytes that `read_at` puts into a buffer of `size` bytes. -/
def readAt (v : Fat32) (path : List Char) (offset size : Nat) :
    FatIo (List UInt8) := do
  let (entry, cluster) ← resolve v path
  require (entry.isDir = false) .isDirectory
  if entry.size ≤ offset ∨ size = 0 then return []
  else do
    let wanted := min size (entry.size - offset)
    let (cluster, steps) ← skipLoop v (offset / v.clusterBytes) cluster 0
    readLoop v wanted wanted cluster (offset % v.clusterBytes) steps []

def readFile (v : Fat32) (path : List Char) : FatIo (List UInt8) := do
  let entry ← stat v path
  require (entry.isDir = false) .isDirectory
  require (entry.size ≤ 64 * 1024 * 1024) .tooLarge
  let result ← readAt v path 0 entry.size
  require (result.length = entry.size) .corrupt
  return result

/-- The characters `parent_and_name` refuses in a name. -/
def forbiddenChars : List Char :=
  [Char.ofNat 0x5c, ':', '*', '?', Char.ofNat 0x22, '<', '>', '|']

/-- The directory that `parent_and_name` finds. -/
def resolveParent (v : Fat32) (path : List Char) : FatIo Nat :=
  if path = [] then return v.rootCluster
  else do
    let (entry, cluster) ← resolve v path
    require (entry.isDir = true) .notDirectory
    return cluster

def parentAndName (v : Fat32) (path : List Char) :
    FatIo (Nat × List Char) := do
  let clean := trimMatches '/' path
  let (parentPath, name) := (rsplitOnce '/' clean).getD ([], clean)
  require (¬ (name = [] ∨ isDots name)) .invalidName
  let parent ← resolveParent v parentPath
  require (len name ≤ 255 ∧ ¬ (name.getLast? = some '.' ∨
    name.getLast? = some ' ' ∨ name.any forbiddenChars.contains)) .invalidName
  return (parent, name)

/-! ### Short aliases -/

def aliasLoop (v : Fat32) (directory : Nat) (stem ext : List Char) :
    Nat → Nat → FatIo (Bytes 11)
  | 0, _ => fail .noSpace
  | left + 1, serial => do
      let raw ← unwrap (numberedAlias stem ext serial)
      if (← findShortEntry v directory raw).isNone then return raw
      else aliasLoop v directory stem ext left (serial + 1)

/-- The part of `choose_short_alias` behind the plain name. -/
def chooseNumbered (v : Fat32) (directory : Nat) (name : List Char) :
    FatIo (Bytes 11) := do
  let (stem, ext) ← unwrap (aliasParts name)
  aliasLoop v directory stem ext 99999 1

def chooseShortAlias (v : Fat32) (directory : Nat) (name : List Char) : FatIo (Bytes 11) :=
  match toShortName name with
  | none => chooseNumbered v directory name
  | some short => do
      if (← findShortEntry v directory short).isNone then return short
      else chooseNumbered v directory name

/-! ### Writing directories -/

def writeDirectoryBytes (v : Fat32) (cluster offset : Nat)
    (bytes : List UInt8) : FatIo Unit := do
  let first ← clusterLba v cluster
  let lba ← checked (first + offset / sectorSize)
  if inside : offset % sectorSize + bytes.length ≤ 512 then do
    let sector ← readSector lba
    writeSector lba (sector.splice (offset % sectorSize) bytes inside)
  else fail .corrupt

/-- The slot at a place of a sector. -/
def slotAt (sector : Sector) (start : Nat) : Option Slot :=
  if inside : start + 32 ≤ 512 then
    some fun i => sector ⟨start + i.val, by omega⟩
  else none

def readEntry (v : Fat32) (location : EntryLocation) : FatIo Slot := do
  let first ← clusterLba v location.cluster
  let lba ← checked (first + location.offset / sectorSize)
  let sector ← readSector lba
  unwrap (slotAt sector (location.offset % sectorSize))

def writeEntry (v : Fat32) (location : EntryLocation) (entry : Slot) : FatIo Unit :=
  writeDirectoryBytes v location.cluster location.offset (List.ofFn entry)

/-- An entry with another first cluster and size. -/
def withMetadata (entry : Slot) (first size : Nat) : Slot :=
  ((entry.splice 20 (leBytes 2 (first / 2 ^ 16)) (by simp)).splice 26
    (leBytes 2 first) (by simp)).splice 28 (leBytes 4 size) (by simp)

def writeEntryMetadata (v : Fat32) (location : EntryLocation)
    (first size : Nat) : FatIo Unit := do
  let entry ← readEntry v location
  writeEntry v location (withMetadata entry first size)

/-! ### Chains -/

def collectLoop (v : Fat32) : Nat → Nat → FatIo (List Nat)
  | 0, _ => fail .corrupt
  | left + 1, cluster => do
      match ← nextCluster v cluster with
      | none => return [cluster]
      | some next => do
          let rest ← collectLoop v left next
          return cluster :: rest

def collectChain (v : Fat32) (first : Nat) : FatIo (List Nat) :=
  if first = 0 then return [] else collectLoop v v.clusterCount first

def releaseChain (v : Fat32) (chain : List Nat) : FatIo Unit :=
  chain.forM fun cluster => do
    setFatEntry v cluster 0
    fetchMinHint cluster

/-- The last cluster of the chain as it was ends it again. -/
def restoreEnd (v : Fat32) (chain : List Nat) : Nat → FatIo Unit
  | 0 => return ()
  | n + 1 => do
      let last ← unwrap chain[n]?
      let _ ← attempt (setFatEntry v last endOfChain)
      return ()

/-- `Vec::split_off`: what it returns. -/
def splitOff (chain : List Nat) (n : Nat) : Option (List Nat) :=
  if n ≤ chain.length then some (chain.drop n) else none

def rollbackChainGrowth (v : Fat32) (chain : List Nat) (originalLen : Nat) :
    FatIo Unit := do
  restoreEnd v chain originalLen
  let added ← unwrap (splitOff chain originalLen)
  let _ ← attempt (releaseChain v added)
  return ()

/-- The new cluster becomes the next one of the last. -/
def linkLast (v : Fat32) (chain : List Nat) (originalLen newCluster : Nat) : FatIo Unit :=
  match chain.getLast? with
  | none => return ()
  | some previous => do
      match ← attempt (setFatEntry v previous newCluster) with
      | .ok _ => return ()
      | .error e => do
          let _ ← attempt (setFatEntry v newCluster 0)
          rollbackChainGrowth v chain originalLen
          fail e

def ensureLoop (v : Fat32) (originalLen : Nat) :
    Nat → List Nat → FatIo (List Nat)
  | 0, chain => return chain
  | left + 1, chain => do
      match ← attempt (allocateCluster v) with
      | .error e => do
          rollbackChainGrowth v chain originalLen
          fail e
      | .ok newCluster => do
          linkLast v chain originalLen newCluster
          ensureLoop v originalLen left (chain ++ [newCluster])

/-- The chain with at least `needed` clusters. -/
def ensureChain (v : Fat32) (chain : List Nat) (needed : Nat) : FatIo (List Nat) :=
  ensureLoop v chain.length (needed - chain.length) chain

/-- The loop of `write_chain_range`.  Every round writes a byte or fails, so the
bytes left bound the rounds. -/
def writeChainLoop (v : Fat32) (chain : List Nat) :
    Nat → Nat → List UInt8 → FatIo Unit
  | 0, _, _ => return ()
  | left + 1, offset, data =>
    if data = [] then return ()
    else do
      let cluster ← okOr .corrupt chain[offset / v.clusterBytes]?
      let inCluster := offset % v.clusterBytes
      let inSector := inCluster % 512
      let first ← clusterLba v cluster
      let lba ← checked (first + inCluster / sectorSize)
      let sector ← readSector lba
      writeSector lba (sector.splice inSector (data.take (512 - inSector)) (by
        rw [List.length_take]
        omega))
      let n := min data.length (512 - inSector)
      let offset ← checked (offset + n)
      writeChainLoop v chain left offset (data.drop n)

def writeChainRange (v : Fat32) (chain : List Nat) (offset : Nat)
    (data : List UInt8) : FatIo Unit :=
  writeChainLoop v chain data.length offset data

/-- The loop of `write_zero_range`, bounded in the same way. -/
def writeZeroLoop (v : Fat32) (chain : List Nat) :
    Nat → Nat → Nat → FatIo Unit
  | 0, _, _ => return ()
  | left + 1, offset, size =>
    if size = 0 then return ()
    else do
      let n := min size (sectorSize - offset % sectorSize)
      writeChainRange v chain offset (List.replicate n 0)
      let offset ← checked (offset + n)
      writeZeroLoop v chain left offset (size - n)

def writeZeroRange (v : Fat32) (chain : List Nat) (offset size : Nat) : FatIo Unit :=
  writeZeroLoop v chain size offset size

/-! ### Growing directories -/

/-- From the end marker on every slot is marked as deleted.  The result tells
whether the marker was met. -/
def markSlots (v : Fat32) (cluster : Nat) :
    Nat → List Slot → Bool → FatIo Bool
  | _, [], afterEnd => return afterEnd
  | index, e :: rest, afterEnd =>
    if afterEnd = true ∨ e 0 = 0 then do
      writeDirectoryBytes v cluster (index * 32) [0xe5]
      markSlots v cluster (index + 1) rest true
    else markSlots v cluster (index + 1) rest false

def markTail (v : Fat32) : List Nat → Bool → FatIo Unit
  | [], _ => return ()
  | cluster :: rest, afterEnd => do
      let data ← readCluster v cluster
      let afterEnd ← markSlots v cluster 0 (slots data) afterEnd
      markTail v rest afterEnd

/-- A failed step gives back the clusters that were added. -/
def orRelease {α : Type} (v : Fat32) (added : List Nat) (x : FatIo α) :
    FatIo α := do
  match ← attempt x with
  | .ok a => return a
  | .error e => do
      let _ ← attempt (releaseChain v added)
      fail e

def addClusters (v : Fat32) : Nat → List Nat → FatIo (List Nat)
  | 0, added => return added
  | left + 1, added => do
      let cluster ← orRelease v added (allocateCluster v)
      addClusters v left (added ++ [cluster])

/-- `added.windows(2)`. -/
def windows : List Nat → List (Nat × Nat)
  | a :: b :: rest => (a, b) :: windows (b :: rest)
  | _ => []

def writeRecords (v : Fat32) (added : List Nat) : Nat → List Slot → FatIo Unit
  | _, [] => return ()
  | i, record :: rest => do
      let offset ← checked (i * 32)
      let cluster ← unwrap added[offset / v.clusterBytes]?
      writeDirectoryBytes v cluster (offset % v.clusterBytes)
        (List.ofFn record)
      writeRecords v added (i + 1) rest

def appendDirectoryRecords (v : Fat32) (directory : Nat)
    (records : List Slot) : FatIo Unit := do
  let chain ← collectChain v directory
  let tail ← okOr .corrupt chain.getLast?
  markTail v chain false
  let bytes ← checked ((records.length + 1) * 32)
  let added ← addClusters v ((bytes + v.clusterBytes - 1) / v.clusterBytes) []
  (windows added).forM fun (a, b) => orRelease v added (setFatEntry v a b)
  let first ← unwrap added[0]?
  orRelease v added (setFatEntry v tail first)
  writeRecords v added 0 records

/-! ### The operations -/

/-- A short entry. -/
def shortEntry (short : Bytes 11) (attr : UInt8) (cluster : Nat) : Slot :=
  withMetadata (fun i =>
    if inside : i.val < 11 then short ⟨i.val, inside⟩
    else if i = 11 then attr
    else 0) cluster 0

def createFile (v : Fat32) (path : List Char) : FatIo Unit := do
  let (parent, name) ← parentAndName v path
  match ← findNamedEntry v parent name with
  | some existing => require (existing.isDir = false) .isDirectory
  | none => do
      let short ← chooseShortAlias v parent name
      let records ← okOr .invalidName (lfnRecords name short)
      appendDirectoryRecords v parent (records ++ [shortEntry short 0x20 0])

/-- `.` and `..`, padded. -/
def dotName (dots : Nat) : Bytes 11 :=
  fun i => if i.val < dots then 0x2e else 0x20

/-- The closure of `create_dir`. -/
def fillDirectory (v : Fat32) (parent : Nat) (name : List Char)
    (cluster : Nat) : FatIo Unit := do
  writeDirectoryBytes v cluster 0
    (List.ofFn (shortEntry (dotName 1) 0x10 cluster))
  writeDirectoryBytes v cluster 32
    (List.ofFn (shortEntry (dotName 2) 0x10 parent))
  let short ← chooseShortAlias v parent name
  let records ← okOr .invalidName (lfnRecords name short)
  appendDirectoryRecords v parent (records ++ [shortEntry short 0x10 cluster])

def createDir (v : Fat32) (path : List Char) : FatIo Unit := do
  let (parent, name) ← parentAndName v path
  let existing ← findNamedEntry v parent name
  require (existing = none) .alreadyExists
  let cluster ← allocateCluster v
  orRelease v [cluster] (fillDirectory v parent name cluster)

/-- The slots `remove` deletes: the entry and the long-name records before it.
The first list is `pending`, the second `found`. -/
def removalSlots (location : EntryLocation) (cluster : Nat) :
    Nat → List Slot → List EntryLocation →
      List EntryLocation × List EntryLocation
  | _, [], pending => (pending, [])
  | index, e :: rest, pending =>
    if e 0 = 0 then (pending, [])
    else if e 0 = 0xe5 then
      removalSlots location cluster (index + 1) rest []
    else
      let loc : EntryLocation := ⟨cluster, index * 32, 0, 0, false⟩
      if e 11 = 0x0f then
        removalSlots location cluster (index + 1) rest (pending ++ [loc])
      else if cluster = location.cluster ∧ index * 32 = location.offset then
        ([], pending ++ [loc])
      else removalSlots location cluster (index + 1) rest []

def findRemoval (v : Fat32) (location : EntryLocation) :
    List Nat → List EntryLocation → FatIo (List EntryLocation)
  | [], _ => return []
  | cluster :: rest, pending => do
      let data ← readCluster v cluster
      let (pending, found) :=
        removalSlots location cluster 0 (slots data) pending
      if found = [] then findRemoval v location rest pending
      else return found

/-- A slot marked as deleted. -/
def deleteSlot (v : Fat32) (location : EntryLocation) : FatIo Unit := do
  let entry ← readEntry v location
  writeEntry v location (Function.update entry 0 0xe5)

/-- Only empty directories are removed. -/
def checkRemovable (v : Fat32) (location : EntryLocation) : FatIo Unit :=
  if location.isDir then do
    let entries ← directoryEntries v location.firstCluster
    require (entries = []) .directoryNotEmpty
  else return ()

def remove (v : Fat32) (path : List Char) : FatIo Unit := do
  let (parent, name) ← parentAndName v path
  let entry ← findNamedEntry v parent name
  let location ← okOr .notFound entry
  checkRemovable v location
  let chain ← collectChain v location.firstCluster
  let dirChain ← collectChain v parent
  let found ← findRemoval v location dirChain []
  require (found ≠ []) .corrupt
  found.forM (deleteSlot v)
  releaseChain v chain

def truncate (v : Fat32) (path : List Char) : FatIo Unit := do
  let (parent, name) ← parentAndName v path
  let entry ← findNamedEntry v parent name
  let location ← okOr .notFound entry
  require (location.isDir = false) .isDirectory
  let chain ← collectChain v location.firstCluster
  writeEntryMetadata v location 0 0
  releaseChain v chain

/-- The zeros before the data, if the file ends before it. -/
def fillGap (v : Fat32) (chain : List Nat) (size offset : Nat) : FatIo Unit :=
  if size < offset then writeZeroRange v chain size (offset - size)
  else return ()

/-- The closure of `write_at`. -/
def storeData (v : Fat32) (chain : List Nat) (location : EntryLocation)
    (offset : Nat) (data : List UInt8) : FatIo Unit := do
  fillGap v chain location.size offset
  writeChainRange v chain offset data
  writeEntryMetadata v location (chain.head?.getD 0)
    (max location.size (offset + data.length))

/-- `write_at` behind the lookup of the entry. -/
def writeLocated (v : Fat32) (location : EntryLocation) (offset : Nat)
    (data : List UInt8) : FatIo Nat := do
  require (location.isDir = false) .isDirectory
  let chain ← collectChain v location.firstCluster
  let needed := (max location.size (offset + data.length) +
    (v.clusterBytes - 1)) / v.clusterBytes
  let grown ← ensureChain v chain needed
  match ← attempt (storeData v grown location offset data) with
  | .ok _ => return data.length
  | .error e =>
    if chain.length < grown.length then do
      rollbackChainGrowth v grown chain.length
      fail e
    else fail e

def writeAt (v : Fat32) (path : List Char) (offset : Nat) (data : List UInt8) : FatIo Nat :=
  if data = [] then return 0
  else if 2 ^ 32 ≤ offset + data.length then fail .tooLarge
  else do
    let (parent, name) ← parentAndName v path
    let entry ← findNamedEntry v parent name
    let location ← okOr .notFound entry
    writeLocated v location offset data

end Eonos.Fat
