import Eonos.Lib.Bytes

/-!
# Looking at a disk

`fs_probe::inspect` over any device.  A slice outside its array, a failed
conversion, and arithmetic that overflows or divides by zero panic: they have no
result.  All but one multiplication are safe whatever is on the disk.
-/

namespace Eonos.Probe

open Eonos.Lib

inductive FsType where
  | fat32 | vfat | exFat | ntfs | ext4 | linuxSwap | unknown
deriving DecidableEq, Repr

/-- A text as the source builds it, before it is decoded or formatted. -/
inductive Text where
  | plain (text : String)
  | utf8 (bytes : List UInt8)
  | utf16 (units : List Nat)
  | hex (digits value : Nat)
  | serial (high low : Nat)
  | version (major minor : Nat)
  | decimal (value : Nat)
  | uuid (digits : List Char)
deriving DecidableEq, Repr

structure FsInfo where
  kind : FsType
  version : Text := .plain ""
  label : Text := .plain ""
  uuid : Text := .plain ""
  available : Option Nat := none
  usedPercent : Option Nat := none

/-- A read that fails has no answer. -/
structure Device where
  sectorCount : Nat
  read : Nat → Option (List UInt8)
  whole : ∀ lba sector, read lba = some sector → sector.length = 512

/-! ### Arithmetic of `u64` -/

def satAdd (a b : Nat) : Nat := min (a + b) (2 ^ 64 - 1)

def satMul (a b : Nat) : Nat := min (a * b) (2 ^ 64 - 1)

def sub64 (a b : Nat) : Option Nat := if b ≤ a then some (a - b) else none

def mul64 (a b : Nat) : Option Nat :=
  if a * b < 2 ^ 64 then some (a * b) else none

def div64 (a b : Nat) : Option Nat := if b = 0 then none else some (a / b)

def shl64 (a shift : Nat) : Option Nat :=
  if shift < 64 then some (a * 2 ^ shift % 2 ^ 64) else none

/-! ### Bytes and texts -/

def slice (bytes : List UInt8) (start stop : Nat) : Option (List UInt8) :=
  if start ≤ stop ∧ stop ≤ bytes.length then
    some ((bytes.take stop).drop start)
  else none

def le32 (bytes : List UInt8) (start : Nat) : Option Nat := readLe bytes start 4

/-- `char::from_digit(n, 16).unwrap()`. -/
def hexDigit (n : Nat) : Option Char :=
  if n < 16 then some (Nat.digitChar n) else none

def hexUuid (bytes : List UInt8) : Option Text := do
  let digits ← bytes.zipIdx.mapM fun (b, i) => do
    let high ← hexDigit (b >>> 4).toNat
    let low ← hexDigit (b &&& 15).toNat
    return (if i = 4 ∨ i = 6 ∨ i = 8 ∨ i = 10 then ['-'] else []) ++ [high, low]
  return .uuid digits.flatten

/-- What stands before the first zero. -/
def text (bytes : List UInt8) : Text := .utf8 (bytes.takeWhile (· ≠ 0))

def serialText (serial : Nat) : Text :=
  if serial ≠ 0 then .serial (serial / 2 ^ 16) (serial % 2 ^ 16) else .plain ""

/-- `(((total-free)*100)/total) as u8`. -/
def usedPercent (total free : Nat) : Option Nat := do
  let used ← sub64 total free
  let scaled ← mul64 used 100
  let percent ← div64 scaled total
  return percent % 2 ^ 8

/-! ### Which file system -/

/-- The loop that copies the first sectors into a page; the inner option is
whether all reads succeeded. -/
def readPage (device : Device) :
    List Nat → List UInt8 → Option (Option (List UInt8))
  | [], page => return some page
  | i :: rest, page =>
    match device.read i with
    | none => return none
    | some sector =>
      if (i + 1) * 512 ≤ page.length then
        readPage device rest
          (page.take (i * 512) ++ sector ++ page.drop ((i + 1) * 512))
      else none

def firstPage (device : Device) : Option (Option (List UInt8)) :=
  readPage device (List.range 8) (List.replicate 4096 0)

def isSwap (page : List UInt8) : Option Bool := do
  let name ← slice page 4086 4096
  -- "SWAPSPACE2" and "SWAP-SPACE"
  return name = [0x53, 0x57, 0x41, 0x50, 0x53, 0x50, 0x41, 0x43, 0x45, 0x32] ∨
    name = [0x53, 0x57, 0x41, 0x50, 0x2d, 0x53, 0x50, 0x41, 0x43, 0x45]

def detectSwap (device : Device) : Option FsType :=
  if 8 ≤ device.sectorCount then do
    match ← firstPage device with
    | none => return .unknown
    | some page => return if ← isSwap page then .linuxSwap else .unknown
  else return .unknown

def detectExt (device : Device) : Option FsType :=
  if 2 < device.sectorCount then
    match device.read 2 with
    | none => detectSwap device
    | some sb => do
        if (← slice sb 56 58) = [0x53, 0xef] then return .ext4
        else detectSwap device
  else detectSwap device

def detect (device : Device) : Option FsType :=
  match device.read 0 with
  | none => return .unknown
  | some boot => do
      let name ← slice boot 3 11
      let mark ← slice boot 510 512
      let sectorSize ← readLe boot 11 2
      let perCluster ← readLe boot 13 1
      let rootEntries ← readLe boot 17 2
      let fatSize ← readLe boot 22 2
      -- "EXFAT   " and "NTFS    "
      if name = [0x45, 0x58, 0x46, 0x41, 0x54, 0x20, 0x20, 0x20] then
        return .exFat
      else if name = [0x4e, 0x54, 0x46, 0x53, 0x20, 0x20, 0x20, 0x20] then
        return .ntfs
      else if mark = [0x55, 0xaa] ∧ sectorSize = 512 ∧
          (∃ k < 8, perCluster = 2 ^ k) then
        return if rootEntries = 0 ∧ fatSize = 0 then .fat32 else .vfat
      else detectExt device

/-! ### The label of an exFAT volume -/

/-- The loop over the entries of a directory sector, which returns whether the
search is over. -/
def scanDir (label : Text) : List (List UInt8) → Option (Bool × Text)
  | [] => return (false, label)
  | entry :: rest => do
      let kind ← readLe entry 0 1
      if kind = 0 then return (true, label)
      else if kind = 0x83 then do
        let count ← readLe entry 1 1
        let units ← (List.range (min count 15)).mapM fun i =>
          readLe entry (2 + i * 2) 2
        return (true, .utf16 units)
      else scanDir label rest

/-- `dir.chunks_exact(32)`. -/
def chunks (dir : List UInt8) : List (List UInt8) :=
  (List.range (dir.length / 32)).map fun i => (dir.drop (32 * i)).take 32

def scanCluster (device : Device) (first : Nat) (label : Text) :
    List Nat → Option (Bool × Text)
  | [] => return (false, label)
  | s :: rest =>
    match device.read (satAdd first s) with
    | none => return (true, label)
    | some dir => do
        let (ended, label) ← scanDir label (chunks dir)
        if ended then return (true, label)
        else scanCluster device first label rest

/-- The loop over the clusters of the root directory. -/
def scanRoot (device : Device) (perCluster fatStart heapStart : Nat) :
    Nat → Nat → Text → Option Text
  | 0, _, label => return label
  | left + 1, cluster, label =>
    if cluster < 2 then return label
    else do
      let past ← sub64 cluster 2
      let first := satAdd heapStart (satMul past perCluster)
      let (ended, label) ← scanCluster device first label
        (List.range (min perCluster 8))
      if ended then return label
      else do
        let byte ← mul64 cluster 4
        match device.read (satAdd fatStart (byte / 512)) with
        | none => return label
        | some fat => do
            let next ← le32 fat (byte % 512)
            if 0xfffffff8 ≤ next then return label
            else scanRoot device perCluster fatStart heapStart left next label

/-! ### What is on it -/

/-- There is no percentage of no clusters. -/
def fatUsed (clusters free : Nat) : Option (Option Nat) :=
  if clusters = 0 then return none
  else do
    let used ← usedPercent clusters free
    return some used

def inspectFat32 (device : Device) (boot : List UInt8) : Option FsInfo := do
  let label ← slice boot 71 82
  let serial ← le32 boot 67
  let spc ← readLe boot 13 1
  let reserved ← readLe boot 14 2
  let fats ← readLe boot 16 1
  let spf ← le32 boot 36
  let total ← le32 boot 32
  let clusters ← div64 (total - satAdd reserved (satMul fats spf)) (max spc 1)
  let fsinfo ← readLe boot 48 2
  let info : FsInfo :=
    { kind := .fat32, version := .plain "FAT32", label := text label
      uuid := serialText serial }
  match if fsinfo < device.sectorCount then device.read fsinfo else none with
  | none => return info
  | some sector => do
      let lead ← le32 sector 0
      let signature ← le32 sector 484
      let free ← le32 sector 488
      if lead = 0x41615252 ∧ signature = 0x61417272 ∧ free ≠ 2 ^ 32 - 1 then do
        let free := min free clusters
        let used ← fatUsed clusters free
        return { info with
          available := some (satMul (satMul free spc) 512)
          usedPercent := used }
      else return info

def inspectVfat (boot : List UInt8) : Option FsInfo := do
  let fatSize ← readLe boot 22 2
  let label ← slice boot 43 54
  let serial ← le32 boot 39
  return {
    kind := .vfat
    version := .plain (if fatSize = 0 then "FAT32" else "FAT")
    label := text label, uuid := serialText serial }

def exFatLabel (device : Device) (boot : List UInt8) : Option Text := do
  let sectorShift ← readLe boot 108 1
  let clusterShift ← readLe boot 109 1
  if sectorShift = 9 ∧ clusterShift < 16 then do
    let perCluster ← shl64 1 clusterShift
    let fatStart ← readLe boot 80 8
    let heapStart ← readLe boot 88 8
    let cluster ← le32 boot 96
    scanRoot device perCluster fatStart heapStart 16 cluster (.plain "")
  else return .plain ""

def inspectExFat (device : Device) (boot : List UInt8) : Option FsInfo := do
  let major ← readLe boot 105 1
  let minor ← readLe boot 107 1
  let serial ← le32 boot 100
  let label ← exFatLabel device boot
  let percent ← readLe boot 112 1
  let info : FsInfo :=
    { kind := .exFat, version := .version major minor, label
      uuid := if serial ≠ 0 then .hex 8 serial else .plain "" }
  if percent ≤ 100 then do
    let rest ← sub64 100 percent
    let available ← div64 (satMul (satMul device.sectorCount 512) rest) 100
    return { info with available := some available, usedPercent := some percent }
  else return info

def inspectNtfs (boot : List UInt8) : Option FsInfo := do
  let serial ← readLe boot 72 8
  return {
    kind := .ntfs
    uuid := if serial ≠ 0 then .hex 16 serial else .plain "" }

/-- A count of the superblock, with its high half if there is one. -/
def superCount (sb : List UInt8) (low high : Nat) : Option Nat := do
  let count ← le32 sb low
  let features ← le32 sb 96
  if features / 2 ^ 7 % 2 ≠ 0 then do
    let upper ← shl64 (← le32 sb high) 32
    return count ||| upper
  else return count

def inspectExt4 (device : Device) : Option FsInfo :=
  match device.read 2 with
  | none => return { kind := .ext4 }
  | some sb => do
      let label ← slice sb 120 136
      let uuid ← hexUuid (← slice sb 104 120)
      let blockSize ← shl64 1024 (min (← le32 sb 24) 6)
      let blocks ← superCount sb 4 336
      let free ← superCount sb 12 344
      let info : FsInfo :=
        { kind := .ext4, version := .plain "1.0", label := text label, uuid }
      if blocks ≠ 0 then do
        let free := min free blocks
        let used ← usedPercent blocks free
        return { info with
          available := some (satMul free blockSize), usedPercent := some used }
      else return info

def inspectSwap (device : Device) : Option FsInfo := do
  match ← firstPage device with
  | none => return { kind := .linuxSwap }
  | some page => do
      let version ← le32 page 1024
      let uuid ← hexUuid (← slice page 1036 1052)
      let label ← slice page 1052 1068
      return { kind := .linuxSwap, version := .decimal version, uuid, label := text label }

def inspect (device : Device) : Option FsInfo := do
  let kind ← detect device
  match device.read 0, kind with
  | none, kind => return { kind }
  | some boot, .fat32 => inspectFat32 device boot
  | some boot, .vfat => inspectVfat boot
  | some boot, .exFat => inspectExFat device boot
  | some boot, .ntfs => inspectNtfs boot
  | some _, .ext4 => inspectExt4 device
  | some _, .linuxSwap => inspectSwap device
  | some _, .unknown => return { kind := .unknown }

/-! ### What cannot panic -/

/-- The computation has a result, and it meets the condition. -/
def Safe {α : Type} (x : Option α) (post : α → Prop) : Prop :=
  ∃ a, x = some a ∧ post a

theorem safe_pure {α : Type} {a : α} {post : α → Prop} (holds : post a) :
    Safe (pure a) post := ⟨a, rfl, holds⟩

theorem Safe.bind {α β : Type} {x : Option α} {f : α → Option β}
    {middle : α → Prop} {post : β → Prop} (first : Safe x middle)
    (rest : ∀ a, middle a → Safe (f a) post) : Safe (x >>= f) post := by
  obtain ⟨a, done, holds⟩ := first
  rw [done]
  exact rest a holds

theorem safe_mapM {α β : Type} {f : α → Option β} {items : List α}
    (each : ∀ item ∈ items, Safe (f item) fun _ => True) : Safe (items.mapM f) fun _ => True := by
  induction items with
  | nil => exact safe_pure trivial
  | cons item rest induction =>
    rw [List.mapM_cons]
    refine (each item List.mem_cons_self).bind fun _ _ => ?_
    refine (induction fun other member =>
      each other (List.mem_cons_of_mem _ member)).bind fun _ _ => ?_
    exact safe_pure trivial

variable {device : Device} {bytes : List UInt8} {label : Text}

theorem readLe_safe {offset width : Nat} (inside : offset + width ≤ bytes.length) :
    Safe (readLe bytes offset width) (· < 256 ^ width) :=
  ⟨_, readLe_inside inside, field_lt _ _ _⟩

theorem sub64_safe {a b : Nat} (less : b ≤ a) :
    Safe (sub64 a b) fun _ => True := ⟨_, if_pos less, trivial⟩

theorem mul64_safe {a b : Nat} (fits : a * b < 2 ^ 64) :
    Safe (mul64 a b) (· = a * b) := ⟨_, if_pos fits, rfl⟩

theorem div64_safe {a b : Nat} (positive : b ≠ 0) :
    Safe (div64 a b) (· ≤ a) := ⟨_, if_neg positive, Nat.div_le_self a b⟩

theorem shl64_safe {a shift : Nat} (small : shift < 64) :
    Safe (shl64 a shift) fun _ => True := ⟨_, if_pos small, trivial⟩

theorem slice_safe {start stop : Nat} (order : start ≤ stop)
    (inside : stop ≤ bytes.length) : Safe (slice bytes start stop) fun _ => True :=
  ⟨_, if_pos ⟨order, inside⟩, trivial⟩

theorem hexDigit_safe {n : Nat} (small : n < 16) :
    Safe (hexDigit n) fun _ => True := ⟨_, if_pos small, trivial⟩

theorem hexUuid_safe (bytes : List UInt8) : Safe (hexUuid bytes) fun _ => True := by
  refine (safe_mapM ?_).bind fun _ _ => safe_pure trivial
  rintro ⟨b, i⟩ -
  have high : (b >>> 4).toNat < 16 := by
    have small := b.toNat_lt
    rw [UInt8.toNat_shiftRight, Nat.shiftRight_eq_div_pow]
    simp
    omega
  have low : (b &&& 15).toNat < 16 := by
    rw [UInt8.toNat_and]
    exact Nat.lt_succ_of_le Nat.and_le_right
  refine (hexDigit_safe high).bind fun _ _ => ?_
  exact (hexDigit_safe low).bind fun _ _ => safe_pure trivial

theorem percent_le (used total : Nat) (less : used ≤ total) : used * 100 / total ≤ 100 :=
  Nat.div_le_of_le_mul (by omega)

theorem usedPercent_eq {total free : Nat} (positive : total ≠ 0) (less : free ≤ total) :
    usedPercent total free =
      if (total - free) * 100 < 2 ^ 64 then
        some ((total - free) * 100 / total)
      else none := by
  have bound := percent_le (total - free) total (Nat.sub_le _ _)
  unfold usedPercent sub64 mul64 div64
  simp only [if_pos less, if_neg positive]
  by_cases fits : (total - free) * 100 < 2 ^ 64
  · simp only [Option.bind_eq_bind, Option.bind_some, if_pos fits]
    exact congrArg some (Nat.mod_eq_of_lt (by omega))
  · simp only [Option.bind_eq_bind, Option.bind_some, if_neg fits, Option.bind_none]

theorem usedPercent_safe {total free : Nat} (positive : total ≠ 0) (less : free ≤ total)
    (fits : (total - free) * 100 < 2 ^ 64) : Safe (usedPercent total free) (· ≤ 100) :=
  ⟨_, (usedPercent_eq positive less).trans (if_pos fits),
    percent_le _ _ (Nat.sub_le _ _)⟩

theorem readPage_safe {sectors : List Nat} (few : ∀ i ∈ sectors, i < 8)
    {page : List UInt8} (length : page.length = 4096) :
    Safe (readPage device sectors page) fun result =>
      ∀ page, result = some page → page.length = 4096 := by
  induction sectors generalizing page with
  | nil => exact safe_pure fun _ same => Option.some.inj same ▸ length
  | cons i rest induction =>
    have small := few i List.mem_cons_self
    unfold readPage
    split
    · exact safe_pure nofun
    · rename_i sector found
      have whole := device.whole i sector found
      rw [if_pos (by omega)]
      refine induction (fun j member => few j (List.mem_cons_of_mem _ member)) ?_
      simp only [List.length_append, List.length_take, List.length_drop]
      omega

theorem firstPage_safe : Safe (firstPage device) fun result =>
    ∀ page, result = some page → page.length = 4096 :=
  readPage_safe (fun _ => List.mem_range.mp) List.length_replicate

/-! ### Every branch -/

theorem isSwap_safe {page : List UInt8} (length : page.length = 4096) :
    Safe (isSwap page) fun _ => True :=
  (slice_safe (by decide) (by omega)).bind fun _ _ => safe_pure trivial

theorem detectSwap_safe : Safe (detectSwap device) fun _ => True := by
  unfold detectSwap
  split
  · refine firstPage_safe.bind fun result length => ?_
    obtain _ | page := result
    · exact safe_pure trivial
    · exact (isSwap_safe (length page rfl)).bind fun _ _ => safe_pure trivial
  · exact safe_pure trivial

theorem detectExt_safe : Safe (detectExt device) fun _ => True := by
  unfold detectExt
  split
  · split
    · exact detectSwap_safe
    · rename_i sb found
      have whole := device.whole 2 sb found
      refine (slice_safe (by decide) (by omega)).bind fun _ _ => ?_
      split
      · exact safe_pure trivial
      · exact detectSwap_safe
  · exact detectSwap_safe

theorem detect_safe : Safe (detect device) fun _ => True := by
  unfold detect
  split
  · exact safe_pure trivial
  · rename_i boot found
    have whole := device.whole 0 boot found
    refine (slice_safe (by decide) (by omega)).bind fun _ _ => ?_
    refine (slice_safe (by decide) (by omega)).bind fun _ _ => ?_
    refine (readLe_safe (by omega)).bind fun _ _ => ?_
    refine (readLe_safe (by omega)).bind fun _ _ => ?_
    refine (readLe_safe (by omega)).bind fun _ _ => ?_
    refine (readLe_safe (by omega)).bind fun _ _ => ?_
    split
    · exact safe_pure trivial
    · split
      · exact safe_pure trivial
      · split
        · exact safe_pure trivial
        · exact detectExt_safe

theorem scanDir_safe {entries : List (List UInt8)} (whole : ∀ entry ∈ entries, entry.length = 32) :
    Safe (scanDir label entries) fun _ => True := by
  induction entries with
  | nil => exact safe_pure trivial
  | cons entry rest induction =>
    have length := whole entry List.mem_cons_self
    unfold scanDir
    refine (readLe_safe (by omega)).bind fun _ _ => ?_
    split
    · exact safe_pure trivial
    · split
      · refine (readLe_safe (by omega)).bind fun count _ => ?_
        refine (safe_mapM ?_).bind fun _ _ => safe_pure trivial
        intro i member
        have few := List.mem_range.mp member
        exact (readLe_safe (by omega)).imp fun _ both => ⟨both.1, trivial⟩
      · exact induction fun entry member =>
          whole entry (List.mem_cons_of_mem _ member)

theorem length_chunks {dir : List UInt8} : ∀ entry ∈ chunks dir, entry.length = 32 := by
  intro entry member
  obtain ⟨i, few, rfl⟩ := List.mem_map.mp member
  have inside := List.mem_range.mp few
  rw [List.length_take, List.length_drop]
  omega

theorem scanCluster_safe {first : Nat} {sectors : List Nat} :
    Safe (scanCluster device first label sectors) fun _ => True := by
  induction sectors generalizing label with
  | nil => exact safe_pure trivial
  | cons s rest induction =>
    unfold scanCluster
    split
    · exact safe_pure trivial
    · refine (scanDir_safe length_chunks).bind fun result _ => ?_
      obtain ⟨ended, label⟩ := result
      cases ended
      · exact induction
      · exact safe_pure trivial

theorem scanRoot_safe {perCluster fatStart heapStart left cluster : Nat}
    (small : cluster < 2 ^ 32) :
    Safe (scanRoot device perCluster fatStart heapStart left cluster label)
      fun _ => True := by
  induction left generalizing cluster label with
  | zero => exact safe_pure trivial
  | succ left induction =>
    unfold scanRoot
    split
    · exact safe_pure trivial
    · refine (sub64_safe (by omega)).bind fun _ _ => ?_
      refine scanCluster_safe.bind fun result _ => ?_
      obtain ⟨ended, label⟩ := result
      cases ended
      · refine (mul64_safe (by omega)).bind fun byte same => ?_
        split
        · exact safe_pure trivial
        · rename_i fat found
          have whole := device.whole _ fat found
          refine (readLe_safe (by omega)).bind fun next below => ?_
          split
          · exact safe_pure trivial
          · exact induction below
      · exact safe_pure trivial

/-- Any percentage is one. -/
def Sound (info : FsInfo) : Prop := ∀ p, info.usedPercent = some p → p ≤ 100

theorem fatUsed_safe {clusters free : Nat} (small : clusters < 2 ^ 32) (less : free ≤ clusters) :
    Safe (fatUsed clusters free) fun used => ∀ p, used = some p → p ≤ 100 := by
  unfold fatUsed
  split
  · exact safe_pure nofun
  · rename_i positive
    refine (usedPercent_safe positive less (by omega)).bind fun used bound => ?_
    exact safe_pure fun p same => Option.some.inj same ▸ bound

theorem inspectFat32_safe {boot : List UInt8} (whole : boot.length = 512) :
    Safe (inspectFat32 device boot) Sound := by
  unfold inspectFat32 le32
  refine (slice_safe (by decide) (by omega)).bind fun label _ => ?_
  refine (readLe_safe (by omega)).bind fun serial _ => ?_
  refine (readLe_safe (by omega)).bind fun spc _ => ?_
  refine (readLe_safe (by omega)).bind fun reserved _ => ?_
  refine (readLe_safe (by omega)).bind fun fats _ => ?_
  refine (readLe_safe (by omega)).bind fun spf _ => ?_
  refine (readLe_safe (by omega)).bind fun total small => ?_
  refine (div64_safe (by omega)).bind fun clusters less => ?_
  refine (readLe_safe (by omega)).bind fun fsinfo _ => ?_
  dsimp only
  split
  · exact safe_pure nofun
  · rename_i sector found
    have whole : sector.length = 512 := by
      split at found
      · exact device.whole _ sector found
      · cases found
    refine (readLe_safe (by omega)).bind fun _ _ => ?_
    refine (readLe_safe (by omega)).bind fun _ _ => ?_
    refine (readLe_safe (by omega)).bind fun free _ => ?_
    split
    · refine (fatUsed_safe (by omega) (Nat.min_le_right _ _)).bind fun used bound => ?_
      exact safe_pure bound
    · exact safe_pure nofun

theorem inspectVfat_safe {boot : List UInt8} (whole : boot.length = 512) :
    Safe (inspectVfat boot) Sound := by
  unfold inspectVfat le32
  refine (readLe_safe (by omega)).bind fun _ _ => ?_
  refine (slice_safe (by decide) (by omega)).bind fun _ _ => ?_
  refine (readLe_safe (by omega)).bind fun _ _ => ?_
  exact safe_pure nofun

theorem exFatLabel_safe {boot : List UInt8} (whole : boot.length = 512) :
    Safe (exFatLabel device boot) fun _ => True := by
  unfold exFatLabel le32
  refine (readLe_safe (by omega)).bind fun sectorShift _ => ?_
  refine (readLe_safe (by omega)).bind fun clusterShift _ => ?_
  split
  · refine (shl64_safe (by omega)).bind fun _ _ => ?_
    refine (readLe_safe (by omega)).bind fun _ _ => ?_
    refine (readLe_safe (by omega)).bind fun _ _ => ?_
    refine (readLe_safe (by omega)).bind fun cluster small => ?_
    exact scanRoot_safe small
  · exact safe_pure trivial

theorem inspectExFat_safe {boot : List UInt8} (whole : boot.length = 512) :
    Safe (inspectExFat device boot) Sound := by
  unfold inspectExFat le32
  refine (readLe_safe (by omega)).bind fun major _ => ?_
  refine (readLe_safe (by omega)).bind fun minor _ => ?_
  refine (readLe_safe (by omega)).bind fun serial _ => ?_
  refine (exFatLabel_safe whole).bind fun label _ => ?_
  refine (readLe_safe (by omega)).bind fun percent _ => ?_
  dsimp only
  split
  · rename_i bound
    refine (sub64_safe bound).bind fun _ _ => ?_
    refine (div64_safe (by decide)).bind fun _ _ => ?_
    exact safe_pure fun p same => Option.some.inj same ▸ bound
  · exact safe_pure nofun

theorem inspectNtfs_safe {boot : List UInt8} (whole : boot.length = 512) :
    Safe (inspectNtfs boot) Sound :=
  (readLe_safe (by omega)).bind fun _ _ => safe_pure nofun

theorem inspectSwap_safe : Safe (inspectSwap device) Sound := by
  unfold inspectSwap le32
  refine firstPage_safe.bind fun result length => ?_
  obtain _ | page := result
  · exact safe_pure nofun
  · have whole := length page rfl
    refine (readLe_safe (by omega)).bind fun _ _ => ?_
    refine (slice_safe (by decide) (by omega)).bind fun _ _ => ?_
    refine (hexUuid_safe _).bind fun _ _ => ?_
    refine (slice_safe (by decide) (by omega)).bind fun _ _ => ?_
    exact safe_pure nofun

/-! ### The one that can -/

/-- An ext4 superblock that counts so many used blocks that a hundred times
their number does not fit 64 bits. -/
def Overflows (device : Device) : Prop :=
  detect device = some .ext4 ∧
    ∃ sb blocks free, device.read 2 = some sb ∧
      superCount sb 4 336 = some blocks ∧ superCount sb 12 344 = some free ∧
      2 ^ 64 ≤ (blocks - min free blocks) * 100

theorem superCount_safe {sb : List UInt8} (whole : sb.length = 512) {low high : Nat}
    (one : low + 4 ≤ 512) (two : high + 4 ≤ 512) : Safe (superCount sb low high) fun _ => True := by
  unfold superCount le32
  refine (readLe_safe (by omega)).bind fun _ _ => ?_
  refine (readLe_safe (by omega)).bind fun _ _ => ?_
  split
  · refine (readLe_safe (by omega)).bind fun _ _ => ?_
    exact (shl64_safe (by decide)).bind fun _ _ => safe_pure trivial
  · exact safe_pure trivial

theorem inspectExt4_safe_iff {sb : List UInt8} (found : device.read 2 = some sb) :
    Safe (inspectExt4 device) Sound ↔
      ¬ ∃ blocks free, superCount sb 4 336 = some blocks ∧
        superCount sb 12 344 = some free ∧
        2 ^ 64 ≤ (blocks - min free blocks) * 100 := by
  have whole := device.whole 2 sb found
  obtain ⟨name, nameIs, -⟩ := @slice_safe sb 120 136 (by decide) (by omega)
  obtain ⟨id, idIs, -⟩ := @slice_safe sb 104 120 (by decide) (by omega)
  obtain ⟨uuid, uuidIs, -⟩ := hexUuid_safe id
  obtain ⟨log, logIs, -⟩ := @readLe_safe sb 24 4 (by omega)
  obtain ⟨size, sizeIs, -⟩ := @shl64_safe 1024 (min log 6) (by omega)
  obtain ⟨blocks, blocksIs, -⟩ :=
    @superCount_safe sb whole 4 336 (by decide) (by decide)
  obtain ⟨free, freeIs, -⟩ :=
    @superCount_safe sb whole 12 344 (by decide) (by decide)
  unfold inspectExt4 le32
  simp only [found, nameIs, idIs, uuidIs, logIs, sizeIs, blocksIs, freeIs,
    Option.bind_eq_bind, Option.bind_some, Option.some.injEq]
  by_cases empty : blocks = 0
  · rw [if_neg (not_not.mpr empty)]
    refine iff_of_true (safe_pure nofun) ?_
    rintro ⟨_, _, rfl, rfl, large⟩
    simp [empty] at large
  · rw [if_pos empty, usedPercent_eq empty (Nat.min_le_right _ _)]
    by_cases fits : (blocks - min free blocks) * 100 < 2 ^ 64
    · rw [if_pos fits, Option.bind_some]
      refine iff_of_true (safe_pure fun p same => ?_) ?_
      · cases same
        exact percent_le _ _ (Nat.sub_le _ _)
      · rintro ⟨_, _, rfl, rfl, large⟩
        omega
    · rw [if_neg fits, Option.bind_none]
      refine iff_of_false (fun ⟨_, absent, _⟩ => Option.some_ne_none _ absent.symm) (not_not.mpr ?_)
      exact ⟨blocks, free, rfl, rfl, Nat.not_lt.mp fits⟩

/-- Looking at a device panics exactly when its ext4 superblock overflows the
percentage; otherwise any percentage is at most a hundred. -/
theorem inspect_safe_iff (device : Device) :
    (∃ info, inspect device = some info ∧
      ∀ p, info.usedPercent = some p → p ≤ 100) ↔ ¬ Overflows device := by
  change Safe (inspect device) Sound ↔ _
  obtain ⟨kind, detected, -⟩ := @detect_safe device
  unfold inspect Overflows
  rw [detected]
  rcases first : device.read 0 with _ | boot
  · unfold detect at detected
    rw [first] at detected
    cases detected
    exact iff_of_true (safe_pure nofun) nofun
  · have whole := device.whole 0 boot first
    cases kind with
    | fat32 => exact iff_of_true (inspectFat32_safe whole) nofun
    | vfat => exact iff_of_true (inspectVfat_safe whole) nofun
    | exFat => exact iff_of_true (inspectExFat_safe whole) nofun
    | ntfs => exact iff_of_true (inspectNtfs_safe whole) nofun
    | linuxSwap => exact iff_of_true inspectSwap_safe nofun
    | unknown => exact iff_of_true (safe_pure nofun) nofun
    | ext4 =>
      rcases found : device.read 2 with _ | sb
      · refine iff_of_true ?_ fun overflows => ?_
        · change Safe (inspectExt4 device) Sound
          rw [inspectExt4, found]
          exact safe_pure nofun
        · obtain ⟨-, _, _, _, read, -⟩ := overflows
          cases read
      · refine (inspectExt4_safe_iff found).trans (not_congr ?_)
        constructor
        · rintro ⟨blocks, free, counted⟩
          exact ⟨rfl, sb, blocks, free, rfl, counted⟩
        · rintro ⟨-, _, blocks, free, ⟨⟩, counted⟩
          exact ⟨blocks, free, counted⟩

/-- A device with an ext4 superblock whose count of blocks has eight equal
bytes. -/
def extDevice (byte : UInt8) : Device where
  sectorCount := 3
  read lba := some ((List.range 512).map fun i =>
    if lba ≠ 2 then 0
    else if i = 56 then 0x53 else if i = 57 then 0xef
    else if i = 96 then 0x80
    else if 4 ≤ i ∧ i < 8 ∨ 336 ≤ i ∧ i < 340 then byte
    else 0)
  whole := by
    intro lba sector found
    rw [← Option.some.inj found, List.length_map, List.length_range]

theorem extDevice_panics : (inspect (extDevice 0xff)).isNone = true := by
  decide +kernel

theorem extDevice_inspected :
    detect (extDevice 1) = some .ext4 ∧
      ∃ info, inspect (extDevice 1) = some info ∧
        ∀ p, info.usedPercent = some p → p ≤ 100 := by
  refine ⟨by decide +kernel, (inspect_safe_iff _).mpr ?_⟩
  rintro ⟨-, sb, blocks, free, found, counted, -, large⟩
  rw [← Option.some.inj found] at counted
  have count := Option.some.inj (counted.symm.trans
    (show _ = some 0x0101010101010101 by decide +kernel))
  omega

end Eonos.Probe
