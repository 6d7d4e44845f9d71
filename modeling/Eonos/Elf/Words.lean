import Eonos.Elf.Headers

/-!
# Parsing with 64-bit words

`parse` with the arithmetic the source does: a sum, difference or product that
leaves 64 bits panics, as does an index outside the file, unless the source
asks for a checked sum.  None of it ever happens, so that `parse` over the
natural numbers is the same function.
-/

namespace Eonos.Elf

open Eonos.Vmm
open Eonos.Lib

def add64 (a b : Nat) : Option Nat :=
  if a + b < 2 ^ 64 then some (a + b) else none

def sub64 (a b : Nat) : Option Nat :=
  if b ≤ a then some (a - b) else none

def mul64 (a b : Nat) : Option Nat :=
  if a * b < 2 ^ 64 then some (a * b) else none

/-- `a.checked_add(b).ok_or(e)?`. -/
def checkedAdd (e : ElfError) (a b : Nat) : Checked Nat :=
  if 2 ^ 64 ≤ a + b then throw e else return a + b

/-- The bytes `b[o + k]` to `b[o + k + count - 1]`, little-endian. -/
def readWords (b : List UInt8) (o : Nat) : Nat → Nat → Option Nat
  | _, 0 => some 0
  | k, count + 1 => do
      let index ← add64 o k
      let low ← b[index]?
      let rest ← readWords b o (k + 1) count
      return low.toNat + 256 * rest

/-- `(v + PAGE_SIZE - 1) & !(PAGE_SIZE - 1)`. -/
def alignUpWords (v : Nat) : Option Nat := do
  let sum ← add64 v pageSize
  let last ← sub64 sum 1
  return last / pageSize * pageSize

/-- The place and size of the program header table. -/
def checkTableWords (image : List UInt8) (entry phoff phentsize phnum : Nat) :
    Checked (Nat × Nat × Nat) :=
  if phentsize ≠ phdrSize ∨ phnum = 0 ∨ maxPhdrs < phnum then throw .badHeader
  else do
    let table ← mul64 phnum phdrSize
    let tableEnd ← checkedAdd .truncated phoff table
    if image.length < tableEnd then throw .truncated
    else return (entry, phoff, phnum)

def parseHeaderWords (image : List UInt8) : Checked (Nat × Nat × Nat) :=
  if image.length < ehdrSize then throw .tooShort
  else if image.take 4 ≠ [0x7f, 0x45, 0x4c, 0x46] then throw .badMagic
  else do
    let fileClass ← (image[4]? : Option UInt8)
    let encoding ← (image[5]? : Option UInt8)
    if fileClass ≠ 2 ∨ encoding ≠ 1 then throw .notElf64Le
    else do
      let kind ← readWords image 16 0 2
      if kind ≠ etExec then throw .notExecutable
      else do
        let arch ← readWords image 18 0 2
        if arch ≠ emX8664 then throw .wrongArch
        else do
          let entry ← readWords image 24 0 8
          let phoff ← readWords image 32 0 8
          let phentsize ← readWords image 54 0 2
          let phnum ← readWords image 56 0 2
          checkTableWords image entry phoff phentsize phnum

def checkSegmentWords (image : List UInt8) (segments : List Segment)
    (totalPages : Nat) (s : Segment) : Checked (List Segment × Nat) :=
  if s.memsz < s.filesz then throw .badSegment
  else do
    let finish ← checkedAdd .badSegment s.vaddr s.memsz
    if s.vaddr < loadMin ∨ loadMax < finish then throw .badSegment
    else do
      let fileEnd ← checkedAdd .truncated s.offset s.filesz
      if image.length < fileEnd then throw .truncated
      else if s.writable ∧ s.executable then throw .writableExecutable
      else if segments.length = maxSegments then throw .tooManySegments
      else do
        let last ← alignUpWords finish
        let span ← sub64 last (alignDown s.vaddr)
        let totalPages ← add64 totalPages (span / pageSize)
        if maxPages < totalPages then throw .tooLarge
        else return (segments ++ [s], totalPages)

/-- The loop body, for program header `i` of the table at `phoff`. -/
def parsePhdrWords (image : List UInt8) (phoff : Nat)
    (found : List Segment × Nat) (i : Nat) : Checked (List Segment × Nat) := do
  let place ← mul64 i phdrSize
  let o ← add64 phoff place
  let pType ← readWords image o 0 4
  let flagsAt ← add64 o 4
  let pFlags ← readWords image flagsAt 0 4
  let offsetAt ← add64 o 8
  let pOffset ← readWords image offsetAt 0 8
  let vaddrAt ← add64 o 16
  let pVaddr ← readWords image vaddrAt 0 8
  let fileszAt ← add64 o 32
  let pFilesz ← readWords image fileszAt 0 8
  let memszAt ← add64 o 40
  let pMemsz ← readWords image memszAt 0 8
  if pType = ptInterp then throw .dynamic
  else if pType ≠ ptLoad ∨ pMemsz = 0 then return found
  else
    checkSegmentWords image found.1 found.2
      { vaddr := pVaddr, offset := pOffset, filesz := pFilesz,
        memsz := pMemsz, flags := pFlags }

/-- `a.vaddr < b.vaddr + b.memsz && b.vaddr < a.vaddr + a.memsz`. -/
def overlapsWords (a b : Segment) : Option Bool := do
  let bEnd ← add64 b.vaddr b.memsz
  if a.vaddr < bEnd then do
    let aEnd ← add64 a.vaddr a.memsz
    return b.vaddr < aEnd
  else return false

/-- The two nested loops over `i < j`. -/
def overlappingWords : List Segment → Option Bool
  | [] => some false
  | a :: rest => do
      if ← rest.anyM (overlapsWords a) then return true
      else overlappingWords rest

/-- Whether the entry point lies in an executable segment. -/
def holdsEntryWords (entry : Nat) (s : Segment) : Option Bool :=
  if s.executable && s.vaddr ≤ entry then do
    let finish ← add64 s.vaddr s.memsz
    return entry < finish
  else return false

def parseWords (image : List UInt8) : Checked (Nat × List Segment) := do
  let (entry, phoff, phnum) ← parseHeaderWords image
  let (segments, _) ←
    (List.range phnum).foldlM (parsePhdrWords image phoff) ([], 0)
  if segments.isEmpty then throw .noLoadable
  else do
    if ← (overlappingWords segments : Option Bool) then throw .overlap
    else do
      let entryOk ← (segments.anyM (holdsEntryWords entry) : Option Bool)
      if !entryOk then throw .badEntry
      else return (entry, segments)

/-! ### No word overflows -/

variable {a b : Nat} {image : List UInt8}

theorem add64_eq (small : a + b < 2 ^ 64) :
    add64 a b = some (a + b) := if_pos small

theorem sub64_eq (le : b ≤ a) : sub64 a b = some (a - b) :=
  if_pos le

theorem mul64_eq (small : a * b < 2 ^ 64) :
    mul64 a b = some (a * b) := if_pos small

theorem readWords_eq {b : List UInt8} {o k count : Nat} (small : o + k + count ≤ 2 ^ 64) :
    readWords b o k count = readLe b (o + k) count := by
  induction count generalizing k with
  | zero => rfl
  | succ count induction =>
    rw [readWords, readLe, add64_eq (by omega), induction (by omega)]
    rfl

theorem alignUpWords_eq {v : Nat} (small : v + pageSize < 2 ^ 64) :
    alignUpWords v = some (alignUp v) := by
  unfold alignUpWords
  rw [add64_eq small, Option.bind_eq_bind, Option.bind_some, sub64_eq (by unfold pageSize; omega)]
  rfl

theorem checkedAdd_bind {α : Type} {e : ElfError} {f : Nat → Checked α} :
    (checkedAdd e a b >>= f) = if 2 ^ 64 ≤ a + b then throw e else f (a + b) := by
  unfold checkedAdd
  split <;> rfl

theorem checkTableWords_eq (image : List UInt8) (entry phoff phentsize phnum : Nat) :
    checkTableWords image entry phoff phentsize phnum =
      if phentsize ≠ phdrSize ∨ phnum = 0 ∨ maxPhdrs < phnum then
        throw .badHeader
      else if 2 ^ 64 ≤ phoff + phnum * phdrSize then throw .truncated
      else if image.length < phoff + phnum * phdrSize then throw .truncated
      else pure (entry, phoff, phnum) := by
  unfold checkTableWords
  split
  · rfl
  · rename_i few
    have small : phnum * phdrSize < 2 ^ 64 := by
      unfold maxPhdrs at few
      unfold phdrSize
      omega
    rw [mul64_eq small, lift_some_bind, checkedAdd_bind]

theorem parseHeaderWords_eq (image : List UInt8) : parseHeaderWords image = parseHeader image := by
  unfold parseHeaderWords parseHeader
  simp only [checkTableWords_eq]
  rw [readWords_eq (by decide), readWords_eq (by decide),
    readWords_eq (by decide), readWords_eq (by decide),
    readWords_eq (by decide), readWords_eq (by decide)]
  rfl

theorem checkSegmentWords_eq {segments : List Segment} {total : Nat} {s : Segment}
    (few : total ≤ maxPages) :
    checkSegmentWords image segments total s = checkSegment image segments total s := by
  unfold checkSegmentWords checkSegment
  have sum : s.vaddr + s.memsz = s.finish := rfl
  simp only [checkedAdd_bind, sum]
  split
  · rfl
  split
  · rfl
  split
  · rfl
  rename_i range
  have high : s.finish ≤ loadMax := by omega
  have low : s.vaddr ≤ s.finish := Nat.le_add_right _ _
  unfold loadMax at high
  have down : alignDown s.vaddr ≤ alignUp s.finish := by
    unfold alignDown alignUp pageSize
    omega
  have up : alignUp s.finish ≤ s.finish + pageSize := by
    unfold alignUp pageSize
    omega
  rw [alignUpWords_eq (by unfold pageSize; omega), lift_some_bind,
    sub64_eq down, lift_some_bind, add64_eq, lift_some_bind]
  unfold maxPages at few
  unfold pageSize at up ⊢
  omega

/-- A header inside the table is read alike. -/
theorem parsePhdrWords_eq {phoff i : Nat} {found : List Segment × Nat}
    (small : phoff + i * phdrSize + phdrSize ≤ 2 ^ 64) (few : found.2 ≤ maxPages) :
    parsePhdrWords image phoff found i = parsePhdr image found (phoff + i * phdrSize) := by
  unfold phdrSize at small
  unfold parsePhdrWords parsePhdr
  simp only [checkSegmentWords_eq few]
  unfold phdrSize
  rw [mul64_eq (by omega), lift_some_bind, add64_eq (by omega), lift_some_bind, add64_eq (by omega),
    add64_eq (by omega), add64_eq (by omega), add64_eq (by omega), add64_eq (by omega)]
  simp only [lift_some_bind]
  rw [readWords_eq (by omega), readWords_eq (by omega),
    readWords_eq (by omega), readWords_eq (by omega),
    readWords_eq (by omega), readWords_eq (by omega)]
  rfl

theorem parsePhdr_few {found later : List Segment × Nat} {o : Nat} (few : found.2 ≤ maxPages)
    (result : Returns (parsePhdr image found o) later) : later.2 ≤ maxPages := by
  unfold parsePhdr at result
  simp only [returns_bind, returns_check] at result
  obtain ⟨_, -, _, -, _, -, _, -, _, -, _, -, -, result⟩ := result
  split at result
  · rw [returns_pure] at result
    exact result ▸ few
  · unfold checkSegment at result
    simp only [returns_check, returns_pure] at result
    obtain ⟨-, -, -, -, -, -, -, fits, rfl⟩ := result
    exact Nat.not_lt.mp fits

theorem parseLoopWords_eq {phoff phnum : Nat} (small : phoff + phnum * phdrSize ≤ 2 ^ 64) :
    (List.range phnum).foldlM (parsePhdrWords image phoff) ([], 0) =
      ((List.range phnum).map fun i => phoff + i * phdrSize).foldlM
        (parsePhdr image) ([], 0) := by
  rw [List.foldlM_map]
  refine @foldlM_congr _ _ _ (fun found : List Segment × Nat =>
    found.2 ≤ maxPages) _ _ _ ?_ ?_ _ (Nat.zero_le _)
  · intro found few i member
    have index := List.mem_range.mp member
    refine parsePhdrWords_eq ?_ few
    unfold phdrSize at small ⊢
    omega
  · intro found few i _ later result
    exact parsePhdr_few few result

theorem anyM_eq {α : Type} {f : α → Option Bool} {g : α → Bool} {items : List α}
    (same : ∀ x ∈ items, f x = some (g x)) : items.anyM f = some (items.any g) := by
  induction items with
  | nil => rfl
  | cons x rest induction =>
    rw [List.anyM, same x List.mem_cons_self, List.any_cons,
      induction fun y member => same y (List.mem_cons_of_mem _ member)]
    cases g x <;> rfl

theorem overlapsWords_eq {a b : Segment} (first : a.finish < 2 ^ 64) (second : b.finish < 2 ^ 64) :
    overlapsWords a b = some (decide (a.vaddr < b.finish) && decide (b.vaddr < a.finish)) := by
  unfold overlapsWords
  rw [add64_eq second, Option.bind_eq_bind, Option.bind_some, add64_eq first]
  change (if a.vaddr < b.finish then _ else _) = _
  split
  · rename_i below
    rw [decide_eq_true below]
    rfl
  · rename_i above
    rw [decide_eq_false above]
    rfl

theorem overlappingWords_eq {segments : List Segment} (small : ∀ s ∈ segments, s.finish < 2 ^ 64) :
    overlappingWords segments = some (overlapping segments) := by
  induction segments with
  | nil => rfl
  | cons a rest induction =>
    have later : ∀ s ∈ rest, s.finish < 2 ^ 64 :=
      fun s member => small s (List.mem_cons_of_mem _ member)
    have here := anyM_eq fun b member =>
      overlapsWords_eq (small a List.mem_cons_self) (later b member)
    rw [overlappingWords, here, overlapping, induction later]
    cases rest.any _ <;> rfl

theorem holdsEntryWords_eq {entry : Nat} {s : Segment} (small : s.finish < 2 ^ 64) :
    holdsEntryWords entry s = some (s.executable && s.vaddr ≤ entry && entry < s.finish) := by
  unfold holdsEntryWords
  rw [add64_eq small]
  cases s.executable && decide (s.vaddr ≤ entry) <;> rfl

/-- No index is out of bounds and no word overflows that is not checked. -/
theorem parseWords_eq (image : List UInt8) : parseWords image = parse image := by
  unfold parseWords parse
  rw [parseHeaderWords_eq]
  refine bind_eq_of_returns fun header returned => ?_
  obtain ⟨entry, phoff, phnum⟩ := header
  obtain ⟨valid, small, rfl, rfl, rfl⟩ := parseHeader_returns_iff.mp returned
  dsimp only
  rw [parseLoopWords_eq small.le]
  refine bind_eq_of_returns fun found ran => ?_
  obtain ⟨segments, total⟩ := found
  obtain ⟨-, checked⟩ := parseLoop_returns (phdrs_inside valid) ran
  have ends : ∀ s ∈ segments, s.finish < 2 ^ 64 := fun s member =>
    (checked (by simp) s member).high.trans_lt (by decide)
  dsimp only
  rw [overlappingWords_eq ends, lift_some_bind, anyM_eq fun s member => holdsEntryWords_eq (ends s
    member), lift_some_bind]

end Eonos.Elf
