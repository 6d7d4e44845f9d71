import Eonos.Elf.Model
import Eonos.Lib.Checked

/-!
# What `parse` accepts

`parse` reads only inside the file, and the segments it returns are the
loadable program headers, in order, each checked and no two overlapping.
-/

namespace Eonos.Elf

open Eonos.Vmm
open Eonos.Lib

/-! ### Reading -/

/-- `count` bytes at `o` as a number; bytes outside the file count as zero. -/
def le (b : List UInt8) : Nat → Nat → Nat
  | _, 0 => 0
  | o, count + 1 => (b.getD o 0).toNat + 256 * le b (o + 1) count

theorem readLe_eq {b : List UInt8} {o count : Nat}
    (inside : o + count ≤ b.length) : readLe b o count = some (le b o count) := by
  induction count generalizing o with
  | zero => rfl
  | succ count induction =>
    have found : b[o]? = some (b.getD o 0) := by
      rw [List.getD_eq_getElem?_getD, List.getElem?_eq_getElem (by omega)]
      rfl
    rw [readLe, found, induction (by omega)]
    rfl

/-! ### The program headers -/

/-- The program header at `o`, as a segment. -/
def phdrSegment (image : List UInt8) (o : Nat) : Segment where
  vaddr := le image (o + 16) 8
  offset := le image (o + 8) 8
  filesz := le image (o + 32) 8
  memsz := le image (o + 40) 8
  flags := le image (o + 4) 4

/-- Where the program headers are. -/
def phdrs (image : List UInt8) : List Nat :=
  (List.range (le image 56 2)).map fun i => le image 32 8 + i * phdrSize

/-- The `PT_LOAD` headers of a file that have a size. -/
def loadSegments (image : List UInt8) : List Segment :=
  ((phdrs image).filter fun o =>
    le image o 4 = ptLoad ∧ le image (o + 40) 8 ≠ 0).map (phdrSegment image)

/-- What `parse` checks of the ELF header. -/
structure HeaderValid (image : List UInt8) : Prop where
  long : ehdrSize ≤ image.length
  magic : image.take 4 = [0x7f, 0x45, 0x4c, 0x46]
  fileClass : image[4]? = some 2
  encoding : image[5]? = some 1
  kind : le image 16 2 = etExec
  arch : le image 18 2 = emX8664
  entrySize : le image 54 2 = phdrSize
  some_headers : 0 < le image 56 2
  few_headers : le image 56 2 ≤ maxPhdrs
  table : le image 32 8 + le image 56 2 * phdrSize ≤ image.length

/-- What the checks of `parse` say about one segment. -/
structure Segment.Valid (image : List UInt8) (s : Segment) : Prop where
  positive : 0 < s.memsz
  filesz : s.filesz ≤ s.memsz
  low : loadMin ≤ s.vaddr
  high : s.finish ≤ loadMax
  inFile : s.offset + s.filesz ≤ image.length
  exclusive : ¬ (s.writable = true ∧ s.executable = true)

def Segment.Apart (a b : Segment) : Prop :=
  a.finish ≤ b.vaddr ∨ b.finish ≤ a.vaddr

section

variable {image : List UInt8}

/-- The header is accepted exactly if it is valid and the end of the table is a
word. -/
theorem parseHeader_returns_iff {entry phoff phnum : Nat} :
    Returns (parseHeader image) (entry, phoff, phnum) ↔
      HeaderValid image ∧
      le image 32 8 + le image 56 2 * phdrSize < 2 ^ 64 ∧
      entry = le image 24 8 ∧ phoff = le image 32 8 ∧
      phnum = le image 56 2 := by
  unfold parseHeader
  rw [returns_check, Nat.not_lt]
  by_cases long : ehdrSize ≤ image.length
  case neg => exact ⟨fun ⟨is, _⟩ => absurd is long, fun ⟨valid, _⟩ => absurd valid.long long⟩
  have size := long
  unfold ehdrSize at size
  simp only [rd16, rd64]
  rw [readLe_eq (by omega), readLe_eq (by omega), readLe_eq (by omega),
    readLe_eq (by omega), readLe_eq (by omega), readLe_eq (by omega)]
  simp only [returns_check, returns_bind, returns_lift, returns_pure, Option.some.injEq,
    exists_eq_left', Prod.mk.injEq, not_or, not_not, Nat.not_lt, Nat.not_le]
  constructor
  · rintro ⟨-, magic, fileClass, isClass, encoding, isEncoding, ⟨rfl, rfl⟩,
      kind, arch, ⟨entrySize, headers, few⟩, small, table, rfl, rfl, rfl⟩
    exact ⟨⟨long, magic, isClass, isEncoding, kind, arch, entrySize,
      Nat.pos_of_ne_zero headers, few, table⟩, small, rfl, rfl, rfl⟩
  · rintro ⟨valid, small, rfl, rfl, rfl⟩
    exact ⟨long, valid.magic, 2, valid.fileClass, 1, valid.encoding,
      ⟨rfl, rfl⟩, valid.kind, valid.arch, ⟨valid.entrySize,
        valid.some_headers.ne', valid.few_headers⟩, small, valid.table, rfl,
      rfl, rfl⟩

/-- The program headers of a valid file lie in it. -/
theorem phdrs_inside (valid : HeaderValid image) :
    ∀ o ∈ phdrs image, o + phdrSize ≤ image.length := by
  intro o member
  obtain ⟨i, below, rfl⟩ := List.mem_map.mp member
  have index := List.mem_range.mp below
  have table := valid.table
  unfold phdrSize at table ⊢
  omega

theorem parseHeader_not_panics : ¬ Panics (parseHeader image) := by
  unfold parseHeader
  simp only [panics_check, panics_bind, panics_lift, panics_pure, returns_lift]
  rintro ⟨long, -, panic⟩
  have size : ehdrSize ≤ image.length := Nat.not_lt.mp long
  unfold ehdrSize at size
  have byte : ∀ o < 64, image[o]? ≠ none := by
    intro o below
    rw [List.getElem?_eq_getElem (by omega)]
    exact Option.some_ne_none _
  have word : ∀ o count, o + count ≤ 64 → readLe image o count ≠ none := by
    intro o count below
    rw [readLe_eq (by omega)]
    exact Option.some_ne_none _
  simp [rd16, rd64, byte, word] at panic

variable {segments : List Segment} {found : List Segment × Nat}

theorem checkSegment_returns {later : List Segment} {total laterTotal : Nat} {s : Segment}
    (positive : s.memsz ≠ 0)
    (result : Returns (checkSegment image segments total s) (later, laterTotal)) :
    later = segments ++ [s] ∧ s.Valid image := by
  unfold checkSegment at result
  simp only [returns_check, returns_pure, Prod.mk.injEq] at result
  obtain ⟨size, -, range, -, inFile, exclusive, -, -, rfl, -⟩ := result
  rw [not_or, Nat.not_lt, Nat.not_lt] at range
  exact ⟨rfl, Nat.pos_of_ne_zero positive, Nat.not_lt.mp size, range.1,
    range.2, Nat.not_lt.mp inFile, exclusive⟩

/-- One program header adds its segment, if it is to be loaded. -/
theorem parsePhdr_returns {later : List Segment × Nat} {o : Nat}
    (inside : o + phdrSize ≤ image.length) (result : Returns (parsePhdr image found o) later) :
    later.1 = found.1 ++ (([o].filter fun o =>
        le image o 4 = ptLoad ∧ le image (o + 40) 8 ≠ 0).map
          (phdrSegment image)) ∧
      ((∀ s ∈ found.1, s.Valid image) → ∀ s ∈ later.1, s.Valid image) := by
  unfold phdrSize at inside
  unfold parsePhdr at result
  simp only [rd32, rd64] at result
  rw [readLe_eq (by omega), readLe_eq (by omega), readLe_eq (by omega),
    readLe_eq (by omega), readLe_eq (by omega), readLe_eq (by omega)] at result
  simp only [returns_bind, returns_lift, Option.some.injEq,
    exists_eq_left', returns_check] at result
  obtain ⟨-, result⟩ := result
  split at result
  case isTrue skipped =>
    rw [returns_pure] at result
    subst result
    have none : ¬ (le image o 4 = ptLoad ∧ le image (o + 40) 8 ≠ 0) := by
      rintro ⟨load, size⟩
      exact skipped.elim (fun other => other load) size
    rw [List.filter_cons_of_neg (by simpa using none)]
    exact ⟨(List.append_nil _).symm, fun valid => valid⟩
  case isFalse wanted =>
    rw [not_or, not_not] at wanted
    obtain ⟨list, total⟩ := later
    obtain ⟨equal, valid⟩ := checkSegment_returns wanted.2 result
    rw [List.filter_cons_of_pos (by simpa using wanted)]
    refine ⟨equal, fun others s member => ?_⟩
    rw [equal] at member
    rcases List.mem_append.mp member with old | new
    · exact others s old
    · rw [List.mem_singleton.mp new]
      exact valid

theorem parsePhdr_not_panics {o : Nat} (inside : o + phdrSize ≤ image.length) :
    ¬ Panics (parsePhdr image found o) := by
  unfold phdrSize at inside
  unfold parsePhdr
  simp only [rd32, rd64]
  rw [readLe_eq (by omega), readLe_eq (by omega), readLe_eq (by omega),
    readLe_eq (by omega), readLe_eq (by omega), readLe_eq (by omega)]
  simp only [panics_bind, panics_lift, returns_lift, reduceCtorEq, false_or,
    Option.some.injEq, exists_eq_left', panics_check]
  rintro ⟨-, panic⟩
  split at panic
  · exact panics_pure panic
  · simp [checkSegment] at panic

theorem parseLoop_returns {offsets : List Nat} {later : List Segment × Nat}
    (inside : ∀ o ∈ offsets, o + phdrSize ≤ image.length)
    (result : Returns (offsets.foldlM (parsePhdr image) found) later) :
    later.1 = found.1 ++ ((offsets.filter fun o =>
        le image o 4 = ptLoad ∧ le image (o + 40) 8 ≠ 0).map
          (phdrSegment image)) ∧
      ((∀ s ∈ found.1, s.Valid image) → ∀ s ∈ later.1, s.Valid image) := by
  induction offsets generalizing found with
  | nil =>
    rw [List.foldlM_nil, returns_pure] at result
    subst result
    exact ⟨(List.append_nil _).symm, fun valid => valid⟩
  | cons o rest induction =>
    rw [List.foldlM_cons, returns_bind] at result
    obtain ⟨middle, first, result⟩ := result
    obtain ⟨one, keepsOne⟩ :=
      parsePhdr_returns (inside o List.mem_cons_self) first
    obtain ⟨more, keepsMore⟩ := induction
      (fun o member => inside o (List.mem_cons_of_mem _ member)) result
    refine ⟨?_, fun valid => keepsMore (keepsOne valid)⟩
    rw [more, one, List.append_assoc, ← List.map_append, ← List.filter_append]
    rfl

theorem apart_of_not_overlapping
    (clear : overlapping segments = false) : segments.Pairwise Segment.Apart := by
  induction segments with
  | nil => exact List.Pairwise.nil
  | cons a rest induction =>
    rw [overlapping, Bool.or_eq_false_iff] at clear
    refine List.Pairwise.cons ?_ (induction clear.2)
    intro b member
    have here := List.any_eq_false.mp clear.1 b member
    simp only [Bool.and_eq_true, decide_eq_true_eq, not_and_or, Nat.not_lt] at here
    exact here.symm

theorem parse_returns {entry : Nat} (result : Returns (parse image) (entry, segments)) :
    segments = loadSegments image ∧ (∀ s ∈ segments, s.Valid image) ∧
      segments.Pairwise Segment.Apart ∧
      ∃ s ∈ segments, s.executable = true ∧ s.vaddr ≤ entry ∧
        entry < s.finish := by
  unfold parse at result
  rw [returns_bind] at result
  obtain ⟨⟨start, phoff, phnum⟩, header, result⟩ := result
  obtain ⟨headerValid, -, rfl, rfl, rfl⟩ := parseHeader_returns_iff.mp header
  simp only [returns_bind, returns_check, returns_pure, Prod.mk.injEq] at result
  obtain ⟨⟨list, total⟩, loop, -, clear, found, rfl, rfl⟩ := result
  obtain ⟨shape, valid⟩ := parseLoop_returns (phdrs_inside headerValid) loop
  refine ⟨shape, valid (by simp), apart_of_not_overlapping (by simpa using clear), ?_⟩
  simpa [and_assoc] using found

/-- `parse` never reads outside the file. -/
theorem parse_not_panics : ¬ Panics (parse image) := by
  unfold parse
  rw [panics_bind]
  rintro (panic | ⟨⟨start, phoff, phnum⟩, header, panic⟩)
  · exact parseHeader_not_panics panic
  obtain ⟨valid, -, rfl, rfl, rfl⟩ := parseHeader_returns_iff.mp header
  rw [panics_bind] at panic
  rcases panic with panic | ⟨⟨list, total⟩, -, panic⟩
  · refine not_panics_foldlM ?_ _ panic
    intro found o member
    exact parsePhdr_not_panics (phdrs_inside valid o member)
  · simp at panic

end

end Eonos.Elf
