import Eonos.Elf.Words

/-!
# Exactly which files `parse` accepts

The checks of `parse` are spread over a loop that fails at the first one that
does not hold; a file passes all of them exactly if its headers meet the
conditions below, whatever their order.
-/

namespace Eonos.Elf

open Eonos.Vmm
open Eonos.Lib

/-- A byte slice; none is longer than `isize::MAX`. -/
structure Slice where
  bytes : List UInt8
  fits : bytes.length < 2 ^ 63

/-- How many pages a segment touches. -/
def Segment.pages (s : Segment) : Nat :=
  (alignUp s.finish - alignDown s.vaddr) / pageSize

/-- A program header that is to be loaded. -/
def Loadable (image : List UInt8) (o : Nat) : Prop :=
  le image o 4 = ptLoad ∧ le image (o + 40) 8 ≠ 0

instance (image : List UInt8) : DecidablePred (Loadable image) := fun o => by
  unfold Loadable
  infer_instance

/-- What a file has to meet to be accepted, with its entry point and its
segments. -/
structure Accepted (image : List UInt8) (entry : Nat)
    (segments : List Segment) : Prop where
  header : HeaderValid image
  entry_eq : entry = le image 24 8
  segments_eq : segments = loadSegments image
  some_segments : 1 ≤ segments.length
  few_segments : segments.length ≤ maxSegments
  valid : ∀ s ∈ segments, s.Valid image
  apart : segments.Pairwise Segment.Apart
  pages : (segments.map Segment.pages).sum ≤ maxPages
  static : ∀ o ∈ phdrs image, le image o 4 ≠ ptInterp
  entry_inside : ∃ s ∈ segments, s.executable = true ∧ s.vaddr ≤ entry ∧
    entry < s.finish

section

variable {image : List UInt8}

variable {segments : List Segment}

theorem checkSegment_returns_iff {total : Nat} {s : Segment} {later : List Segment × Nat}
    (slice : image.length < 2 ^ 63) (positive : s.memsz ≠ 0) :
    Returns (checkSegment image segments total s) later ↔
      s.Valid image ∧ segments.length ≠ maxSegments ∧
      total + s.pages ≤ maxPages ∧
      (segments ++ [s], total + s.pages) = later := by
  unfold checkSegment
  simp only [returns_check, returns_pure, not_or, Nat.not_lt, Nat.not_le]
  constructor
  · rintro ⟨size, -, ⟨low, high⟩, -, inFile, exclusive, room, few, rfl⟩
    exact ⟨⟨Nat.pos_of_ne_zero positive, size, low, high, inFile, exclusive⟩, room, few, rfl⟩
  · rintro ⟨valid, room, few, rfl⟩
    exact ⟨valid.filesz, valid.high.trans_lt (by decide), ⟨valid.low, valid.high⟩,
      valid.inFile.trans_lt (by omega), valid.inFile, valid.exclusive, room, few, rfl⟩

theorem parsePhdr_returns_iff {found later : List Segment × Nat} {o : Nat}
    (slice : image.length < 2 ^ 63) (inside : o + phdrSize ≤ image.length) :
    Returns (parsePhdr image found o) later ↔
      le image o 4 ≠ ptInterp ∧
      if Loadable image o then
        (phdrSegment image o).Valid image ∧ found.1.length ≠ maxSegments ∧
        found.2 + (phdrSegment image o).pages ≤ maxPages ∧
        (found.1 ++ [phdrSegment image o],
          found.2 + (phdrSegment image o).pages) = later
      else found = later := by
  unfold phdrSize at inside
  unfold parsePhdr
  simp only [rd32, rd64]
  rw [readLe_eq (by omega), readLe_eq (by omega), readLe_eq (by omega),
    readLe_eq (by omega), readLe_eq (by omega), readLe_eq (by omega)]
  simp only [returns_bind, returns_lift, Option.some.injEq, exists_eq_left', returns_check]
  refine and_congr_right fun _ => ?_
  by_cases wanted : Loadable image o
  · rw [if_pos wanted, if_neg (by
      rintro (other | empty)
      · exact other wanted.1
      · exact wanted.2 empty)]
    exact checkSegment_returns_iff slice wanted.2
  · rw [if_neg wanted, if_pos (by
      by_contra both
      rw [not_or, not_not] at both
      exact wanted both), returns_pure]

/-- The loop passes exactly if every header does and the segments are few and
small enough together. -/
theorem parseLoop_returns_iff {offsets : List Nat} {found later : List Segment × Nat}
    (slice : image.length < 2 ^ 63) (inside : ∀ o ∈ offsets, o + phdrSize ≤ image.length)
    (few : found.1.length ≤ maxSegments) (small : found.2 ≤ maxPages) :
    Returns (offsets.foldlM (parsePhdr image) found) later ↔
      (∀ o ∈ offsets, le image o 4 ≠ ptInterp) ∧
      (∀ o ∈ offsets.filter (Loadable image),
        (phdrSegment image o).Valid image) ∧
      found.1.length + (offsets.filter (Loadable image)).length ≤
        maxSegments ∧
      found.2 + ((offsets.filter (Loadable image)).map fun o =>
        (phdrSegment image o).pages).sum ≤ maxPages ∧
      (found.1 ++ (offsets.filter (Loadable image)).map (phdrSegment image),
        found.2 + ((offsets.filter (Loadable image)).map fun o =>
          (phdrSegment image o).pages).sum) = later := by
  induction offsets generalizing found with
  | nil => simp [few, small]
  | cons o rest induction =>
    have restInside : ∀ o ∈ rest, o + phdrSize ≤ image.length :=
      fun o member => inside o (List.mem_cons_of_mem _ member)
    rw [List.foldlM_cons, returns_bind]
    simp only [parsePhdr_returns_iff slice (inside o List.mem_cons_self)]
    by_cases wanted : Loadable image o
    · simp only [if_pos wanted]
      rw [List.filter_cons_of_pos (by simpa using wanted)]
      constructor
      · rintro ⟨middle, ⟨static, valid, room, pages, rfl⟩, result⟩
        obtain ⟨statics, valids, total, sum, rfl⟩ :=
          (induction restInside (by simp; omega) pages).mp result
        rw [List.length_append, List.length_singleton] at total
        refine ⟨List.forall_mem_cons.mpr ⟨static, statics⟩,
          List.forall_mem_cons.mpr ⟨valid, valids⟩, ?_, ?_, ?_⟩
        · rw [List.length_cons]
          omega
        · rw [List.map_cons, List.sum_cons]
          omega
        · simp only [List.map_cons, List.sum_cons, List.append_assoc,
            List.singleton_append, Nat.add_assoc]
      · rintro ⟨statics, valids, total, sum, rfl⟩
        obtain ⟨static, statics⟩ := List.forall_mem_cons.mp statics
        obtain ⟨valid, valids⟩ := List.forall_mem_cons.mp valids
        rw [List.length_cons] at total
        rw [List.map_cons, List.sum_cons] at sum
        refine ⟨_, ⟨static, valid, by omega, by omega, rfl⟩, ?_⟩
        rw [induction restInside (by simp; omega) (by simp only; omega)]
        refine ⟨statics, valids, by simp; omega, by simp only; omega, ?_⟩
        simp only [List.map_cons, List.sum_cons, List.append_assoc,
          List.singleton_append, Nat.add_assoc]
    · simp only [if_neg wanted]
      rw [List.filter_cons_of_neg (by simpa using wanted)]
      constructor
      · rintro ⟨middle, ⟨static, rfl⟩, result⟩
        obtain ⟨statics, others⟩ := (induction restInside few small).mp result
        exact ⟨List.forall_mem_cons.mpr ⟨static, statics⟩, others⟩
      · rintro ⟨statics, others⟩
        obtain ⟨static, statics⟩ := List.forall_mem_cons.mp statics
        exact ⟨found, ⟨static, rfl⟩, (induction restInside few small).mpr ⟨statics, others⟩⟩

theorem overlapping_eq_false_iff :
    overlapping segments = false ↔ segments.Pairwise Segment.Apart := by
  refine ⟨apart_of_not_overlapping, fun apart => ?_⟩
  induction apart with
  | nil => rfl
  | @cons a rest first _ induction =>
    rw [overlapping, Bool.or_eq_false_iff]
    refine ⟨List.any_eq_false.mpr fun b member => ?_, induction⟩
    simp only [Bool.and_eq_true, decide_eq_true_eq, not_and_or, Nat.not_lt]
    exact (first b member).symm

theorem loadSegments_eq : loadSegments image =
    ((phdrs image).filter (Loadable image)).map (phdrSegment image) := rfl

theorem parse_returns_iff {entry : Nat} (slice : image.length < 2 ^ 63) :
    Returns (parse image) (entry, segments) ↔ Accepted image entry segments := by
  unfold parse
  simp only [returns_bind, returns_check, returns_pure, Prod.mk.injEq, Prod.exists]
  constructor
  · rintro ⟨start, phoff, phnum, header, list, total, loop, filled, clear, found, rfl, rfl⟩
    obtain ⟨valid, -, rfl, rfl, rfl⟩ := parseHeader_returns_iff.mp header
    obtain ⟨static, valids, few, sum, result⟩ :=
      (parseLoop_returns_iff slice (phdrs_inside valid) (Nat.zero_le _) (Nat.zero_le _)).mp loop
    rw [Prod.mk.injEq] at result
    obtain ⟨rfl, rfl⟩ := result
    simp only [List.nil_append] at filled clear found ⊢
    refine ⟨valid, rfl, loadSegments_eq, ?_, ?_, ?_, ?_, ?_, static, ?_⟩
    · refine List.length_pos_of_ne_nil fun empty => filled ?_
      exact List.isEmpty_iff.mpr empty
    · rw [List.length_map]
      simpa using few
    · intro s member
      obtain ⟨o, wanted, rfl⟩ := List.mem_map.mp member
      exact valids o wanted
    · exact overlapping_eq_false_iff.mp (by simpa using clear)
    · rw [List.map_map]
      simpa [Function.comp_def] using sum
    · simpa [and_assoc] using found
  · intro accepted
    obtain rfl := accepted.segments_eq
    obtain rfl := accepted.entry_eq
    have few := accepted.few_segments
    have valids := accepted.valid
    have pages := accepted.pages
    rw [loadSegments_eq] at few valids pages
    rw [List.length_map] at few
    rw [List.map_map] at pages
    have header := parseHeader_returns_iff.mpr ⟨accepted.header,
      accepted.header.table.trans_lt (by omega), rfl, rfl, rfl⟩
    have loop := (@parseLoop_returns_iff image (phdrs image) ([], 0) _ slice
      (phdrs_inside accepted.header) (Nat.zero_le _) (Nat.zero_le _)).mpr
      ⟨accepted.static, fun o member => valids _ (List.mem_map_of_mem member),
        by simpa using few, by simpa [Function.comp_def] using pages, rfl⟩
    rw [List.nil_append, ← loadSegments_eq] at loop
    refine ⟨_, _, _, header, _, _, loop, ?_, ?_, ?_, rfl, rfl⟩
    · intro empty
      have some_segments := accepted.some_segments
      rw [List.isEmpty_iff.mp empty] at some_segments
      exact absurd some_segments (by decide)
    · simpa using overlapping_eq_false_iff.mpr accepted.apart
    · simpa [and_assoc] using accepted.entry_inside

end

/-- On every byte slice `parse` neither indexes out of bounds nor overflows, and
it returns an entry point and segments exactly if they are those of a file that
meets the conditions. -/
theorem parse_accepts_exactly (image : Slice) :
    ¬ Panics (parseWords image.bytes) ∧
      ∀ entry segments,
        Returns (parseWords image.bytes) (entry, segments) ↔
          Accepted image.bytes entry segments := by
  rw [parseWords_eq]
  exact ⟨parse_not_panics, fun _ _ => parse_returns_iff image.fits⟩

end Eonos.Elf
