import Eonos.Heap.Insert

/-!
# The free list is canonical

A well-formed free list is the list of maximal runs of free bytes.  Inserting
ranges adds their bytes, so in which order they come does not matter.
-/

namespace Eonos.Heap

open Lib

namespace FreeList

/-- Address order with gaps, and room for a header in every block. -/
structure WellFormed (list : FreeList) : Prop where
  separated : Separated list.blocks
  sized : ∀ b ∈ list.blocks, WellSized b

/-- What the assertions of `insert` ask of a range. -/
structure Insertable (range : Span) : Prop where
  aligned : range.addr % blockHeaderAlign = 0
  header : blockHeaderSize ≤ range.size

/-- Ranges inserted one after the other. -/
def insertAll (list : FreeList) (ranges : List Span) : FreeList :=
  ranges.foldl (fun list range => list.insert range.addr range.size) list

section

variable {list : FreeList} {ranges : List Span}

theorem Insertable.positive {range : Span} (insertable : Insertable range) :
    0 < range.size := Nat.lt_of_lt_of_le (by decide) insertable.header

theorem insertAll_eq : list.insertAll ranges =
    { list with blocks := (list.insertAll ranges).blocks } := by
  induction ranges generalizing list with
  | nil => rfl
  | cons range rest induction => exact induction

/-- A list of nonempty blocks stays one, and every range adds its
bytes. -/
theorem insertAll_spec (separated : Separated list.blocks) (sized : ∀ b ∈ list.blocks, 0 < b.size)
    (insertable : ∀ r ∈ ranges, Insertable r) (disjoint : ranges.Pairwise Span.Apart)
    (apart : ∀ r ∈ ranges, ∀ b ∈ list.blocks, b.Apart r) :
    Separated (list.insertAll ranges).blocks ∧
      (∀ b ∈ (list.insertAll ranges).blocks, 0 < b.size) ∧
      ∀ a, Covered (list.insertAll ranges).blocks a ↔
        Covered list.blocks a ∨ Covered ranges a := by
  induction ranges generalizing list with
  | nil => exact ⟨separated, sized, fun a => by simp [insertAll]⟩
  | cons range rest induction =>
    obtain ⟨first, disjoint⟩ := List.pairwise_cons.mp disjoint
    obtain ⟨here, insertable⟩ := List.forall_mem_cons.mp insertable
    obtain ⟨clear, apart⟩ := List.forall_mem_cons.mp apart
    obtain ⟨kept, covered⟩ := insertBlocks_spec separated sized here.positive clear
    have nonempty : ∀ b ∈ (list.insert range.addr range.size).blocks, 0 < b.size :=
      insertBlocks_positive sized here.positive
    have others : ∀ r ∈ rest, ∀ b ∈ (list.insert range.addr range.size).blocks, b.Apart r := by
      intro r member b inside a has
      rcases (covered a).mp ⟨b, inside, has⟩ with ⟨old, there, also⟩ | new
      · exact apart r member old there a also
      · exact first r member a new
    obtain ⟨result, positive, all⟩ := induction kept nonempty insertable disjoint others
    refine ⟨result, positive, fun a => (all a).trans ?_⟩
    change Covered (insertBlocks list.blocks range.addr range.size) a ∨ _ ↔ _
    rw [covered, covered_cons, or_assoc]

end

/-- Whatever the order, inserting disjoint ranges yields the address-ordered
list of the maximal runs of free bytes. -/
theorem insertAll_canonical {list : FreeList} {ranges order : List Span}
    (wellFormed : list.WellFormed) (insertable : ∀ r ∈ ranges, Insertable r)
    (disjoint : ranges.Pairwise Span.Apart) (apart : ∀ r ∈ ranges, ∀ b ∈ list.blocks, b.Apart r)
    (permuted : order.Perm ranges) :
    list.insertAll order = list.insertAll ranges ∧
      Separated (list.insertAll order).blocks ∧
      ∀ s, s ∈ (list.insertAll order).blocks ↔
        IsRun (fun a => Covered list.blocks a ∨ Covered ranges a) s := by
  have positive : ∀ b ∈ list.blocks, 0 < b.size :=
    fun b member => (wellFormed.sized b member).nonempty
  have same : ∀ r, r ∈ order ↔ r ∈ ranges := fun r => permuted.mem_iff
  obtain ⟨one, oneSized, oneCovers⟩ := insertAll_spec wellFormed.separated
    positive insertable disjoint apart
  obtain ⟨two, twoSized, twoCovers⟩ := insertAll_spec wellFormed.separated
    positive (fun r member => insertable r ((same r).mp member))
    (permuted.symm.pairwise disjoint Span.Apart.symm)
    (fun r member => apart r ((same r).mp member))
  have bytes : ∀ a, Covered order a ↔ Covered ranges a := by
    intro a
    unfold Covered
    simp only [same]
  have blocks : (list.insertAll order).blocks = (list.insertAll ranges).blocks :=
    two.eq_of_covered one twoSized oneSized fun a => by
      rw [twoCovers, oneCovers, bytes]
  have covers : Covered (list.insertAll order).blocks =
      fun a => Covered list.blocks a ∨ Covered ranges a :=
    funext fun a => propext ((twoCovers a).trans (or_congr_right (bytes a)))
  refine ⟨?_, two, fun s => ?_⟩
  · rw [insertAll_eq, blocks, ← insertAll_eq]
  · rw [two.mem_iff_isRun twoSized, covers]

/-- Two ranges around a free block, in the other order. -/
theorem sample_insertAll_canonical :
    (FreeList.mk [⟨0x1040, 0x20⟩] 0x2000 0 0).insertAll
        [⟨0x1060, 0x10⟩, ⟨0x1030, 0x10⟩] =
      (FreeList.mk [⟨0x1040, 0x20⟩] 0x2000 0 0).insertAll
        [⟨0x1030, 0x10⟩, ⟨0x1060, 0x10⟩] := by
  refine (insertAll_canonical ⟨?_, ?_⟩ ?_ ?_ ?_ (List.Perm.swap _ _ _)).1
  · exact List.pairwise_singleton _ _
  · exact List.forall_mem_singleton.mpr ⟨by decide, by decide, by decide⟩
  · exact List.forall_mem_cons.mpr ⟨⟨by decide, by decide⟩,
      List.forall_mem_singleton.mpr ⟨by decide, by decide⟩⟩
  · refine List.pairwise_pair.mpr fun a left right => ?_
    simp only [Span.Has, Span.finish] at left right
    omega
  · intro r member b inside a left right
    rw [List.mem_singleton.mp inside] at left
    simp only [List.mem_cons, List.not_mem_nil, or_false] at member
    rcases member with rfl | rfl
    · simp only [Span.Has, Span.finish] at left right
      omega
    · simp only [Span.Has, Span.finish] at left right
      omega

end FreeList

end Eonos.Heap
