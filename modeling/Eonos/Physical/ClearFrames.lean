import Eonos.Physical.Model

/-!
# Counting available frames

The allocator keeps `free_frames` by hand next to the bitmap.  The facts below
relate the set of clear bits before and after each way of updating the bitmap,
so that the counter can be compared with the bits it stands for.
-/

namespace Eonos.Physical

open Bitmap

/-- Frames whose bit is clear, over the whole bitmap. -/
def clearFrames (bm : Bitmap) : Finset Nat :=
  (Finset.range (64 * bm.length)).filter fun f => bm.testBit f = false

theorem mem_clearFrames {bm : Bitmap} {f : Nat} :
    f ∈ clearFrames bm ↔ f < 64 * bm.length ∧ bm.testBit f = false := by
  simp [clearFrames]

variable {before after : Bitmap} {first : Nat}

theorem Bitmap.Filled.clearFrames_of_used {finish : Nat}
    (filled : Filled before after first finish true) :
    clearFrames after = clearFrames before \ Finset.Ico first finish := by
  ext f
  simp only [mem_clearFrames, Finset.mem_sdiff, Finset.mem_Ico, filled.1, filled.2 f]
  by_cases inside : first ≤ f ∧ f < finish <;> simp [inside]

theorem Bitmap.Filled.clearFrames_of_unused {finish : Nat}
    (filled : Filled before after first finish false) (fits : finish ≤ 64 * before.length) :
    clearFrames after = clearFrames before ∪ Finset.Ico first finish := by
  ext f
  simp only [mem_clearFrames, Finset.mem_union, Finset.mem_Ico, filled.1, filled.2 f]
  by_cases inside : first ≤ f ∧ f < finish
  · simp only [inside, and_self, if_true, or_true, iff_true, and_true]
    omega
  · simp [inside]

theorem card_clearFrames_of_used {count : Nat}
    (filled : Filled before after first (first + count) true)
    (clear : Finset.Ico first (first + count) ⊆ clearFrames before) :
    (clearFrames after).card = (clearFrames before).card - count := by
  rw [filled.clearFrames_of_used, Finset.card_sdiff_of_subset clear]
  simp

theorem card_clearFrames_of_unused {count : Nat}
    (filled : Filled before after first (first + count) false)
    (fits : first + count ≤ 64 * before.length)
    (set : Disjoint (clearFrames before) (Finset.Ico first (first + count))) :
    (clearFrames after).card = (clearFrames before).card + count := by
  rw [filled.clearFrames_of_unused fits, Finset.card_union_of_disjoint set]
  simp

theorem testBit_replicate_allOnes {words i : Nat} (inside : i < 64 * words) :
    testBit (List.replicate words (BitVec.allOnes 64)) i = true := by
  have small : i % 64 < 64 := Nat.mod_lt _ (by decide)
  have wordInside : i / 64 < words := by omega
  have full : word (List.replicate words (BitVec.allOnes 64)) (i / 64) =
        BitVec.allOnes 64 := by
    unfold word
    rw [List.getD_eq_getElem?_getD, List.getElem?_replicate, if_pos wordInside]
    rfl
  rw [testBit_eq_getLsbD, full, BitVec.getLsbD_allOnes]
  exact decide_eq_true small

theorem clearFrames_replicate_allOnes (words : Nat) :
    clearFrames (List.replicate words (BitVec.allOnes 64)) = ∅ := by
  apply Finset.eq_empty_of_forall_notMem
  intro f member
  obtain ⟨inside, clear⟩ := mem_clearFrames.mp member
  rw [List.length_replicate] at inside
  rw [testBit_replicate_allOnes inside] at clear
  exact Bool.noConfusion clear

/-! ## Releasing the regions of a memory map -/

namespace Region

/-- Frame numbers of the allocatable part of a region. -/
def frames (r : Region) : Finset Nat :=
  Finset.Ico (r.allocStart / pageSize) (r.allocStart / pageSize + r.allocFrames)

theorem mem_frames {r : Region} {f : Nat} :
    f ∈ r.frames ↔ r.allocStart / pageSize ≤ f ∧ f < r.allocEnd / pageSize := by
  have startMultiple : r.allocStart % pageSize = 0 := by
    simp [allocStart, alignUp]
  have endMultiple : r.allocEnd % pageSize = 0 := by
    simp [allocEnd, alignDown]
  simp only [frames, Finset.mem_Ico, allocFrames, pageSize] at *
  omega

/-- A frame of a region is a page that lies wholly inside it, above 1 MiB. -/
theorem page_inside_of_mem_frames {r : Region} {f : Nat} (member : f ∈ r.frames) :
    minAllocAddr ≤ f * pageSize ∧ r.base ≤ f * pageSize ∧ f * pageSize + pageSize ≤ r.finish := by
  obtain ⟨low, high⟩ := mem_frames.mp member
  simp only [allocStart, allocEnd, alignUp, alignDown, minAllocAddr, pageSize] at *
  omega

end Region

/-- Regions of the given kind have pairwise disjoint frames, and all of them
lie inside a bitmap of `words` words. -/
structure Releasable (kind : Kind) (words : Nat) (regions : List Region) :
    Prop where
  disjoint : regions.Pairwise fun r s =>
    r.kind = kind → s.kind = kind → Disjoint r.frames s.frames
  inside : ∀ r ∈ regions, r.kind = kind → ∀ f ∈ r.frames, f < 64 * words

/-- The frames freed by `releaseRegions`. -/
def Released (kind : Kind) (regions : List Region) (f : Nat) : Prop :=
  ∃ r ∈ regions, r.kind = kind ∧ f ∈ r.frames

theorem Region.frames_eq_empty {r : Region}
    (empty : ¬ r.allocStart < r.allocEnd) : r.frames = ∅ := by
  have none : r.allocFrames = 0 := by
    unfold Region.allocFrames
    rw [Nat.sub_eq_zero_of_le (Nat.le_of_not_lt empty)]
    rfl
  simp [Region.frames, none]

/-- A frame of a region of another kind, or of one without whole pages, is not
released. -/
theorem released_cons_of_not {kind : Kind} {r : Region} {rest : List Region}
    (other : ¬ (r.kind = kind ∧ r.allocStart < r.allocEnd)) (f : Nat) :
    Released kind (r :: rest) f ↔ Released kind rest f := by
  constructor
  · rintro ⟨s, member, sameKind, inside⟩
    rcases List.mem_cons.mp member with rfl | later
    · rw [Region.frames_eq_empty fun nonempty => other ⟨sameKind, nonempty⟩] at inside
      exact absurd inside (Finset.notMem_empty f)
    · exact ⟨s, later, sameKind, inside⟩
  · rintro ⟨s, member, sameKind, inside⟩
    exact ⟨s, List.mem_cons_of_mem r member, sameKind, inside⟩

theorem Region.frames_fit {r : Region} {words : Nat} (nonempty : r.allocStart < r.allocEnd)
    (inside : ∀ f ∈ r.frames, f < 64 * words) :
    r.allocStart / pageSize + r.allocFrames ≤ 64 * words := by
  by_cases empty : r.allocFrames = 0
  · simp only [Region.allocFrames, Region.allocStart, Region.allocEnd,
      alignUp, alignDown, pageSize] at empty nonempty
    omega
  · have last : r.allocStart / pageSize + (r.allocFrames - 1) ∈ r.frames := by
      apply Finset.mem_Ico.mpr
      exact ⟨Nat.le_add_right _ _, Nat.add_lt_add_left (Nat.sub_one_lt empty) _⟩
    have below := inside _ last
    omega

/-- Releasing regions clears exactly their frames.  The returned count is at
least the number of bits that became clear, and the same when no bit was clear
before and no frame belongs to two regions. -/
theorem releaseRegions_clears (kind : Kind) (regions : List Region) (bm : Bitmap) (count : Nat)
    (inside : ∀ r ∈ regions, r.kind = kind → ∀ f ∈ r.frames, f < 64 * bm.length) :
    ∃ after total,
      releaseRegions kind regions bm count = (after, count + total) ∧
      after.length = bm.length ∧
      (clearFrames after).card ≤ (clearFrames bm).card + total ∧
      (∀ f, f ∈ clearFrames after ↔
        f ∈ clearFrames bm ∨ Released kind regions f) ∧
      ((regions.Pairwise fun r s =>
          r.kind = kind → s.kind = kind → Disjoint r.frames s.frames) →
        (∀ f, Released kind regions f → f ∉ clearFrames bm) →
        (clearFrames after).card = (clearFrames bm).card + total) := by
  induction regions generalizing bm count with
  | nil =>
    refine ⟨bm, 0, rfl, rfl, Nat.le_refl _, ?_, fun _ _ => rfl⟩
    intro f
    simp [Released]
  | cons r rest induction =>
    obtain ⟨headInside, restInside⟩ := List.forall_mem_cons.mp inside
    by_cases chosen : r.kind = kind ∧ r.allocStart < r.allocEnd
    · have fits := Region.frames_fit chosen.2 (headInside chosen.1)
      have filled := fillRange_filled bm (r.allocStart / pageSize) r.allocFrames false fits
      have clearEq : clearFrames (bm.fillRange (r.allocStart / pageSize)
          r.allocFrames false) = clearFrames bm ∪ r.frames :=
        filled.clearFrames_of_unused fits
      have size : r.frames.card = r.allocFrames := by
        simp [Region.frames]
      obtain ⟨after, total, result, length, card, members, exact⟩ :=
        induction (bm.fillRange (r.allocStart / pageSize) r.allocFrames false)
          (count + r.allocFrames) (by rw [filled.1]; exact restInside)
      refine ⟨after, r.allocFrames + total, ?_, ?_, ?_, ?_, ?_⟩
      · rw [releaseRegions, if_pos chosen, result, Nat.add_assoc]
      · rw [length, filled.1]
      · have union := Finset.card_union_le (clearFrames bm) r.frames
        rw [clearEq] at card
        omega
      · intro f
        rw [members, clearEq, Finset.mem_union]
        constructor
        · rintro ((old | new) | ⟨s, member, sameKind, inFrames⟩)
          · exact .inl old
          · exact .inr ⟨r, List.mem_cons_self, chosen.1, new⟩
          · exact .inr ⟨s, List.mem_cons_of_mem r member, sameKind, inFrames⟩
        · rintro (old | ⟨s, member, sameKind, inFrames⟩)
          · exact .inl (.inl old)
          · rcases List.mem_cons.mp member with rfl | later
            · exact .inl (.inr inFrames)
            · exact .inr ⟨s, later, sameKind, inFrames⟩
      · intro disjoint set
        obtain ⟨head, tail⟩ := List.pairwise_cons.mp disjoint
        have headSet : Disjoint (clearFrames bm) r.frames := by
          apply Finset.disjoint_right.mpr
          intro f member
          exact set f ⟨r, List.mem_cons_self, chosen.1, member⟩
        rw [exact tail, clearEq, Finset.card_union_of_disjoint headSet, size, Nat.add_assoc]
        rintro f ⟨s, member, sameKind, inFrames⟩ inClear
        rw [clearEq] at inClear
        rcases Finset.mem_union.mp inClear with old | new
        · exact set f ⟨s, List.mem_cons_of_mem r member, sameKind, inFrames⟩ old
        · exact Finset.disjoint_left.mp (head s member chosen.1 sameKind) new inFrames
    · have releasedIff := @released_cons_of_not kind r rest chosen
      obtain ⟨after, total, result, length, card, members, exact⟩ :=
        induction bm count restInside
      refine ⟨after, total, ?_, length, card, ?_, ?_⟩
      · rw [releaseRegions, if_neg chosen, result]
      · intro f
        rw [members, releasedIff]
      · intro disjoint set
        exact exact (List.pairwise_cons.mp disjoint).2
          fun f released => set f ((releasedIff f).mpr released)

/-- Releasing regions whose bits are all set clears exactly their frames, and
the returned count is the number of bits that became clear. -/
theorem releaseRegions_spec (kind : Kind) (regions : List Region) (bm : Bitmap) (count : Nat)
    (releasable : Releasable kind bm.length regions)
    (set : ∀ f, Released kind regions f → f ∉ clearFrames bm) :
    ∃ after total,
      releaseRegions kind regions bm count = (after, count + total) ∧
      after.length = bm.length ∧
      (clearFrames after).card = (clearFrames bm).card + total ∧
      ∀ f, f ∈ clearFrames after ↔
        f ∈ clearFrames bm ∨ Released kind regions f := by
  obtain ⟨after, total, result, length, -, members, exact⟩ :=
    releaseRegions_clears kind regions bm count releasable.inside
  exact ⟨after, total, result, length, exact releasable.disjoint set, members⟩

end Eonos.Physical
