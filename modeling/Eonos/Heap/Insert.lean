import Eonos.Heap.Model

/-!
# Inserting into the free list

`insert` keeps the free list address-ordered with a gap between consecutive
blocks, and makes exactly the inserted bytes free.  Both merges are covered: a
block that touches its successor, its predecessor, or both.
-/

namespace Eonos.Heap

open Lib

/-- What every block on the free list satisfies on its own. -/
structure WellSized (block : FreeBlock) : Prop where
  addrAligned : block.addr % blockHeaderAlign = 0
  sizeAligned : block.size % blockHeaderAlign = 0
  header : blockHeaderSize ≤ block.size

theorem WellSized.nonempty {block : FreeBlock} (sized : WellSized block) : 0 < block.size :=
  Nat.lt_of_lt_of_le (by decide) sized.header

namespace FreeList

/-- The two halves of the list around an inserted span: everything in `before`
ends at or below it, everything in `after` starts at or above its end. -/
structure Around (before after : List FreeBlock) (addr size : Nat) : Prop where
  left : ∀ block ∈ before, block.finish ≤ addr
  right : ∀ block ∈ after, addr + size ≤ block.addr

variable {blocks : List FreeBlock} {addr size : Nat}

theorem around_of_apart (separated : Separated blocks) (sized : ∀ b ∈ blocks, 0 < b.size)
    (positive : 0 < size) (apart : ∀ b ∈ blocks, b.Apart ⟨addr, size⟩) :
    Around (blocks.takeWhile fun block => block.addr < addr)
      (blocks.dropWhile fun block => block.addr < addr) addr size := by
  constructor
  · intro block member
    have inBlocks := (List.takeWhile_sublist _).subset member
    have below := List.mem_takeWhile_imp member
    simp only [decide_eq_true_eq] at below
    rcases (apart block inBlocks).before_or_after (sized block inBlocks) positive with ends | starts
    · exact ends
    · simp only [Span.finish] at starts
      omega
  · induction blocks with
    | nil => simp
    | cons head rest induction =>
      obtain ⟨ahead, tail⟩ := separated_cons.mp separated
      by_cases below : head.addr < addr
      · rw [List.dropWhile_cons_of_pos (by simpa using below)]
        exact induction tail
          (fun b member => sized b (List.mem_cons_of_mem _ member))
          (fun b member => apart b (List.mem_cons_of_mem _ member))
      · rw [List.dropWhile_cons_of_neg (by simpa using below)]
        have headAbove : addr + size ≤ head.addr := by
          rcases (apart head List.mem_cons_self).before_or_after
            (sized head List.mem_cons_self) positive with ends | starts
          · have headSized := sized head List.mem_cons_self
            simp only [Span.finish] at ends
            omega
          · exact starts
        intro block member
        rcases List.mem_cons.mp member with rfl | later
        · exact headAbove
        · have gap := ahead block later
          simp only [Span.finish] at gap
          omega

theorem mergeNext_spec {after : List FreeBlock} (separated : Separated after)
    (right : ∀ block ∈ after, addr + size ≤ block.addr) :
    Separated (⟨addr, (mergeNext addr size after).1⟩ ::
        (mergeNext addr size after).2) ∧
      size ≤ (mergeNext addr size after).1 ∧
      (mergeNext addr size after).2 ⊆ after ∧
      ∀ a, Covered (⟨addr, (mergeNext addr size after).1⟩ ::
          (mergeNext addr size after).2) a ↔
        (Span.mk addr size).Has a ∨ Covered after a := by
  cases after with
  | nil =>
    refine ⟨?_, Nat.le_refl _, List.Subset.refl _, fun a => ?_⟩
    · exact separated_cons.mpr ⟨by simp [mergeNext], List.Pairwise.nil⟩
    · simp [mergeNext]
  | cons cur rest =>
    obtain ⟨ahead, tail⟩ := separated_cons.mp separated
    have curAbove := right cur List.mem_cons_self
    by_cases adjacent : addr + size = cur.addr
    · simp only [mergeNext, if_pos adjacent]
      refine ⟨?_, Nat.le_add_right _ _, List.subset_cons_self _ _, fun a => ?_⟩
      · apply separated_cons.mpr
        refine ⟨?_, tail⟩
        intro block member
        have gap := ahead block member
        simp only [Span.finish] at gap ⊢
        omega
      · simp only [covered_cons, ← or_assoc]
        apply or_congr_left
        simp only [Span.Has, Span.finish]
        omega
    · simp only [mergeNext, if_neg adjacent]
      refine ⟨?_, Nat.le_refl _, List.Subset.refl _, fun a => ?_⟩
      · apply separated_cons.mpr
        refine ⟨?_, separated⟩
        intro block member
        simp only [Span.finish]
        rcases List.mem_cons.mp member with rfl | later
        · omega
        · have gap := ahead block later
          simp only [Span.finish] at gap
          omega
      · rw [covered_cons]

theorem mergePrev_spec {before next : List FreeBlock} (separatedBefore : Separated before)
    (left : ∀ block ∈ before, block.finish ≤ addr) (positive : 0 < size)
    (separatedNext : Separated (⟨addr, size⟩ :: next)) :
    Separated (mergePrev before addr size next) ∧
      ∀ a, Covered (mergePrev before addr size next) a ↔
        Covered before a ∨ Covered (⟨addr, size⟩ :: next) a := by
  obtain ⟨ahead, tail⟩ := separated_cons.mp separatedNext
  rcases List.eq_nil_or_concat before with rfl | ⟨front, prev, rfl⟩
  · simp only [mergePrev, List.getLast?_nil]
    exact ⟨separatedNext, fun a => by simp⟩
  · rw [List.concat_eq_append] at *
    obtain ⟨frontSeparated, _, frontGap⟩ := separated_append.mp separatedBefore
    simp only [List.mem_singleton, forall_eq] at frontGap
    have prevBelow := left prev (by simp)
    have frontBelow : ∀ block ∈ front, block.finish < addr := by
      intro block member
      have gap := frontGap block member
      simp only [Span.finish] at gap prevBelow ⊢
      omega
    have nextAbove : ∀ block ∈ next, addr + size < block.addr := ahead
    simp only [mergePrev, List.getLast?_append, List.getLast?_singleton,
      Option.some_or, List.dropLast_concat]
    by_cases adjacent : prev.finish = addr
    · rw [if_pos adjacent]
      constructor
      · apply separated_append.mpr
        refine ⟨frontSeparated, separated_cons.mpr ⟨?_, tail⟩, ?_⟩
        · intro block member
          have gap := nextAbove block member
          simp only [Span.finish] at gap adjacent ⊢
          omega
        · intro block member later laterMember
          rcases List.mem_cons.mp laterMember with rfl | inNext
          · exact frontGap block member
          · have low := frontBelow block member
            have high := nextAbove later inNext
            omega
      · intro a
        simp only [covered_append, covered_cons, not_covered_nil, or_false, or_assoc]
        apply or_congr_right
        rw [← or_assoc]
        apply or_congr_left
        simp only [Span.Has, Span.finish] at *
        omega
    · rw [if_neg adjacent]
      constructor
      · apply separated_append.mpr
        refine ⟨separatedBefore, separatedNext, ?_⟩
        intro block member later laterMember
        have low : block.finish < addr := by
          rcases List.mem_append.mp member with inFront | isPrev
          · exact frontBelow block inFront
          · rw [List.mem_singleton.mp isPrev]
            omega
        rcases List.mem_cons.mp laterMember with rfl | inNext
        · exact low
        · have high := nextAbove later inNext
          omega
      · intro a
        rw [covered_append]

/-- Inserting a span that is apart from every free block keeps the list
separated and frees exactly the bytes of the span. -/
theorem insertBlocks_spec (separated : Separated blocks) (sized : ∀ b ∈ blocks, 0 < b.size)
    (positive : 0 < size) (apart : ∀ b ∈ blocks, b.Apart ⟨addr, size⟩) :
    Separated (insertBlocks blocks addr size) ∧
      ∀ a, Covered (insertBlocks blocks addr size) a ↔
        Covered blocks a ∨ (Span.mk addr size).Has a := by
  have whole := List.takeWhile_append_dropWhile
    (p := fun block : FreeBlock => decide (block.addr < addr)) (l := blocks)
  have around := around_of_apart separated sized positive apart
  have halves := separated
  rw [← whole] at halves
  obtain ⟨beforeSeparated, afterSeparated, _⟩ := separated_append.mp halves
  obtain ⟨nextSeparated, grown, _, nextCovered⟩ :=
    mergeNext_spec afterSeparated around.right
  obtain ⟨resultSeparated, resultCovered⟩ :=
    mergePrev_spec beforeSeparated around.left (by omega) nextSeparated
  refine ⟨resultSeparated, fun a => ?_⟩
  have split : Covered blocks a ↔
      Covered (blocks.takeWhile fun block => block.addr < addr) a ∨
        Covered (blocks.dropWhile fun block => block.addr < addr) a := by
    rw [← covered_append, whole]
  rw [split]
  unfold insertBlocks
  rw [resultCovered, nextCovered]
  tauto

/-- What merging keeps, inserting keeps. -/
theorem insertBlocks_all {P : FreeBlock → Prop}
    (merges : ∀ {left right : FreeBlock}, P left → P right → P ⟨left.addr, left.size + right.size⟩)
    (sized : ∀ b ∈ blocks, P b) (new : P ⟨addr, size⟩) :
    ∀ b ∈ insertBlocks blocks addr size, P b := by
  have beforeSized : ∀ b ∈ blocks.takeWhile fun block => block.addr < addr,
      P b := fun b member =>
    sized b ((List.takeWhile_sublist _).subset member)
  have afterSized : ∀ b ∈ blocks.dropWhile fun block => block.addr < addr,
      P b := fun b member =>
    sized b ((List.dropWhile_sublist _).subset member)
  simp only [insertBlocks]
  generalize (blocks.takeWhile fun block => block.addr < addr) = before at *
  generalize (blocks.dropWhile fun block => block.addr < addr) = after at *
  have merged : P ⟨addr, (mergeNext addr size after).1⟩ ∧
      ∀ b ∈ (mergeNext addr size after).2, P b := by
    cases after with
    | nil => exact ⟨new, afterSized⟩
    | cons cur rest =>
      simp only [mergeNext]
      split
      · exact ⟨merges new (afterSized cur List.mem_cons_self),
          fun b member => afterSized b (List.mem_cons_of_mem _ member)⟩
      · exact ⟨new, afterSized⟩
  generalize mergeNext addr size after = result at *
  obtain ⟨headSized, nextSized⟩ := merged
  unfold mergePrev
  split
  · rename_i prev last
    have prevSized := beforeSized prev (List.mem_of_getLast? last)
    split
    · intro b member
      rcases List.mem_append.mp member with inFront | inTail
      · exact beforeSized b ((List.dropLast_sublist _).subset inFront)
      · rcases List.mem_cons.mp inTail with rfl | inNext
        · exact merges prevSized headSized
        · exact nextSized b inNext
    · intro b member
      rcases List.mem_append.mp member with inBefore | inTail
      · exact beforeSized b inBefore
      · rcases List.mem_cons.mp inTail with rfl | inNext
        · exact headSized
        · exact nextSized b inNext
  · intro b member
    rcases List.mem_cons.mp member with rfl | inNext
    · exact headSized
    · exact nextSized b inNext

private theorem wellSized_merged {left right : FreeBlock} (leftSized : WellSized left)
    (rightSized : WellSized right) : WellSized ⟨left.addr, left.size + right.size⟩ := by
  constructor
  · exact leftSized.addrAligned
  · have first := leftSized.sizeAligned
    have second := rightSized.sizeAligned
    simp only [blockHeaderAlign] at *
    omega
  · have first := leftSized.header
    simp only
    omega

theorem insertBlocks_wellSized (sized : ∀ b ∈ blocks, WellSized b) (new : WellSized ⟨addr, size⟩) :
    ∀ b ∈ insertBlocks blocks addr size, WellSized b :=
  insertBlocks_all wellSized_merged sized new

theorem insertBlocks_positive (sized : ∀ b ∈ blocks, 0 < b.size) (positive : 0 < size) :
    ∀ b ∈ insertBlocks blocks addr size, 0 < b.size :=
  insertBlocks_all (P := fun b => 0 < b.size)
    (fun left _ => Nat.add_pos_left left _) sized positive

end FreeList

end Eonos.Heap
