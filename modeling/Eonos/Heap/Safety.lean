import Eonos.Heap.Insert
import Eonos.Lib.Reachable

/-!
# Safety of the kernel heap over whole runs

The state of a run is the free list together with the live allocations, which
the heap itself does not record.  The invariant places both in the mapped part
of the heap window, apart from each other.
-/

namespace Eonos.Heap

open Lib

/-! ## Alignment -/

theorem alignUp_spec {addr align : Nat} (positive : 0 < align) (noWrap : addr + align ≤ 2 ^ 64) :
    addr ≤ alignUp addr align ∧ alignUp addr align < addr + align ∧ align ∣ alignUp addr align := by
  unfold alignUp
  rw [Nat.mod_eq_of_lt (by omega)]
  have split := Nat.div_add_mod (addr + align - 1) align
  have remainder := Nat.mod_lt (addr + align - 1) positive
  rw [Nat.mul_comm] at split
  refine ⟨by omega, by omega, Nat.dvd_mul_left _ _⟩

theorem padding_eq {block : FreeBlock} {align : Nat} (positive : 0 < align)
    (noWrap : block.addr + align ≤ 2 ^ 64) :
    FreeList.padding block align = alignUp block.addr align - block.addr := by
  obtain ⟨above, below, _⟩ := alignUp_spec positive noWrap
  unfold FreeList.padding
  omega

theorem Layout.size_lt (layout : Layout) : layout.size < 2 ^ 63 := by
  obtain ⟨k, power⟩ := layout.power
  have positive : 0 < layout.align := by
    rw [power]
    exact Nat.two_pow_pos k
  have split := Nat.div_add_mod (layout.size + layout.align - 1) layout.align
  have remainder := Nat.mod_lt (layout.size + layout.align - 1) positive
  have small := layout.small
  rw [Nat.mul_comm] at split
  omega

/-- Requests are served with a size a header fits in, and with an alignment
that is enough both for the caller and for a header. -/
theorem adjust_spec (layout : Layout) :
    layout.size ≤ (adjust layout).1 ∧
      blockHeaderSize ≤ (adjust layout).1 ∧
      (adjust layout).1 % blockHeaderAlign = 0 ∧
      layout.align ∣ (adjust layout).2 ∧
      blockHeaderAlign ∣ (adjust layout).2 ∧
      0 < (adjust layout).2 := by
  have small := layout.size_lt
  have header : max layout.size blockHeaderSize + blockHeaderAlign ≤ 2 ^ 64 := by
    simp only [blockHeaderSize, blockHeaderAlign]
    omega
  obtain ⟨above, _, divides⟩ := alignUp_spec (by decide) header
  obtain ⟨k, power⟩ := layout.power
  have eight : blockHeaderAlign = 2 ^ 3 := rfl
  have aligns : layout.align ∣ (adjust layout).2 ∧ blockHeaderAlign ∣ (adjust layout).2 := by
    simp only [adjust]
    rw [power, eight]
    rcases Nat.le_total k 3 with low | high
    · have bigger : (2 : Nat) ^ k ≤ 2 ^ 3 :=
        Nat.pow_le_pow_right (by decide) low
      rw [Nat.max_eq_right bigger]
      exact ⟨Nat.pow_dvd_pow 2 low, Nat.dvd_refl _⟩
    · have bigger : (2 : Nat) ^ 3 ≤ 2 ^ k :=
        Nat.pow_le_pow_right (by decide) high
      rw [Nat.max_eq_left bigger]
      exact ⟨Nat.dvd_refl _, Nat.pow_dvd_pow 2 high⟩
  refine ⟨?_, ?_, Nat.mod_eq_zero_of_dvd divides, aligns.1, aligns.2, ?_⟩
  · exact Nat.le_trans (Nat.le_max_left _ _) above
  · exact Nat.le_trans (Nat.le_max_right _ _) above
  · exact Nat.lt_of_lt_of_le (by decide) (Nat.le_max_right _ blockHeaderAlign)

/-! ## First fit -/

namespace FreeList

/-- What a successful search leaves behind. -/
structure Carved (list after : FreeList) (addr size align : Nat) : Prop where
  aligned : align ∣ addr
  header : blockHeaderAlign ∣ addr
  inside : ∃ block ∈ list.blocks, block.addr ≤ addr ∧
    addr + size ≤ block.finish
  mappedEnd : after.mappedEnd = list.mappedEnd
  allocated : after.allocated = list.allocated
  separated : Separated after.blocks
  sized : ∀ b ∈ after.blocks, WellSized b
  covered : ∀ a, Covered after.blocks a →
    Covered list.blocks a ∧ ¬ (Span.mk addr size).Has a

/-- Putting a leftover piece of the removed block back. -/
theorem insertBlocks_leftover {blocks : List FreeBlock} (addr size : Nat)
    (separated : Separated blocks) (sized : ∀ b ∈ blocks, WellSized b)
    (new : WellSized ⟨addr, size⟩) (outside : ∀ a, (Span.mk addr size).Has a → ¬ Covered blocks a) :
    Separated (insertBlocks blocks addr size) ∧
      (∀ b ∈ insertBlocks blocks addr size, WellSized b) ∧
      ∀ a, Covered (insertBlocks blocks addr size) a ↔
        Covered blocks a ∨ (Span.mk addr size).Has a := by
  have spec := insertBlocks_spec separated (fun b member => (sized b member).nonempty) new.nonempty
    (fun b member a inBlock inNew => outside a inNew ⟨b, member, inBlock⟩)
  exact ⟨spec.1, insertBlocks_wellSized sized new, spec.2⟩

theorem findAndRemove_carved {list after : FreeList} {addr size align : Nat}
    (separated : Separated list.blocks)
    (sized : ∀ b ∈ list.blocks, WellSized b)
    (alignHeader : blockHeaderAlign ∣ align) (alignPositive : 0 < align)
    (sizeAligned : size % blockHeaderAlign = 0)
    (sizeHeader : blockHeaderSize ≤ size)
    (noWrap : ∀ b ∈ list.blocks, b.addr + align ≤ 2 ^ 64)
    (result : list.findAndRemove size align = some (addr, after)) :
    Carved list after addr size align := by
  have whole := List.takeWhile_append_dropWhile
    (p := fun block => !fits size align block) (l := list.blocks)
  simp only [findAndRemove] at result
  split at result
  · simp at result
  · rename_i cur next rest
    rw [rest] at whole
    have fitting : fits size align cur = true := by
      have failed := List.head?_dropWhile_not
        (fun block => !fits size align block) list.blocks
      rw [rest] at failed
      simpa using failed
    generalize (list.blocks.takeWhile fun block => !fits size align block) =
      before at *
    have curMember : cur ∈ list.blocks := by
      rw [← whole]
      simp
    have curSized := sized cur curMember
    obtain ⟨above, below, divides⟩ :=
      alignUp_spec alignPositive (noWrap cur curMember)
    have room : padding cur align + size ≤ cur.size :=
      of_decide_eq_true fitting
    have padEq := padding_eq alignPositive (noWrap cur curMember)
    simp only [Option.some.injEq, Prod.mk.injEq] at result
    obtain ⟨addrEq, afterEq⟩ := result
    subst addrEq
    clear fitting rest
    generalize padding cur align = pad at *
    generalize alignUp cur.addr align = start at *
    have startHeader : blockHeaderAlign ∣ start :=
      Nat.dvd_trans alignHeader divides
    have restSeparated : Separated (before ++ next) := by
      rw [← whole] at separated
      exact separated.remove
    have restCovered : ∀ a, Covered (before ++ next) a ↔
        Covered list.blocks a ∧ ¬ cur.Has a := by
      intro a
      have removed := Separated.covered_remove (whole ▸ separated) (a := a)
      rwa [whole] at removed
    have restSized : ∀ b ∈ before ++ next, WellSized b := by
      intro b member
      apply sized b
      rw [← whole]
      rcases List.mem_append.mp member with inBefore | inNext
      · exact List.mem_append_left _ inBefore
      · exact List.mem_append_right _ (List.mem_cons_of_mem _ inNext)
    have addrAligned := curSized.addrAligned
    have curAligned := curSized.sizeAligned
    have startAligned : start % blockHeaderAlign = 0 :=
      Nat.mod_eq_zero_of_dvd startHeader
    simp only [blockHeaderAlign] at *
    -- The block before the allocation, if it is big enough to keep.
    have front : ∃ blocks, Separated blocks ∧ (∀ b ∈ blocks, WellSized b) ∧
        (∀ a, Covered blocks a → Covered list.blocks a ∧
          ¬ (start ≤ a ∧ a < cur.finish)) ∧
        (if blockHeaderSize ≤ pad then
            ({ list with blocks := before ++ next }).insert cur.addr pad
          else { list with blocks := before ++ next }) =
          { list with blocks := blocks } := by
      by_cases keep : blockHeaderSize ≤ pad
      · obtain ⟨frontSeparated, frontSized, frontCovered⟩ :=
          insertBlocks_leftover cur.addr pad restSeparated restSized
            ⟨addrAligned, by simp only [blockHeaderAlign]; omega, keep⟩
            (by
              intro a has covered
              apply ((restCovered a).mp covered).2
              simp only [Span.Has, Span.finish] at *
              omega)
        refine ⟨_, frontSeparated, frontSized, ?_, by rw [if_pos keep]; rfl⟩
        intro a covered
        rcases (frontCovered a).mp covered with old | new
        · obtain ⟨inList, outside⟩ := (restCovered a).mp old
          refine ⟨inList, fun inside => outside ⟨by omega, inside.2⟩⟩
        · refine ⟨⟨cur, curMember, ?_⟩, ?_⟩
          · simp only [Span.Has, Span.finish] at *
            omega
          · simp only [Span.Has, Span.finish] at *
            omega
      · refine ⟨before ++ next, restSeparated, restSized, ?_,
          by rw [if_neg keep]⟩
        intro a covered
        obtain ⟨inList, outside⟩ := (restCovered a).mp covered
        exact ⟨inList, fun inside => outside ⟨by omega, inside.2⟩⟩
    obtain ⟨blocks, frontSeparated, frontSized, frontCovered, frontEq⟩ := front
    rw [frontEq] at afterEq
    have fields : after.mappedEnd = list.mappedEnd ∧
        after.allocated = list.allocated := by
      rw [← afterEq]
      split <;> exact ⟨rfl, rfl⟩
    -- The block after the allocation.
    have back : Separated after.blocks ∧ (∀ b ∈ after.blocks, WellSized b) ∧
        ∀ a, Covered after.blocks a →
          Covered list.blocks a ∧ ¬ (Span.mk start size).Has a := by
      by_cases keep : blockHeaderSize ≤ cur.size - pad - size
      · rw [if_pos keep] at afterEq
        subst afterEq
        obtain ⟨backSeparated, backSized, backCovered⟩ :=
          insertBlocks_leftover (start + size) (cur.size - pad - size)
            frontSeparated frontSized
            ⟨by simp only [blockHeaderAlign]; omega,
              by simp only [blockHeaderAlign]; omega, keep⟩
            (by
              intro a has covered
              apply (frontCovered a covered).2
              simp only [Span.Has, Span.finish] at *
              omega)
        refine ⟨backSeparated, backSized, ?_⟩
        intro a covered
        rcases (backCovered a).mp covered with old | new
        · obtain ⟨inList, outside⟩ := frontCovered a old
          refine ⟨inList, fun inside => outside ?_⟩
          simp only [Span.Has, Span.finish] at *
          omega
        · refine ⟨⟨cur, curMember, ?_⟩, ?_⟩
          · simp only [Span.Has, Span.finish] at *
            omega
          · simp only [Span.Has, Span.finish] at *
            omega
      · rw [if_neg keep] at afterEq
        subst afterEq
        refine ⟨frontSeparated, frontSized, ?_⟩
        intro a covered
        obtain ⟨inList, outside⟩ := frontCovered a covered
        refine ⟨inList, fun inside => outside ?_⟩
        simp only [Span.Has, Span.finish] at *
        omega
    obtain ⟨backSeparated, backSized, backCovered⟩ := back
    refine ⟨divides, startHeader, ⟨cur, curMember, above, ?_⟩, fields.1,
      fields.2, backSeparated, backSized, backCovered⟩
    simp only [Span.finish]
    omega

end FreeList

/-! ## The invariant -/

/-- An allocation that has been returned and not yet deallocated. -/
structure Allocation where
  ptr : Nat
  layout : Layout

/-- The bytes the allocator set aside for it. -/
def Allocation.span (x : Allocation) : Span := ⟨x.ptr, (adjust x.layout).1⟩

structure State where
  list : FreeList
  live : List Allocation

/-- The mapped part of the heap window; nothing is mapped at first. -/
inductive Window (s : State) : Prop where
  | unmapped (noEnd : s.list.mappedEnd = 0) (noBlocks : s.list.blocks = [])
      (noLive : s.live = [])
  | mapped (low : heapStart ≤ s.list.mappedEnd)
      (high : s.list.mappedEnd ≤ heapStart + heapMaxSize)
      (aligned : s.list.mappedEnd % pageSize = 0)

structure Inv (s : State) : Prop where
  window : Window s
  separated : Separated s.list.blocks
  sized : ∀ b ∈ s.list.blocks, WellSized b
  inside : ∀ a, Covered s.list.blocks a → heapStart ≤ a ∧ a < s.list.mappedEnd
  liveAligned : ∀ x ∈ s.live,
    x.layout.align ∣ x.ptr ∧ blockHeaderAlign ∣ x.ptr
  liveInside : ∀ x ∈ s.live,
    heapStart ≤ x.ptr ∧ x.span.finish ≤ s.list.mappedEnd
  liveUnfree : ∀ x ∈ s.live, ∀ a, x.span.Has a → ¬ Covered s.list.blocks a
  liveApart : s.live.Pairwise fun x y => x.span.Apart y.span
  allocated : s.list.allocated = (s.live.map fun x => x.span.size).sum

theorem Allocation.wellSized {x : Allocation}
    (aligned : blockHeaderAlign ∣ x.ptr) : WellSized x.span := by
  obtain ⟨_, header, sizeAligned, _⟩ := adjust_spec x.layout
  exact ⟨Nat.mod_eq_zero_of_dvd aligned, sizeAligned, header⟩

variable {s : State} {addr : Nat} {replies : Nat → FrameReply} {list : FreeList}
  {layout : Layout}

theorem Inv.mappedEnd_le (inv : Inv s) : s.list.mappedEnd ≤ heapStart + heapMaxSize := by
  cases inv.window with
  | unmapped noEnd _ _ =>
    rw [noEnd]
    exact Nat.zero_le _
  | mapped _ high _ => exact high

theorem Inv.block_inside (inv : Inv s) {b : FreeBlock} (member : b ∈ s.list.blocks) :
    heapStart ≤ b.addr ∧ b.finish ≤ s.list.mappedEnd := by
  have nonempty := (inv.sized b member).nonempty
  have first := inv.inside b.addr ⟨b, member, Nat.le_refl _, Nat.lt_add_of_pos_right nonempty⟩
  have last := inv.inside (b.finish - 1) ⟨b, member, by
    simp only [Span.Has, Span.finish]
    omega⟩
  omega

/-- A free block never comes close enough to the top of the address space for
an alignment up to 2^30 to wrap. -/
theorem Inv.noWrap (inv : Inv s) {align : Nat} (small : align ≤ 2 ^ 30) :
    ∀ b ∈ s.list.blocks, b.addr + align ≤ 2 ^ 64 := by
  intro b member
  have nonempty := (inv.sized b member).nonempty
  have bound := (inv.block_inside member).2
  have top := inv.mappedEnd_le
  simp only [Span.finish, heapStart, heapMaxSize] at *
  omega

/-! ## Deallocation and growth -/

/-- Bytes that are neither free nor live, inside the window, may be put on the
free list. -/
theorem Inv.insert (inv : Inv s) {size mappedEnd total : Nat} (new : WellSized ⟨addr, size⟩)
    (low : heapStart ≤ addr) (high : addr + size ≤ mappedEnd) (grows : s.list.mappedEnd ≤ mappedEnd)
    (top : mappedEnd ≤ heapStart + heapMaxSize) (aligned : mappedEnd % pageSize = 0)
    (unfree : ∀ a, (Span.mk addr size).Has a → ¬ Covered s.list.blocks a)
    (unlive : ∀ x ∈ s.live, x.span.Apart ⟨addr, size⟩) :
    Inv { s with list := ({ s.list with mappedEnd, total } : FreeList).insert addr size } := by
  obtain ⟨separated, sized, covered⟩ :=
    FreeList.insertBlocks_leftover addr size inv.separated inv.sized new unfree
  constructor
  · exact .mapped (Nat.le_trans low (Nat.le_trans (Nat.le_add_right _ _) high)) top aligned
  · exact separated
  · exact sized
  · intro a free
    rcases (covered a).mp free with old | fresh
    · obtain ⟨above, below⟩ := inv.inside a old
      exact ⟨above, Nat.lt_of_lt_of_le below grows⟩
    · obtain ⟨above, below⟩ := fresh
      exact ⟨Nat.le_trans low above, Nat.lt_of_lt_of_le below high⟩
  · exact inv.liveAligned
  · intro x member
    obtain ⟨above, below⟩ := inv.liveInside x member
    exact ⟨above, Nat.le_trans below grows⟩
  · intro x member a has free
    rcases (covered a).mp free with old | fresh
    · exact inv.liveUnfree x member a has old
    · exact unlive x member a has fresh
  · exact inv.liveApart
  · exact inv.allocated

theorem mapPages_le {mapped pages result : Nat}
    (success : mapPages replies mapped pages = some result) :
    mapped ≤ result ∧ result ≤ mapped + pages := by
  induction pages generalizing mapped with
  | zero =>
    simp only [mapPages, Option.some.injEq] at success
    omega
  | succ pages induction =>
    simp only [mapPages] at success
    split at success
    · have rest := induction success
      omega
    · simp only [Option.some.injEq] at success
      omega
    · simp at success

theorem growBy_le (minExtra remainingVa : Nat) : growBy minExtra remainingVa ≤ remainingVa := by
  unfold growBy
  apply Nat.le_trans (Nat.min_le_right _ _)
  exact Nat.div_mul_le_self _ _

/-- The list with its window open: it starts at `HEAP_START`. -/
def FreeList.opened (list : FreeList) : FreeList :=
  if list.mappedEnd = 0 then { list with mappedEnd := heapStart } else list

/-- Bytes of the window that nothing is mapped in. -/
def FreeList.unmapped (list : FreeList) : Nat :=
  heapStart + heapMaxSize - list.opened.mappedEnd

/-- The list with `pages` more pages mapped and free. -/
def FreeList.extend (list : FreeList) (pages : Nat) : FreeList :=
  { list with
    mappedEnd := list.mappedEnd + pages * pageSize
    total := list.total + pages * pageSize }.insert
      list.mappedEnd (pages * pageSize)

/-- `grow` extends the list by the pages it maps, and says whether there were
any. -/
theorem FreeList.grow_eq (list : FreeList) (replies : Nat → FrameReply) (minExtra : Nat) :
    list.grow replies minExtra =
      (mapPages replies 0 (growBy minExtra list.unmapped / pageSize)).map
        fun pages =>
          if pages = 0 then (false, list.opened)
          else (true, list.opened.extend pages) := by
  have bound := growBy_le minExtra list.unmapped
  unfold FreeList.grow
  rw [show (if list.mappedEnd = 0 then { list with mappedEnd := heapStart }
    else list) = list.opened from rfl]
  dsimp only
  rw [show heapStart + heapMaxSize - list.opened.mappedEnd = list.unmapped from rfl]
  by_cases exhausted : list.unmapped = 0
  · have nothing : growBy minExtra list.unmapped = 0 := by omega
    rw [if_pos exhausted, nothing]
    rfl
  rw [if_neg exhausted]
  by_cases nothing : growBy minExtra list.unmapped = 0
  · rw [if_pos nothing, nothing]
    rfl
  rw [if_neg nothing]
  rcases mapPages replies 0 (growBy minExtra list.unmapped / pageSize) with
    _ | _ | pages
  · rfl
  · rfl
  · rfl

/-- Opening the window keeps the invariant. -/
theorem Inv.opened (inv : Inv s) :
    Inv { s with list := s.list.opened } ∧
      heapStart ≤ s.list.opened.mappedEnd ∧
      s.list.opened.mappedEnd ≤ heapStart + heapMaxSize ∧
      s.list.opened.mappedEnd % pageSize = 0 := by
  unfold FreeList.opened
  by_cases first : s.list.mappedEnd = 0
  · rw [if_pos first]
    have empty : s.list.blocks = [] ∧ s.live = [] := by
      cases inv.window with
      | unmapped _ noBlocks noLive => exact ⟨noBlocks, noLive⟩
      | mapped low _ _ =>
        rw [first] at low
        exact absurd low (by decide)
    have start : heapStart % pageSize = 0 := by decide
    refine ⟨?_, Nat.le_refl _, Nat.le_add_right _ _, start⟩
    constructor
    · exact .mapped (Nat.le_refl _) (Nat.le_add_right _ _) start
    · exact inv.separated
    · exact inv.sized
    · simp [empty.1]
    · exact inv.liveAligned
    · simp [empty.2]
    · exact inv.liveUnfree
    · exact inv.liveApart
    · exact inv.allocated
  · rw [if_neg first]
    cases inv.window with
    | unmapped noEnd _ _ => exact absurd noEnd first
    | mapped low high aligned => exact ⟨inv, low, high, aligned⟩

theorem Inv.grow (inv : Inv s) {minExtra : Nat} {grew : Bool}
    (result : s.list.grow replies minExtra = some (grew, list)) : Inv { s with list } := by
  obtain ⟨openedInv, low, high, aligned⟩ := inv.opened
  rw [FreeList.grow_eq] at result
  obtain ⟨pages, success, grown⟩ := Option.map_eq_some_iff.mp result
  by_cases none : pages = 0
  · rw [if_pos none] at grown
    cases grown
    exact openedInv
  rw [if_neg none] at grown
  cases grown
  have requested := (mapPages_le success).2
  have bound := growBy_le minExtra s.list.unmapped
  have room : pages * pageSize ≤ s.list.unmapped := by
    apply Nat.le_trans _ bound
    exact (Nat.le_div_iff_mul_le (by decide : 0 < pageSize)).mp (by omega)
  unfold FreeList.unmapped at room
  apply openedInv.insert
  · constructor
    · simp only [blockHeaderAlign, pageSize] at *
      omega
    · simp only [blockHeaderAlign, pageSize]
      omega
    · simp only [blockHeaderSize, pageSize]
      omega
  · exact low
  · exact Nat.le_refl _
  · exact Nat.le_add_right _ _
  · omega
  · simp only [pageSize] at *
    omega
  · intro a has free
    have below := (openedInv.inside a free).2
    exact absurd has.1 (Nat.not_le_of_lt below)
  · intro x member a has inNew
    have below := (openedInv.liveInside x member).2
    have inside := has.2
    have above := inNew.1
    simp only at below inside above
    omega

/-! ## Allocation -/

theorem FreeList.findAndRemove_found {after : FreeList} {size align : Nat}
    (result : list.findAndRemove size align = some (addr, after)) :
    ∃ block ∈ list.blocks, fits size align block = true := by
  unfold findAndRemove at result
  dsimp only at result
  split at result
  · cases result
  · rename_i cur next rest
    have failed := List.head?_dropWhile_not (fun block => !fits size align block) list.blocks
    rw [rest] at failed
    refine ⟨cur, ?_, by simpa using failed⟩
    refine (List.dropWhile_sublist fun block => !fits size align block).subset ?_
    rw [rest]
    exact List.mem_cons_self

/-- No block can serve an alignment beyond 1 GiB: rounding its address up
leaves the address space, and the padding is then the distance to its top. -/
theorem Inv.align_le (inv : Inv s)
    (result : s.list.findAndRemove (adjust layout).1 (adjust layout).2 = some (addr, list)) :
    (adjust layout).2 ≤ 2 ^ 30 := by
  obtain ⟨b, member, fitting⟩ := FreeList.findAndRemove_found result
  obtain ⟨low, high⟩ := inv.block_inside member
  have top := inv.mappedEnd_le
  have room : FreeList.padding b (adjust layout).2 + (adjust layout).1 ≤ b.size :=
    of_decide_eq_true fitting
  obtain ⟨k, power⟩ := layout.power
  by_contra large
  have big : 2 ^ 31 ≤ (adjust layout).2 := by
    have bound : ¬ 2 ^ k ≤ 2 ^ 30 := by
      rw [← power]
      simp only [adjust, blockHeaderAlign] at large
      omega
    have exponent : 31 ≤ k := by
      by_contra below
      exact bound (Nat.pow_le_pow_right (by decide) (by omega))
    have bigger : 2 ^ 31 ≤ 2 ^ k := Nat.pow_le_pow_right (by decide) exponent
    rw [← power] at bigger
    exact Nat.le_trans bigger (Nat.le_max_left _ _)
  have wrapped : alignUp b.addr (adjust layout).2 = 0 := by
    have short : (b.addr + (adjust layout).2 - 1) % 2 ^ 64 < (adjust layout).2 := by
      simp only [Span.finish, heapStart, heapMaxSize] at *
      omega
    rw [alignUp, Nat.div_eq_of_lt short, Nat.zero_mul]
  unfold FreeList.padding at room
  simp only [Span.finish, heapStart, heapMaxSize] at *
  omega

theorem Inv.carved (inv : Inv s)
    (result : s.list.findAndRemove (adjust layout).1 (adjust layout).2 = some (addr, list)) :
    FreeList.Carved s.list list addr (adjust layout).1 (adjust layout).2 := by
  obtain ⟨_, header, sizeAligned, _, alignHeader, alignPositive⟩ :=
    adjust_spec layout
  exact FreeList.findAndRemove_carved inv.separated inv.sized alignHeader
    alignPositive sizeAligned header (inv.noWrap (inv.align_le result)) result

/-- Serving a request from a free block turns the carved bytes into a live
allocation. -/
theorem Inv.carve (inv : Inv s)
    (result : s.list.findAndRemove (adjust layout).1 (adjust layout).2 = some (addr, list)) :
    Inv { list := { list with
            allocated := list.allocated + (adjust layout).1 }
          live := ⟨addr, layout⟩ :: s.live } := by
  obtain ⟨_, _, _, alignDivides, _⟩ := adjust_spec layout
  have carved := inv.carved result
  obtain ⟨block, member, blockLow, blockHigh⟩ := carved.inside
  obtain ⟨windowLow, windowHigh⟩ := inv.block_inside member
  have carvedFree : ∀ a, (Allocation.span ⟨addr, layout⟩).Has a →
      Covered s.list.blocks a := by
    intro a has
    refine ⟨block, member, ?_⟩
    simp only [Allocation.span, Span.Has, Span.finish] at *
    omega
  constructor
  · cases inv.window with
    | unmapped _ noBlocks _ =>
      rw [noBlocks] at member
      exact absurd member List.not_mem_nil
    | mapped low high aligned =>
      rw [← carved.mappedEnd] at low high aligned
      exact .mapped low high aligned
  · exact carved.separated
  · exact carved.sized
  · intro a free
    rw [carved.mappedEnd]
    exact inv.inside a (carved.covered a free).1
  · intro x inLive
    rcases List.mem_cons.mp inLive with rfl | older
    · exact ⟨Nat.dvd_trans alignDivides carved.aligned, carved.header⟩
    · exact inv.liveAligned x older
  · intro x inLive
    rw [carved.mappedEnd]
    rcases List.mem_cons.mp inLive with rfl | older
    · simp only [Allocation.span, Span.finish] at *
      omega
    · exact inv.liveInside x older
  · intro x inLive a has free
    obtain ⟨wasFree, outside⟩ := carved.covered a free
    rcases List.mem_cons.mp inLive with rfl | older
    · exact outside has
    · exact inv.liveUnfree x older a has wasFree
  · apply List.pairwise_cons.mpr
    refine ⟨?_, inv.liveApart⟩
    intro y older a has inOlder
    exact inv.liveUnfree y older a inOlder (carvedFree a has)
  · simp only [List.map_cons, List.sum_cons, Allocation.span]
    rw [carved.allocated, inv.allocated, Nat.add_comm]
    rfl

theorem Inv.alloc (inv : Inv s) {ptr : Option Nat}
    (result : alloc s.list replies layout = some (ptr, list)) :
    Inv ⟨list, (ptr.map fun addr => Allocation.mk addr layout).toList ++ s.live⟩ := by
  simp only [Heap.alloc] at result
  split at result
  · rename_i addr found first
    simp only [Option.some.injEq, Prod.mk.injEq] at result
    obtain ⟨rfl, rfl⟩ := result
    exact inv.carve first
  · split at result
    · simp at result
    · rename_i grown growth
      simp only [Option.some.injEq, Prod.mk.injEq] at result
      obtain ⟨rfl, rfl⟩ := result
      exact inv.grow growth
    · rename_i grown growth
      have grownInv := inv.grow growth
      split at result
      · rename_i addr found second
        simp only [Option.some.injEq, Prod.mk.injEq] at result
        obtain ⟨rfl, rfl⟩ := result
        exact grownInv.carve second
      · simp only [Option.some.injEq, Prod.mk.injEq] at result
        obtain ⟨rfl, rfl⟩ := result
        exact grownInv

theorem Inv.dealloc (inv : Inv s) {x : Allocation} {left right : List Allocation}
    (live : s.live = left ++ x :: right) : Inv ⟨dealloc s.list x.ptr x.layout, left ++ right⟩ := by
  have member : x ∈ s.live := by
    rw [live]
    simp
  have sublist : (left ++ right).Sublist s.live := by
    rw [live]
    exact (List.sublist_cons_self x right).append_left left
  have others : ∀ y ∈ left ++ right, y.span.Apart x.span := by
    have apart := inv.liveApart
    rw [live] at apart
    obtain ⟨_, tail, across⟩ := List.pairwise_append.mp apart
    intro y inRest
    rcases List.mem_append.mp inRest with inLeft | inRight
    · exact across y inLeft x List.mem_cons_self
    · exact ((List.pairwise_cons.mp tail).1 y inRight).symm
  -- The allocation is live no more, and not on the free list yet.
  have released : Inv ⟨{ s.list with
      allocated := s.list.allocated - x.span.size }, left ++ right⟩ := by
    constructor
    · cases inv.window with
      | unmapped _ _ noLive =>
        rw [noLive] at member
        exact absurd member List.not_mem_nil
      | mapped low high aligned => exact .mapped low high aligned
    · exact inv.separated
    · exact inv.sized
    · exact inv.inside
    · intro y inRest
      exact inv.liveAligned y (sublist.subset inRest)
    · intro y inRest
      exact inv.liveInside y (sublist.subset inRest)
    · intro y inRest
      exact inv.liveUnfree y (sublist.subset inRest)
    · exact List.Pairwise.sublist sublist inv.liveApart
    · have total := inv.allocated
      rw [live] at total
      simp only [List.map_append, List.map_cons, List.sum_append, List.sum_cons] at total ⊢
      omega
  obtain ⟨low, high⟩ := inv.liveInside x member
  obtain ⟨windowLow, windowHigh, windowAligned⟩ :
      heapStart ≤ s.list.mappedEnd ∧
        s.list.mappedEnd ≤ heapStart + heapMaxSize ∧
        s.list.mappedEnd % pageSize = 0 := by
    cases inv.window with
    | unmapped _ _ noLive =>
      rw [noLive] at member
      exact absurd member List.not_mem_nil
    | mapped low high aligned => exact ⟨low, high, aligned⟩
  exact released.insert (Allocation.wellSized (inv.liveAligned x member).2) low high (Nat.le_refl _)
    windowHigh windowAligned (inv.liveUnfree x member) others

/-! ## Whole runs -/

inductive Step : State → State → Prop where
  /-- Any request with an alignment up to 1 GiB, the physical allocator
  answering as it likes.  A null result leaves the live set as it is. -/
  | alloc {s : State} (replies : Nat → FrameReply) (layout : Layout)
      (small : layout.align ≤ 2 ^ 30) {ptr : Option Nat} {list : FreeList}
      (result : alloc s.list replies layout = some (ptr, list)) :
      Step s ⟨list, (ptr.map fun addr => Allocation.mk addr layout).toList ++
        s.live⟩
  /-- A live pointer is deallocated with its own layout. -/
  | dealloc {s : State} {x : Allocation} {left right : List Allocation}
      (live : s.live = left ++ x :: right) :
      Step s ⟨dealloc s.list x.ptr x.layout, left ++ right⟩

def Reachable : State → Prop :=
  Lib.Reachable (fun s => s = ⟨FreeList.new, []⟩) Step

theorem inv_start : Inv ⟨FreeList.new, []⟩ := by
  constructor
  · exact .unmapped rfl rfl rfl
  · exact List.Pairwise.nil
  all_goals simp [FreeList.new]

theorem Reachable.inv (reached : Reachable s) : Inv s := by
  apply Lib.Reachable.invariant _ _ reached
  · rintro _ rfl
    exact inv_start
  · intro state later inv taken
    cases taken with
    | alloc replies layout small result => exact inv.alloc result
    | dealloc live => exact inv.dealloc live

/-- Heap safety over every run: the free list is ordered with gaps and stays
in the mapped window, every live allocation is aligned, in the window, apart
from the free blocks and from every other one, and `allocated` is the sum of
the live sizes. -/
theorem reachable_heap_safe {s : State} (reached : Reachable s) :
    Separated s.list.blocks ∧
      s.list.mappedEnd ≤ heapStart + heapMaxSize ∧
      (∀ b ∈ s.list.blocks,
        b.addr % blockHeaderAlign = 0 ∧ blockHeaderSize ≤ b.size ∧
          heapStart ≤ b.addr ∧ b.finish ≤ s.list.mappedEnd) ∧
      (∀ x ∈ s.live,
        x.ptr % x.layout.align = 0 ∧ x.layout.size ≤ x.span.size ∧
          heapStart ≤ x.ptr ∧ x.span.finish ≤ s.list.mappedEnd ∧
          ∀ b ∈ s.list.blocks, x.span.Apart b) ∧
      (s.live.Pairwise fun x y => x.span.Apart y.span) ∧
      s.list.allocated = (s.live.map fun x => x.span.size).sum := by
  have inv := reached.inv
  refine ⟨inv.separated, inv.mappedEnd_le, ?_, ?_, inv.liveApart, inv.allocated⟩
  · intro b member
    have sized := inv.sized b member
    exact ⟨sized.addrAligned, sized.header, inv.block_inside member⟩
  · intro x member
    obtain ⟨low, high⟩ := inv.liveInside x member
    refine ⟨Nat.mod_eq_zero_of_dvd (inv.liveAligned x member).1,
      (adjust_spec x.layout).1, low, high, ?_⟩
    intro b inBlocks a has inBlock
    exact inv.liveUnfree x member a has ⟨b, inBlocks, inBlock⟩

/-- A request for 24 bytes on a 64-byte boundary. -/
def sampleLayout : Layout where
  size := 24
  align := 64
  power := ⟨6, rfl⟩
  small := by decide

theorem sampleLayout_heap_safe :
    ∃ list, alloc FreeList.new (fun _ => .granted) sampleLayout =
        some (some heapStart, list) ∧
      Separated list.blocks ∧ list.allocated = 24 := by
  have result : ∃ list,
      alloc FreeList.new (fun _ => .granted) sampleLayout =
        some (some heapStart, list) := by
    refine ⟨⟨[⟨heapStart + 24, heapGrowStep - 24⟩], heapStart + heapGrowStep, 24, heapGrowStep⟩, ?_⟩
    decide +kernel
  obtain ⟨list, success⟩ := result
  have taken := Step.alloc (s := ⟨FreeList.new, []⟩) (fun _ => .granted)
    sampleLayout (by decide) success
  have started : Reachable ⟨FreeList.new, []⟩ := Lib.Reachable.start rfl
  have reached : Reachable ⟨list, [⟨heapStart, sampleLayout⟩]⟩ :=
    Lib.Reachable.next started taken
  have safe := reachable_heap_safe reached
  exact ⟨list, success, safe.1, safe.2.2.2.2.2⟩

end Eonos.Heap
