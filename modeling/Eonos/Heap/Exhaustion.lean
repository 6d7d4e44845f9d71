import Eonos.Heap.Safety

/-!
# When the heap gives up

A null pointer means that no free block could hold the request and that the
heap could not be extended by the request's size and alignment: a page was
refused, or the window has no room left.  A single growth step that maps
everything it asked for makes the second search succeed.
-/

namespace Eonos.Heap

open Lib

/-- The block has an aligned place with room for the request. -/
def Holds (size align : Nat) (block : FreeBlock) : Prop :=
  ∃ addr, align ∣ addr ∧ block.addr ≤ addr ∧ addr + size ≤ block.finish

/-- One of the first `pages` pages asked for is refused, after those before
it were granted. -/
def Refused (replies : Nat → FrameReply) (pages : Nat) : Prop :=
  ∃ page < pages, replies page = .refused ∧
    ∀ earlier < page, replies earlier = .granted

/-! ## Searching -/

variable {align size pages : Nat} {list : FreeList} {s : State}
  {replies : Nat → FrameReply} {layout : Layout}

theorem alignUp_le {addr place : Nat} (positive : 0 < align) (noWrap : addr + align ≤ 2 ^ 64)
    (divides : align ∣ place) (above : addr ≤ place) : alignUp addr align ≤ place := by
  obtain ⟨-, close, rounded⟩ := alignUp_spec positive noWrap
  obtain ⟨k, rfl⟩ := divides
  obtain ⟨q, equal⟩ := rounded
  rw [equal] at close ⊢
  refine Nat.mul_le_mul_left align ?_
  have next : align * q < align * (k + 1) := by
    rw [Nat.mul_succ]
    omega
  exact Nat.le_of_lt_succ (Nat.lt_of_mul_lt_mul_left next)

theorem fits_iff_holds {block : FreeBlock}
    (positive : 0 < align) (noWrap : block.addr + align ≤ 2 ^ 64) :
    FreeList.fits size align block = true ↔ Holds size align block := by
  obtain ⟨above, -, rounded⟩ := alignUp_spec positive noWrap
  rw [FreeList.fits, decide_eq_true_iff, padding_eq positive noWrap]
  constructor
  · intro room
    refine ⟨_, rounded, above, ?_⟩
    simp only [Span.finish]
    omega
  · rintro ⟨addr, divides, low, high⟩
    have first := alignUp_le positive noWrap divides low
    simp only [Span.finish] at high
    omega

theorem FreeList.findAndRemove_none_iff :
    list.findAndRemove size align = none ↔ ∀ b ∈ list.blocks, fits size align b = false := by
  have skipped : list.blocks.dropWhile (fun b => !fits size align b) = [] ↔
      ∀ b ∈ list.blocks, fits size align b = false := by
    rw [List.dropWhile_eq_nil_iff]
    simp
  rw [← skipped]
  unfold findAndRemove
  dsimp only
  split
  · rename_i empty
    simp [empty]
  · rename_i rest
    simp [rest]

/-- In a reachable heap a search fails only where no block can hold the
request. -/
theorem Inv.findAndRemove_none_iff (inv : Inv s) (positive : 0 < align) (small : align ≤ 2 ^ 30) :
    s.list.findAndRemove size align = none ↔ ∀ b ∈ s.list.blocks, ¬ Holds size align b := by
  rw [FreeList.findAndRemove_none_iff]
  refine forall₂_congr fun b member => ?_
  rw [← fits_iff_holds positive (inv.noWrap small b member), Bool.not_eq_true]

/-! ## Growing -/

theorem mapPages_eq_or_refused {mapped result : Nat}
    (success : mapPages replies mapped pages = some result)
    (granted : ∀ earlier < mapped, replies earlier = .granted) :
    result = mapped + pages ∨ Refused replies (mapped + pages) := by
  induction pages generalizing mapped with
  | zero =>
    simp only [mapPages, Option.some.injEq] at success
    exact .inl success.symm
  | succ pages induction =>
    simp only [mapPages] at success
    split at success
    · rename_i reply
      rw [Nat.add_succ, ← Nat.succ_add]
      refine induction success fun earlier below => ?_
      rcases Nat.lt_succ_iff_lt_or_eq.mp below with before | rfl
      · exact granted earlier before
      · exact reply
    · rename_i reply
      exact .inr ⟨mapped, by omega, reply, granted⟩
    · cases success

theorem mapPages_ne_none {mapped : Nat} (tables : ∀ page < mapped + pages, replies page ≠ .panics) :
    mapPages replies mapped pages ≠ none := by
  induction pages generalizing mapped with
  | zero => exact Option.some_ne_none _
  | succ pages induction =>
    simp only [mapPages]
    split
    · exact induction fun page below => tables page (by omega)
    · exact Option.some_ne_none _
    · rename_i reply
      exact absurd reply (tables mapped (by omega))

theorem growBy_enough {minExtra remaining : Nat} (noWrap : minExtra + pageSize ≤ 2 ^ 64)
    (window : remaining ≤ heapMaxSize) (aligned : remaining % pageSize = 0)
    (room : alignUp minExtra pageSize ≤ remaining) :
    minExtra ≤ growBy minExtra remaining / pageSize * pageSize := by
  obtain ⟨above, -, pages, equal⟩ := alignUp_spec (by decide) noWrap
  have whole : alignDown remaining pageSize = remaining :=
    Nat.div_mul_cancel (Nat.dvd_of_mod_eq_zero aligned)
  have wanted : pageSize * pages ≤ growBy minExtra remaining := by
    rw [← equal]
    unfold growBy
    refine Nat.le_min.mpr ⟨?_, by rwa [whole]⟩
    have least : alignUp minExtra pageSize ≤
        min (max heapGrowStep (alignUp minExtra pageSize)) remaining :=
      Nat.le_min.mpr ⟨Nat.le_max_right _ _, room⟩
    have top : min (max heapGrowStep (alignUp minExtra pageSize)) remaining +
        pageSize ≤ 2 ^ 64 := by
      have bound := Nat.min_le_right (max heapGrowStep (alignUp minExtra pageSize)) remaining
      simp only [heapMaxSize, pageSize] at *
      omega
    exact Nat.le_trans least (alignUp_spec (by decide) top).1
  have count : pages ≤ growBy minExtra remaining / pageSize :=
    (Nat.le_div_iff_mul_le (by decide)).mpr (by rwa [Nat.mul_comm])
  calc minExtra ≤ pageSize * pages := equal ▸ above
    _ ≤ pageSize * (growBy minExtra remaining / pageSize) :=
        Nat.mul_le_mul_left _ count
    _ = _ := Nat.mul_comm _ _

/-- Pages for the size and the alignment make a block that can hold the
request, merged with its predecessor or not. -/
theorem Inv.extend_holds (inv : Inv s) (grown : Inv { s with list := s.list.opened.extend pages })
    (positive : 0 < align) (small : align ≤ 2 ^ 30) (enough : size + align ≤ pages * pageSize) :
    ∃ b ∈ (s.list.opened.extend pages).blocks, Holds size align b := by
  obtain ⟨opened, low, high, aligned⟩ := inv.opened
  have some : 0 < pages * pageSize := by omega
  have covered := (FreeList.insertBlocks_spec opened.separated (fun b member => (opened.sized b
    member).nonempty) some (fun b member a inBlock inNew => by
      have below := (opened.inside a ⟨b, member, inBlock⟩).2
      exact absurd inNew.1 (Nat.not_le_of_lt below))).2
  obtain ⟨b, member, start, stop⟩ := grown.separated.within (fun b member => (grown.sized b
    member).nonempty) (s := ⟨s.list.opened.mappedEnd, pages * pageSize⟩) some fun a has => (covered
    a).mpr (.inr has)
  have noWrap : s.list.opened.mappedEnd + align ≤ 2 ^ 64 := by
    simp only [heapStart, heapMaxSize] at high
    omega
  obtain ⟨above, below, divides⟩ := alignUp_spec positive noWrap
  refine ⟨b, member, _, divides, Nat.le_trans start above, ?_⟩
  simp only [Span.finish] at stop ⊢
  omega

/-! ## Giving up -/

theorem adjust_le (small : layout.align ≤ 2 ^ 30) :
    (adjust layout).2 ≤ 2 ^ 30 ∧ (adjust layout).1 + (adjust layout).2 + pageSize ≤ 2 ^ 64 := by
  have bound := layout.size_lt
  have top : max layout.size blockHeaderSize + blockHeaderAlign ≤ 2 ^ 64 := by
    simp only [blockHeaderSize, blockHeaderAlign]
    omega
  have close := (alignUp_spec (by decide) top).2.1
  simp only [adjust, blockHeaderSize, blockHeaderAlign, pageSize] at *
  omega

/-- Pages a growth step for the request asks for. -/
def pagesWanted (list : FreeList) (size align : Nat) : Nat :=
  growBy (size + align) list.unmapped / pageSize

/-- The heap cannot be extended by the size and the alignment. -/
def OutOfMemory (list : FreeList) (replies : Nat → FrameReply) (size align : Nat) : Prop :=
  Refused replies (pagesWanted list size align) ∨
    list.unmapped < alignUp (size + align) pageSize

/-- A call panics only while it maps the pages it wants. -/
theorem alloc_ne_none
    (tables : ∀ page < pagesWanted list (adjust layout).1 (adjust layout).2,
      replies page ≠ .panics) :
    alloc list replies layout ≠ none := by
  have grown : list.grow replies ((adjust layout).1 + (adjust layout).2) ≠
      none := by
    rw [FreeList.grow_eq, Ne, Option.map_eq_none_iff]
    exact mapPages_ne_none (by rwa [Nat.zero_add])
  simp only [alloc]
  split
  · exact Option.some_ne_none _
  split
  · rename_i panicked
    exact absurd panicked grown
  · exact Option.some_ne_none _
  split
  · exact Option.some_ne_none _
  · exact Option.some_ne_none _

theorem Inv.alloc_null (inv : Inv s) (small : layout.align ≤ 2 ^ 30)
    (null : Heap.alloc s.list replies layout = some (none, list)) :
    (∀ b ∈ s.list.blocks, ¬ Holds (adjust layout).1 (adjust layout).2 b) ∧
      OutOfMemory s.list replies (adjust layout).1 (adjust layout).2 := by
  obtain ⟨alignSmall, noWrap⟩ := adjust_le small
  obtain ⟨-, -, -, -, -, positive⟩ := adjust_spec layout
  obtain ⟨-, low, high, aligned⟩ := inv.opened
  simp only [Heap.alloc] at null
  generalize (adjust layout).1 = size, (adjust layout).2 = align at *
  split at null
  · cases null
  rename_i failed
  refine ⟨(inv.findAndRemove_none_iff positive alignSmall).mp failed, ?_⟩
  unfold OutOfMemory
  by_contra enough
  obtain ⟨noRefusal, room⟩ := not_or.mp enough
  have window : s.list.unmapped ≤ heapMaxSize := by
    unfold FreeList.unmapped
    omega
  have whole : s.list.unmapped % pageSize = 0 := by
    simp only [FreeList.unmapped, heapStart, heapMaxSize, pageSize] at *
    omega
  have wanted := growBy_enough noWrap window whole (Nat.le_of_not_lt room)
  generalize growth : s.list.grow replies (size + align) = outcome at null
  rcases outcome with _ | ⟨grew, after⟩
  · cases null
  have grown := inv.grow growth
  rw [FreeList.grow_eq] at growth
  obtain ⟨pages, mapped, extended⟩ := Option.map_eq_some_iff.mp growth
  have all := (mapPages_eq_or_refused mapped (fun _ below =>
    absurd below (Nat.not_lt_zero _))).resolve_right (by rwa [Nat.zero_add])
  rw [Nat.zero_add] at all
  rw [← all] at wanted
  have some : pages ≠ 0 := by
    rintro rfl
    omega
  rw [if_neg some] at extended
  cases extended
  -- the retry finds the block the new pages are in
  obtain ⟨b, member, holds⟩ := inv.extend_holds grown positive alignSmall wanted
  dsimp only at null
  split at null
  · cases null
  · rename_i retry
    exact (grown.findAndRemove_none_iff positive alignSmall).mp retry b member holds

/-- The heap gives up only for lack of memory: a null pointer means that no
free block could hold the request and that growth was refused a page or out of
room.  In all other cases the call succeeds, unless mapping a page panics for
want of a page table. -/
theorem reachable_alloc_null {s : State} (reached : Reachable s) {layout : Layout}
    (small : layout.align ≤ 2 ^ 30) (replies : Nat → FrameReply) :
    (∀ list, alloc s.list replies layout = some (none, list) →
      (∀ b ∈ s.list.blocks,
        ¬ Holds (adjust layout).1 (adjust layout).2 b) ∧
      OutOfMemory s.list replies (adjust layout).1 (adjust layout).2) ∧
    ((∃ b ∈ s.list.blocks, Holds (adjust layout).1 (adjust layout).2 b) →
      ∃ addr list, alloc s.list replies layout = some (some addr, list)) ∧
    (¬ OutOfMemory s.list replies (adjust layout).1 (adjust layout).2 →
      (∀ page < pagesWanted s.list (adjust layout).1 (adjust layout).2,
        replies page ≠ .panics) →
      ∃ addr list, alloc s.list replies layout = some (some addr, list)) := by
  have inv := reached.inv
  refine ⟨fun list => inv.alloc_null small, ?_, ?_⟩
  · rintro ⟨b, member, holds⟩
    have searched := (inv.findAndRemove_none_iff (adjust_spec layout).2.2.2.2.2 (adjust_le
      small).1).not.mpr fun none => none b member holds
    obtain ⟨⟨addr, list⟩, found⟩ := Option.ne_none_iff_exists'.mp searched
    refine ⟨addr, { list with
      allocated := list.allocated + (adjust layout).1 }, ?_⟩
    simp only [alloc, found]
  · intro enough tables
    rcases result : alloc s.list replies layout with _ | ⟨_ | addr, list⟩
    · exact absurd result (alloc_ne_none tables)
    · exact absurd (inv.alloc_null small result).2 enough
    · exact ⟨addr, list, rfl⟩

/-- The first request of a heap that is refused its first page. -/
theorem refused_alloc_null :
    alloc FreeList.new (fun _ => .refused) sampleLayout =
        some (none, FreeList.new.opened) ∧
      OutOfMemory FreeList.new (fun _ => .refused) 24 64 := by
  have null : alloc FreeList.new (fun _ => .refused) sampleLayout =
      some (none, FreeList.new.opened) := by
    decide +kernel
  have started : Reachable ⟨FreeList.new, []⟩ := Lib.Reachable.start rfl
  exact ⟨null, ((@reachable_alloc_null _ started sampleLayout (by decide)
    (fun _ => .refused)).1 _ null).2⟩

end Eonos.Heap
