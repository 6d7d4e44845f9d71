import Eonos.Heap.Safety

/-!
# The books of the heap

What happens to every byte that was ever mapped.  A search hands out the middle
of a block and puts the rest back, except for a remainder too small to hold a
header: no one has it, and no later call brings it back.
-/

namespace Eonos.Heap

open Lib

/-! ## Bytes on the free list -/

def bytes (blocks : List FreeBlock) : Nat := (blocks.map Span.size).sum

@[simp]
theorem bytes_nil : bytes [] = 0 := rfl

@[simp]
theorem bytes_cons (block : FreeBlock) (blocks : List FreeBlock) :
    bytes (block :: blocks) = block.size + bytes blocks := by
  simp [bytes]

@[simp]
theorem bytes_append (left right : List FreeBlock) :
    bytes (left ++ right) = bytes left + bytes right := by
  simp [bytes]

namespace FreeList

theorem mergeNext_bytes (addr size : Nat) (after : List FreeBlock) :
    (mergeNext addr size after).1 + bytes (mergeNext addr size after).2 = size + bytes after := by
  cases after with
  | nil => rfl
  | cons cur rest =>
    by_cases adjacent : addr + size = cur.addr
    · simp only [mergeNext, if_pos adjacent, bytes_cons]
      omega
    · simp only [mergeNext, if_neg adjacent]

theorem mergePrev_bytes (before : List FreeBlock) (addr size : Nat) (next : List FreeBlock) :
    bytes (mergePrev before addr size next) = bytes before + size + bytes next := by
  rcases List.eq_nil_or_concat before with rfl | ⟨front, prev, rfl⟩
  · simp [mergePrev]
  · simp only [mergePrev, List.concat_eq_append, List.getLast?_append,
      List.getLast?_singleton, Option.some_or, List.dropLast_concat]
    split
    · simp only [bytes_append, bytes_cons, bytes_nil]
      omega
    · simp only [bytes_append, bytes_cons, bytes_nil]
      omega

theorem insertBlocks_bytes (blocks : List FreeBlock) (addr size : Nat) :
    bytes (insertBlocks blocks addr size) = bytes blocks + size := by
  have whole := congrArg bytes (List.takeWhile_append_dropWhile
    (p := fun block : FreeBlock => decide (block.addr < addr)) (l := blocks))
  have merged := mergeNext_bytes addr size (blocks.dropWhile fun block => block.addr < addr)
  rw [bytes_append] at whole
  unfold insertBlocks
  dsimp only
  rw [mergePrev_bytes]
  omega

/-! ## Slivers -/

/-- What is lost of a remainder: all of it, when it cannot hold a header. -/
def sliver (remainder : Nat) : Nat :=
  if blockHeaderSize ≤ remainder then 0 else remainder

/-- What a search for `size` bytes loses of the block it finds. -/
def wasted (list : FreeList) (size align : Nat) : Nat :=
  match list.blocks.find? (fits size align) with
  | none => 0
  | some cur =>
    sliver (padding cur align) +
      sliver (cur.size - padding cur align - size)

/-- The remainder on one side of an allocation goes back or is lost. -/
theorem remainder_bytes (list : FreeList) (addr remainder : Nat) :
    bytes (if blockHeaderSize ≤ remainder then list.insert addr remainder
      else list).blocks + sliver remainder =
        bytes list.blocks + remainder ∧
      (if blockHeaderSize ≤ remainder then list.insert addr remainder
        else list).total = list.total := by
  unfold sliver
  split
  · exact ⟨insertBlocks_bytes _ _ _, rfl⟩
  · exact ⟨rfl, rfl⟩

theorem find?_fits (list : FreeList) (size align : Nat) :
    list.blocks.find? (fits size align) =
      (list.blocks.dropWhile fun block => !fits size align block).head? := by
  rw [List.find?_eq_head?_dropWhile_not]

theorem wasted_none {list : FreeList} {size align : Nat}
    (missed : list.findAndRemove size align = none) : list.wasted size align = 0 := by
  unfold findAndRemove at missed
  dsimp only at missed
  split at missed
  · rename_i rest
    rw [wasted, find?_fits, rest]
    rfl
  · cases missed

theorem findAndRemove_bytes {list after : FreeList} {addr size align : Nat}
    (result : list.findAndRemove size align = some (addr, after)) :
    bytes after.blocks + size + list.wasted size align =
      bytes list.blocks ∧ after.total = list.total := by
  have whole := congrArg bytes (List.takeWhile_append_dropWhile
    (p := fun block => !fits size align block) (l := list.blocks))
  have search := find?_fits list size align
  unfold findAndRemove at result
  dsimp only at result
  split at result
  · cases result
  · rename_i cur next rest
    rw [rest, List.head?_cons] at search
    have fitting := List.find?_some search
    have room : padding cur align + size ≤ cur.size :=
      of_decide_eq_true fitting
    rw [rest, bytes_append, bytes_cons] at whole
    obtain ⟨-, rfl⟩ := Prod.mk.inj (Option.some.inj result)
    have found : list.wasted size align = sliver (padding cur align) +
        sliver (cur.size - padding cur align - size) := by
      rw [wasted, search]
    generalize (list.blocks.takeWhile fun block => !fits size align block) = before at *
    obtain ⟨front, frontTotal⟩ := remainder_bytes
      { list with blocks := before ++ next } cur.addr (padding cur align)
    generalize (if blockHeaderSize ≤ padding cur align then
      ({ list with blocks := before ++ next } : FreeList).insert cur.addr
        (padding cur align) else { list with blocks := before ++ next }) =
      middle at *
    obtain ⟨back, backTotal⟩ := remainder_bytes middle
      (alignUp cur.addr align + size) (cur.size - padding cur align - size)
    dsimp only at front frontTotal
    rw [bytes_append] at front
    refine ⟨?_, backTotal.trans frontTotal⟩
    omega

theorem grow_bytes {list after : FreeList} {replies : Nat → FrameReply} {minExtra : Nat}
    {grew : Bool} (result : list.grow replies minExtra = some (grew, after)) :
    ∃ mapped, bytes after.blocks = bytes list.blocks + mapped ∧
      after.total = list.total + mapped ∧
      after.allocated = list.allocated ∧
      after.mappedEnd =
        (if list.mappedEnd = 0 then heapStart else list.mappedEnd) + mapped := by
  have fields : list.opened.blocks = list.blocks ∧ list.opened.total = list.total ∧
      list.opened.allocated = list.allocated ∧ list.opened.mappedEnd =
        if list.mappedEnd = 0 then heapStart else list.mappedEnd := by
    unfold opened
    split <;> exact ⟨rfl, rfl, rfl, rfl⟩
  rw [← fields.2.2.2, ← fields.1, ← fields.2.1, ← fields.2.2.1]
  rw [grow_eq] at result
  obtain ⟨pages, -, grown⟩ := Option.map_eq_some_iff.mp result
  by_cases none : pages = 0
  · rw [if_pos none] at grown
    cases grown
    exact ⟨0, rfl, rfl, rfl, rfl⟩
  · rw [if_neg none] at grown
    cases grown
    exact ⟨pages * pageSize, insertBlocks_bytes _ _ _, rfl, rfl, rfl⟩

end FreeList

/-! ## Calls -/

inductive Call where
  | init (replies : Nat → FrameReply)
  | alloc (replies : Nat → FrameReply) (layout : Layout)
  /-- The live allocation at `index` is deallocated, with its own layout. -/
  | dealloc (index : Nat)

namespace State

/-- One call; there is no next state where the kernel panicked or nothing is
live at the index. -/
def perform (s : State) : Call → Option State
  | .init replies =>
    (s.list.grow replies heapGrowStep).map fun result =>
      { s with list := result.2 }
  | .alloc replies layout =>
    (Heap.alloc s.list replies layout).map fun result =>
      ⟨result.2, (result.1.map fun addr =>
        Allocation.mk addr layout).toList ++ s.live⟩
  | .dealloc index =>
    (s.live[index]?).map fun x =>
      ⟨Heap.dealloc s.list x.ptr x.layout, s.live.eraseIdx index⟩

/-- What a call loses: the slivers beside the bytes it hands out. -/
def wasted (s : State) : Call → Nat
  | .alloc replies layout =>
    let (size, align) := adjust layout
    match s.list.findAndRemove size align with
    | some _ => s.list.wasted size align
    | none =>
      match s.list.grow replies (size + align) with
      | some (true, list) => list.wasted size align
      | _ => 0
  | _ => 0

/-- No call of the run leaves a sliver. -/
def Clean (s : State) : List Call → Prop
  | [] => True
  | call :: rest =>
    s.wasted call = 0 ∧ ∀ later, s.perform call = some later →
      later.Clean rest

/-- The bytes of the live allocations, at their adjusted sizes. -/
def liveBytes (s : State) : Nat :=
  (s.live.map fun x => (adjust x.layout).1).sum

end State

/-- The books with `lost` bytes written off. -/
structure Books (s : State) (lost : Nat) : Prop where
  inv : Inv s
  total : s.list.total = s.list.mappedEnd - heapStart
  account : bytes s.list.blocks + s.list.allocated + lost = s.list.total

section

variable {s later : State} {lost : Nat}

theorem Books.liveBytes (books : Books s lost) : s.list.allocated = s.liveBytes :=
  books.inv.allocated

theorem Books.grow (books : Books s lost) {replies : Nat → FrameReply} {minExtra : Nat}
    {grew : Bool} {list : FreeList} (result : s.list.grow replies minExtra = some (grew, list)) :
    Books { s with list := list } lost := by
  obtain ⟨mapped, free, total, allocated, mappedEnd⟩ :=
    FreeList.grow_bytes result
  have before := books.total
  have account := books.account
  refine ⟨books.inv.grow result, ?_, ?_⟩
  · dsimp only
    rw [total, mappedEnd, before]
    cases books.inv.window with
    | unmapped noEnd _ _ =>
      rw [noEnd, if_pos rfl]
      omega
    | mapped low _ _ =>
      have positive : 0 < heapStart := by decide
      rw [if_neg (by omega)]
      omega
  · dsimp only
    omega

theorem Books.carve (books : Books s lost) {layout : Layout} {addr : Nat} {list : FreeList}
    (result : s.list.findAndRemove (adjust layout).1 (adjust layout).2 = some (addr, list)) :
    Books ⟨{ list with allocated := list.allocated + (adjust layout).1 },
      ⟨addr, layout⟩ :: s.live⟩
      (lost + s.list.wasted (adjust layout).1 (adjust layout).2) := by
  obtain ⟨free, total⟩ := FreeList.findAndRemove_bytes result
  have carved := books.inv.carved result
  have account := books.account
  refine ⟨books.inv.carve result, ?_, ?_⟩
  · dsimp only
    rw [total, carved.mappedEnd, books.total]
  · dsimp only
    rw [carved.allocated]
    omega

theorem Books.perform (books : Books s lost) {call : Call} (result : s.perform call = some later) :
    Books later (lost + s.wasted call) := by
  cases call with
  | init replies =>
    obtain ⟨⟨grew, list⟩, grown, rfl⟩ := Option.map_eq_some_iff.mp result
    exact books.grow grown
  | alloc replies layout =>
    obtain ⟨⟨ptr, list⟩, served, rfl⟩ := Option.map_eq_some_iff.mp result
    unfold Heap.alloc at served
    unfold State.wasted
    dsimp only at served ⊢
    split at served
    case h_1 addr after found =>
      cases served
      rw [found]
      exact books.carve found
    case h_2 missed =>
      rw [missed]
      split at served
      case h_1 => cases served
      case h_2 grown growth =>
        cases served
        rw [growth]
        exact books.grow growth
      case h_3 grown growth =>
        rw [growth]
        have after := books.grow growth
        split at served
        case h_1 addr last found =>
          cases served
          exact after.carve found
        case h_2 failed =>
          cases served
          dsimp only
          rw [FreeList.wasted_none failed]
          exact after
  | dealloc index =>
    obtain ⟨x, found, rfl⟩ := Option.map_eq_some_iff.mp result
    obtain ⟨below, rfl⟩ := List.getElem?_eq_some_iff.mp found
    have split : s.live = s.live.take index ++ s.live[index] :: s.live.drop (index + 1) := by
      rw [List.getElem_cons_drop, List.take_append_drop]
    have inv := books.inv.dealloc split
    rw [← List.eraseIdx_eq_take_drop_succ] at inv
    have account := books.account
    have live : s.liveBytes =
        (adjust s.live[index].layout).1 +
          ((s.live.eraseIdx index).map fun x => (adjust x.layout).1).sum := by
      rw [State.liveBytes]
      conv_lhs => rw [split]
      rw [List.eraseIdx_eq_take_drop_succ]
      simp only [List.map_append, List.map_cons, List.sum_append, List.sum_cons]
      omega
    have enough := books.liveBytes
    refine ⟨inv, books.total, ?_⟩
    unfold Heap.dealloc FreeList.insert
    dsimp only [State.wasted]
    rw [FreeList.insertBlocks_bytes]
    omega

/-! ## Runs -/

/-- What a run loses in all. -/
def State.lostBy (s : State) : List Call → Nat
  | [] => 0
  | call :: rest =>
    s.wasted call + (s.perform call).elim 0 fun later => later.lostBy rest

theorem Books.run (books : Books s lost) {calls : List Call}
    (ran : calls.foldlM State.perform s = some later) :
    Books later (lost + s.lostBy calls) ∧ (s.Clean calls ↔ s.lostBy calls = 0) := by
  induction calls generalizing s lost with
  | nil =>
    cases ran
    exact ⟨books, iff_of_true trivial rfl⟩
  | cons call rest induction =>
    rw [List.foldlM_cons] at ran
    obtain ⟨middle, first, ran⟩ := Option.bind_eq_some_iff.mp ran
    obtain ⟨after, clean⟩ := induction (books.perform first) ran
    have lost : s.lostBy (call :: rest) = s.wasted call + middle.lostBy rest := by
      rw [State.lostBy, first]
      rfl
    rw [lost]
    constructor
    · rw [← Nat.add_assoc]
      exact after
    · rw [State.Clean, Nat.add_eq_zero_iff, ← clean, first]
      simp

/-- All of the heap in one block; before the first page is mapped there is
none. -/
def FreeList.oneBlock (list : FreeList) : List FreeBlock :=
  if list.mappedEnd ≤ heapStart then []
  else [⟨heapStart, list.mappedEnd - heapStart⟩]

/-- With nothing on loan, the list is one block just when it holds every byte. -/
theorem Books.oneBlock_iff (books : Books s lost) (returned : s.live = []) :
    s.list.blocks = s.list.oneBlock ↔ lost = 0 := by
  have account := books.account
  have total := books.total
  have none : s.list.allocated = 0 := by
    rw [books.liveBytes, State.liveBytes, returned]
    rfl
  unfold FreeList.oneBlock
  constructor
  · intro whole
    rw [whole] at account
    split_ifs at account with unmapped
    · rw [bytes_nil] at account
      omega
    · rw [bytes_cons, bytes_nil] at account
      dsimp only at account
      omega
  · intro nothing
    cases blocks : s.list.blocks with
    | nil =>
      rw [blocks, bytes_nil] at account
      rw [if_pos (by omega)]
    | cons b rest =>
      have member : b ∈ s.list.blocks := by
        rw [blocks]
        exact List.mem_cons_self
      obtain ⟨low, high⟩ := books.inv.block_inside member
      have positive := (books.inv.sized b member).nonempty
      have fill := books.inv.separated.sizes_le
        (by rw [blocks]; exact List.cons_ne_nil _ _)
        fun b member => books.inv.block_inside member
      change heapStart + bytes s.list.blocks + _ ≤ _ at fill
      rw [blocks, List.length_cons] at fill
      rw [blocks] at account
      simp only [Span.finish] at high
      -- there is no room for a gap, so there is no second block
      have alone : rest = [] := List.length_eq_zero_iff.mp (by omega)
      subst alone
      rw [bytes_cons, bytes_nil] at account
      rw [if_neg (by omega), List.cons.injEq]
      refine ⟨?_, rfl⟩
      obtain ⟨addr, size⟩ := b
      simp only [Span.mk.injEq] at *
      omega

end

/-- The books balance after every call, and the heap comes back as one block,
just when no call left a sliver. -/
theorem heap_balanced_iff {calls : List Call} {s : State}
    (ran : calls.foldlM State.perform ⟨FreeList.new, []⟩ = some s) :
    (bytes s.list.blocks + s.liveBytes = s.list.total ↔
        State.Clean ⟨FreeList.new, []⟩ calls) ∧
      (s.live = [] → (s.list.blocks = s.list.oneBlock ↔
        State.Clean ⟨FreeList.new, []⟩ calls)) := by
  have start : Books ⟨FreeList.new, []⟩ 0 := ⟨inv_start, by decide, rfl⟩
  obtain ⟨books, clean⟩ := start.run ran
  rw [Nat.zero_add] at books
  rw [clean]
  refine ⟨?_, books.oneBlock_iff⟩
  have account := books.account
  rw [books.liveBytes] at account
  omega

def wholeStepLayout : Layout where
  size := 65528
  align := 8
  power := ⟨3, rfl⟩
  small := by decide

/-- Everything is given back, and the last eight bytes of the heap are on no
list. -/
theorem sliver_is_lost :
    ∃ s, [Call.init (fun _ => .granted),
          .alloc (fun _ => .granted) wholeStepLayout,
          .dealloc 0].foldlM State.perform ⟨FreeList.new, []⟩ = some s ∧
      s.live = [] ∧ s.list.mappedEnd = heapStart + 65536 ∧
      s.list.blocks = [⟨heapStart, 65528⟩] ∧
      bytes s.list.blocks + s.liveBytes ≠ s.list.total := by
  have evaluated : ([Call.init (fun _ => .granted),
      .alloc (fun _ => .granted) wholeStepLayout,
      .dealloc 0].foldlM State.perform ⟨FreeList.new, []⟩).map
        (fun s => (s.live.length, s.list)) =
      some (0, ⟨[⟨heapStart, 65528⟩], heapStart + 65536, 0, 65536⟩) := by
    decide +kernel
  obtain ⟨s, ran, facts⟩ := Option.map_eq_some_iff.mp evaluated
  obtain ⟨none, list⟩ := Prod.mk.inj facts
  have returned := List.length_eq_zero_iff.mp none
  refine ⟨s, ran, returned, by rw [list], by rw [list], ?_⟩
  rw [State.liveBytes, returned, list]
  decide

/-- A clean run: the request leaves a remainder that holds a header. -/
theorem sample_heap_balanced :
    ∃ s, [Call.init (fun _ => .granted),
          .alloc (fun _ => .granted) sampleLayout].foldlM State.perform
            ⟨FreeList.new, []⟩ = some s ∧
      bytes s.list.blocks = 65512 ∧
      State.Clean ⟨FreeList.new, []⟩ [Call.init (fun _ => .granted),
        .alloc (fun _ => .granted) sampleLayout] := by
  have evaluated : ([Call.init (fun _ => .granted), .alloc (fun _ => .granted) sampleLayout].foldlM
      State.perform ⟨FreeList.new, []⟩).map (fun s => (bytes s.list.blocks, s.liveBytes,
      s.list.total)) = some (65512, 24, 65536) := by decide +kernel
  obtain ⟨s, ran, facts⟩ := Option.map_eq_some_iff.mp evaluated
  simp only [Prod.mk.injEq] at facts
  obtain ⟨free, live, total⟩ := facts
  refine ⟨s, ran, free, (heap_balanced_iff ran).1.mp ?_⟩
  rw [free, live, total]

end Eonos.Heap
