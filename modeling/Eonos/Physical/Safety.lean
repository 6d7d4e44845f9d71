import Eonos.Lib.Reachable
import Eonos.Physical.Operations

/-!
# Safety of the frame allocator over whole runs

The state of a run is the allocator together with two ghosts: the frames on
loan to callers, and whether the bootloader's memory has been reclaimed.  The
invariant says that the clear bits, the frames on loan and the frames that are
nobody's are told apart by the bitmap, and that the counter is the number of
clear bits.
-/

namespace Eonos.Physical

open Bitmap

namespace Region

def Covers (r : Region) (address : Nat) : Prop :=
  r.base ≤ address ∧ address < r.finish

/-- Regions the allocator will ever hand out memory from. -/
def Managed (r : Region) : Prop :=
  r.kind = .usable ∨ r.kind = .bootloaderReclaimable

end Region

/-- A memory map as the bootloader promises it: few enough entries, 64-bit
ends, and usable or reclaimable memory that nothing else overlaps. -/
structure MemoryMap where
  entries : List Region
  short : entries.length ≤ maxRegions
  bounded : ∀ r ∈ entries, r.finish + pageSize ≤ 2 ^ 64
  exclusive : entries.Pairwise fun r s =>
    r.Managed ∨ s.Managed → ∀ address, ¬ (r.Covers address ∧ s.Covers address)

/-- Frames that hold the bitmap itself. -/
def Pmm.bitmapFrames (p : Pmm) : Finset Nat :=
  rangeFrames p.bitmapPhys (bitmapFramesFor p.bitmapWords)

/-- Frames that belong to the allocator's callers: usable memory other than
the bitmap, and the bootloader's memory once it is reclaimed. -/
def Pmm.Available (p : Pmm) (reclaimed : Bool) (f : Nat) : Prop :=
  (Released .usable p.regions f ∧ f ∉ p.bitmapFrames) ∨
    (reclaimed = true ∧ Released .bootloaderReclaimable p.regions f)

/-- Facts about the memory map that hold from `init` on. -/
structure Layout (p : Pmm) : Prop where
  words : p.bitmap.length = p.bitmapWords
  fits : p.totalFrames ≤ 64 * p.bitmapWords
  disjoint : p.regions.Pairwise fun r s =>
    r.Managed → s.Managed → Disjoint r.frames s.frames
  inside : ∀ r ∈ p.regions, r.Managed → ∀ f ∈ r.frames, f < p.totalFrames
  bitmapUsable : ∀ f ∈ p.bitmapFrames, Released .usable p.regions f

structure State where
  pmm : Pmm
  loans : Finset Nat
  reclaimed : Bool

structure Inv (s : State) : Prop where
  layout : Layout s.pmm
  high : ∀ f, s.pmm.totalFrames ≤ f → f ∉ clearFrames s.pmm.bitmap
  counter : s.pmm.freeFrames = (clearFrames s.pmm.bitmap).card
  clear : ∀ f ∈ clearFrames s.pmm.bitmap, s.pmm.Available s.reclaimed f
  lent : ∀ f ∈ s.loans, s.pmm.Available s.reclaimed f ∧
    f ∉ clearFrames s.pmm.bitmap

/-! ## Initialisation -/

variable {r : Region} {p : Pmm}

theorem frames_disjoint_of_exclusive {s : Region}
    (exclusive : ∀ address, ¬ (r.Covers address ∧ s.Covers address)) :
    Disjoint r.frames s.frames := by
  apply Finset.disjoint_left.mpr
  intro f inLeft inRight
  have left := Region.page_inside_of_mem_frames inLeft
  have right := Region.page_inside_of_mem_frames inRight
  have positive : 0 < pageSize := by decide
  apply exclusive (f * pageSize)
  exact ⟨⟨left.2.1, by omega⟩, ⟨right.2.1, by omega⟩⟩

private theorem foldl_highest_le (regions : List Region) (start : Nat) :
    start ≤ regions.foldl
      (fun highest r =>
        match r.kind with
        | .usable | .bootloaderReclaimable => max highest r.finish
        | _ => highest) start := by
  induction regions generalizing start with
  | nil => exact Nat.le_refl _
  | cons r rest induction =>
    apply Nat.le_trans _ (induction _)
    dsimp only
    split
    · exact Nat.le_max_left _ _
    · exact Nat.le_max_left _ _
    · exact Nat.le_refl _

theorem finish_le_highest {regions : List Region} (member : r ∈ regions) (managed : r.Managed) :
    r.finish ≤ highest regions := by
  unfold highest
  generalize 0 = start
  induction regions generalizing start with
  | nil => exact absurd member List.not_mem_nil
  | cons s rest induction =>
    rcases List.mem_cons.mp member with rfl | later
    · rw [List.foldl_cons]
      apply Nat.le_trans _ (foldl_highest_le rest _)
      rcases managed with usable | reclaimable
      · rw [usable]
        exact Nat.le_max_right _ _
      · rw [reclaimable]
        exact Nat.le_max_right _ _
    · exact induction later _

theorem frame_lt_total {regions : List Region} {f : Nat} (member : r ∈ regions)
    (managed : r.Managed) (inside : f ∈ r.frames) : f < highest regions / pageSize := by
  have below := finish_le_highest member managed
  have page := (Region.page_inside_of_mem_frames inside).2.2
  apply (Nat.le_div_iff_mul_le (by decide : 0 < pageSize)).mpr
  rw [Nat.succ_mul]
  omega

theorem bitmapWordsFor_fits (totalFrames : Nat) :
    totalFrames ≤ 64 * bitmapWordsFor totalFrames := by
  unfold bitmapWordsFor
  omega

/-- The chosen address starts a usable region that has room for the bitmap. -/
theorem placeBitmap_spec {regions : List Region} {bitmapFrames phys : Nat}
    (placed : placeBitmap regions bitmapFrames = some phys) :
    ∃ r ∈ regions, r.kind = .usable ∧ phys / pageSize ∈ r.frames ∧
      rangeFrames phys bitmapFrames ⊆ r.frames := by
  unfold placeBitmap at placed
  obtain ⟨r, found, rfl⟩ := Option.map_eq_some_iff.mp placed
  have member := List.mem_of_find?_eq_some found
  have chosen := List.find?_some found
  simp only [decide_eq_true_eq] at chosen
  obtain ⟨usable, nonempty, room⟩ := chosen
  refine ⟨r, member, usable, ?_, ?_⟩
  · apply Region.mem_frames.mpr
    refine ⟨Nat.le_refl _, ?_⟩
    simp only [Region.allocStart, Region.allocEnd, alignUp, alignDown, pageSize] at nonempty ⊢
    omega
  · have enough : bitmapFrames ≤ r.allocFrames :=
      (Nat.le_div_iff_mul_le (by decide : 0 < pageSize)).mpr room
    apply Finset.Ico_subset_Ico_right
    exact Nat.add_le_add_left enough _

theorem bitmapFramesFor_pos {words : Nat} (some_word : 0 < words) : 0 < bitmapFramesFor words := by
  simp only [bitmapFramesFor, alignUp, pageSize]
  omega

/-- The allocator starts with exactly the usable memory outside its bitmap
clear, and counted. -/
theorem init_spec (map : MemoryMap) (started : init map.entries = some p) :
    Layout p ∧ p.freeFrames = (clearFrames p.bitmap).card ∧
      ∀ f, f ∈ clearFrames p.bitmap ↔ p.Available false f := by
  have whole : map.entries.take maxRegions = map.entries :=
    List.take_of_length_le map.short
  unfold init at started
  simp only [whole] at started
  split at started
  · simp at started
  · split at started
    · simp at started
    · rename_i bitmapPhys placed
      have disjoint : map.entries.Pairwise fun r s =>
          r.Managed → s.Managed → Disjoint r.frames s.frames := by
        apply map.exclusive.imp
        intro r s exclusive managed _
        exact frames_disjoint_of_exclusive (exclusive (.inl managed))
      have inside : ∀ r ∈ map.entries, r.Managed → ∀ f ∈ r.frames,
          f < highest map.entries / pageSize := by
        intro r member managed f inFrames
        exact frame_lt_total member managed inFrames
      have fits :=
        bitmapWordsFor_fits (highest map.entries / pageSize)
      generalize total : highest map.entries / pageSize = totalFrames at *
      generalize wordsEq : bitmapWordsFor totalFrames = words at *
      have blankLength : (List.replicate words (BitVec.allOnes 64)).length = words :=
        List.length_replicate
      obtain ⟨released, count, result, length, card, members⟩ :=
        releaseRegions_spec .usable map.entries (List.replicate words (BitVec.allOnes 64)) 0 (by
            constructor
            · apply disjoint.imp
              intro r s apart left right
              exact apart (.inl left) (.inl right)
            · intro r member usable f inFrames
              have below := inside r member (.inl usable) f inFrames
              rw [blankLength]
              omega)
          (by
            intro f _ clear
            rw [clearFrames_replicate_allOnes] at clear
            exact absurd clear (Finset.notMem_empty f))
      rw [clearFrames_replicate_allOnes, Finset.card_empty, Nat.zero_add] at card
      simp only [clearFrames_replicate_allOnes, Finset.notMem_empty, false_or] at members
      rw [blankLength] at length
      rw [result, Nat.zero_add] at started
      simp only [Option.some.injEq] at started
      subst started
      obtain ⟨host, hostMember, hostUsable, hostFirst, hostRoom⟩ :=
        placeBitmap_spec placed
      have bitmapReleased : ∀ f ∈ rangeFrames bitmapPhys
          (bitmapFramesFor words), Released .usable map.entries f := by
        intro f member
        exact ⟨host, hostMember, hostUsable, hostRoom member⟩
      have bitmapClear : rangeFrames bitmapPhys (bitmapFramesFor words) ⊆
          clearFrames released := by
        intro f member
        exact (members f).mpr (bitmapReleased f member)
      have bitmapFits : bitmapPhys / pageSize + bitmapFramesFor words ≤ 64 * released.length := by
        have firstBelow := inside host hostMember (.inl hostUsable) _ hostFirst
        have someFrame : 0 < totalFrames :=
          Nat.lt_of_le_of_lt (Nat.zero_le _) firstBelow
        have positive : 0 < bitmapFramesFor words :=
          bitmapFramesFor_pos (by omega)
        have last : bitmapPhys / pageSize + (bitmapFramesFor words - 1) ∈
            rangeFrames bitmapPhys (bitmapFramesFor words) := by
          apply Finset.mem_Ico.mpr
          exact ⟨Nat.le_add_right _ _, Nat.add_lt_add_left (Nat.sub_one_lt (by omega)) _⟩
        have below := (mem_clearFrames.mp (bitmapClear last)).1
        omega
      have filled := fillRange_filled released (bitmapPhys / pageSize)
        (bitmapFramesFor words) true bitmapFits
      have clearEq := filled.clearFrames_of_used
      refine ⟨⟨?_, fits, disjoint, inside, bitmapReleased⟩, ?_, fun f => ?_⟩
      · rw [filled.1, length]
      · rw [card_clearFrames_of_used filled bitmapClear, card]
      · simp only [clearEq, Finset.mem_sdiff, members, Pmm.Available,
          Bool.false_eq_true, false_and, or_false]
        rfl

/-- A frame of the map lies below the number of frames. -/
theorem Layout.available_lt (layout : Layout p) {reclaimed : Bool}
    {f : Nat} (available : p.Available reclaimed f) : f < p.totalFrames := by
  rcases available with
    ⟨⟨r, member, kind, inFrames⟩, _⟩ | ⟨_, r, member, kind, inFrames⟩
  · exact layout.inside r member (.inl kind) f inFrames
  · exact layout.inside r member (.inr kind) f inFrames

theorem init_inv (map : MemoryMap) (started : init map.entries = some p) : Inv ⟨p, ∅, false⟩ := by
  obtain ⟨layout, counter, clear⟩ := init_spec map started
  refine ⟨layout, ?_, counter, fun f => (clear f).mp, ?_⟩
  · intro f above member
    have below := layout.available_lt ((clear f).mp member)
    exact absurd below (Nat.not_lt_of_le above)
  · intro f member
    exact absurd member (Finset.notMem_empty f)

/-! ## Steps -/

inductive Step : State → State → Prop where
  | allocFrame {s : State} {phys : Nat} {p : Pmm}
      (result : allocFrame s.pmm = some (phys, p)) :
      Step s { s with pmm := p, loans := s.loans ∪ rangeFrames phys 1 }
  | allocContiguous {s : State} {phys count : Nat} {p : Pmm}
      (result : allocContiguous s.pmm count = some (phys, p)) :
      Step s { s with pmm := p, loans := s.loans ∪ rangeFrames phys count }
  /-- A range is only freed while all of it is on loan; what the allocator
  rejects stays on loan. -/
  | freeFrames {s : State} (phys count : Nat)
      (onLoan : rangeFrames phys count ⊆ s.loans) :
      Step s
        { s with
          pmm := freeFrames s.pmm phys count
          loans :=
            match (s.pmm.free phys count).1 with
            | .ok _ => s.loans \ rangeFrames phys count
            | .error _ => s.loans }
  | reclaim {s : State} (first : s.reclaimed = false) :
      Step s
        { s with pmm := (reclaimBootloaderMemory s.pmm).2, reclaimed := true }

namespace Pmm

theorem SameLayout.layout {p q : Pmm} (same : SameLayout p q) (layout : Layout p) : Layout q := by
  constructor
  · rw [same.length, same.bitmapWords]
    exact layout.words
  · rw [same.totalFrames, same.bitmapWords]
    exact layout.fits
  · rw [same.regions]
    exact layout.disjoint
  · rw [same.regions, same.totalFrames]
    exact layout.inside
  · rw [Pmm.bitmapFrames, same.bitmapPhys, same.bitmapWords, same.regions]
    exact layout.bitmapUsable

theorem SameLayout.available_iff {p q : Pmm} (same : SameLayout p q) {reclaimed : Bool} {f : Nat} :
    q.Available reclaimed f ↔ p.Available reclaimed f := by
  unfold Available bitmapFrames
  rw [same.regions, same.bitmapPhys, same.bitmapWords]

end Pmm

variable {s : State} {phys count : Nat}

theorem Inv.takes (inv : Inv s) {p : Pmm} (takes : s.pmm.Takes p phys count) :
    Inv { s with pmm := p, loans := s.loans ∪ rangeFrames phys count } := by
  have clearEq : clearFrames p.bitmap = clearFrames s.pmm.bitmap \ rangeFrames phys count :=
    takes.filled.clearFrames_of_used
  constructor
  · exact takes.layout.layout inv.layout
  · intro f above clear
    simp only [clearEq, takes.layout.totalFrames] at above clear
    exact inv.high f above (Finset.mem_sdiff.mp clear).1
  · simp only
    rw [takes.counter, inv.counter, card_clearFrames_of_used takes.filled takes.clear]
  · intro f clear
    simp only [clearEq] at clear
    apply takes.layout.available_iff.mpr
    exact inv.clear f (Finset.mem_sdiff.mp clear).1
  · intro f lent
    simp only [clearEq, takes.layout.available_iff] at lent ⊢
    rcases Finset.mem_union.mp lent with earlier | taken
    · obtain ⟨available, used⟩ := inv.lent f earlier
      exact ⟨available, fun clear => used (Finset.mem_sdiff.mp clear).1⟩
    · refine ⟨inv.clear f (takes.clear taken), ?_⟩
      intro clear
      exact (Finset.mem_sdiff.mp clear).2 taken

theorem Inv.freed (inv : Inv s) (phys count : Nat)
    (onLoan : rangeFrames phys count ⊆ s.loans) :
    Inv { s with
          pmm := freeFrames s.pmm phys count
          loans :=
            match (s.pmm.free phys count).1 with
            | .ok _ => s.loans \ rangeFrames phys count
            | .error _ => s.loans } := by
  have fits : s.pmm.totalFrames ≤ 64 * s.pmm.bitmap.length := by
    rw [inv.layout.words]
    exact inv.layout.fits
  unfold freeFrames
  rcases s.pmm.free_cases phys count fits with
    unchanged | ⟨ok, same, inside, filled, used, counter⟩
  · rw [unchanged]
    constructor
    · exact inv.layout
    · exact inv.high
    · exact inv.counter
    · exact inv.clear
    · intro f lent
      apply inv.lent
      split at lent
      · exact (Finset.mem_sdiff.mp lent).1
      · exact lent
  · rw [ok]
    have clearEq : clearFrames (s.pmm.free phys count).2.bitmap =
        clearFrames s.pmm.bitmap ∪ rangeFrames phys count :=
      filled.clearFrames_of_unused (by omega)
    constructor
    · exact same.layout inv.layout
    · intro f above clear
      simp only [clearEq, same.totalFrames] at above clear
      rcases Finset.mem_union.mp clear with old | new
      · exact inv.high f above old
      · have below := (Finset.mem_Ico.mp new).2
        omega
    · simp only
      rw [counter, inv.counter,
        card_clearFrames_of_unused filled (by omega) used]
    · intro f clear
      simp only [clearEq] at clear
      apply same.available_iff.mpr
      rcases Finset.mem_union.mp clear with old | new
      · exact inv.clear f old
      · exact (inv.lent f (onLoan new)).1
    · intro f lent
      simp only [clearEq, same.available_iff] at lent ⊢
      obtain ⟨earlier, kept⟩ := Finset.mem_sdiff.mp lent
      obtain ⟨available, notClear⟩ := inv.lent f earlier
      refine ⟨available, ?_⟩
      intro clear
      rcases Finset.mem_union.mp clear with old | new
      · exact notClear old
      · exact kept new

/-- No frame belongs to two managed regions of different kinds. -/
theorem Layout.usable_not_reclaimable {p : Pmm} (layout : Layout p) {f : Nat}
    (usable : Released .usable p.regions f)
    (reclaimable : Released .bootloaderReclaimable p.regions f) : False := by
  obtain ⟨r, rMember, rKind, rFrames⟩ := usable
  obtain ⟨s, sMember, sKind, sFrames⟩ := reclaimable
  have different : r ≠ s := by
    intro same
    rw [same, sKind] at rKind
    exact Kind.noConfusion rKind
  have symmetric : Std.Symm fun r s : Region =>
      r.Managed → s.Managed → Disjoint r.frames s.frames :=
    ⟨fun r s apart left right => (apart right left).symm⟩
  have apart := layout.disjoint.forall rMember sMember different (.inl rKind) (.inr sKind)
  exact Finset.disjoint_left.mp apart rFrames sFrames

theorem Inv.reclaim (inv : Inv s) (first : s.reclaimed = false) :
    Inv { s with pmm := (reclaimBootloaderMemory s.pmm).2, reclaimed := true } := by
  have onlyUsable : ∀ {f}, s.pmm.Available s.reclaimed f →
      Released .usable s.pmm.regions f := by
    intro f available
    rcases available with ⟨usable, _⟩ | ⟨reclaimed, _⟩
    · exact usable
    · rw [first] at reclaimed
      exact Bool.noConfusion reclaimed
  obtain ⟨after, total, result, length, card, members⟩ :=
    releaseRegions_spec .bootloaderReclaimable s.pmm.regions s.pmm.bitmap 0 (by
        constructor
        · apply inv.layout.disjoint.imp
          intro r t apart left right
          exact apart (.inr left) (.inr right)
        · intro r member kind f inFrames
          have below := inv.layout.inside r member (.inr kind) f inFrames
          have fits := inv.layout.fits
          rw [inv.layout.words]
          omega)
      (by
        intro f released clear
        exact inv.layout.usable_not_reclaimable (onlyUsable (inv.clear f clear)) released)
  simp only [reclaimBootloaderMemory, result, Nat.zero_add]
  have layout := inv.layout
  constructor
  · exact ⟨length.trans layout.words, layout.fits, layout.disjoint,
      layout.inside, layout.bitmapUsable⟩
  · intro f above clear
    rcases (members f).mp clear with old | ⟨r, member, kind, inFrames⟩
    · exact inv.high f above old
    · have below := layout.inside r member (.inr kind) f inFrames
      exact absurd below (Nat.not_lt_of_le above)
  · simp only
    rw [card, inv.counter]
  · intro f clear
    rcases (members f).mp clear with old | released
    · rcases inv.clear f old with usable | ⟨reclaimed, _⟩
      · exact .inl usable
      · rw [first] at reclaimed
        exact Bool.noConfusion reclaimed
    · exact .inr ⟨rfl, released⟩
  · intro f lent
    obtain ⟨available, used⟩ := inv.lent f lent
    constructor
    · rcases available with usable | ⟨_, released⟩
      · exact .inl usable
      · exact .inr ⟨rfl, released⟩
    · intro clear
      rcases (members f).mp clear with old | released
      · exact used old
      · exact layout.usable_not_reclaimable (onlyUsable available) released

theorem Inv.step {t : State} (inv : Inv s) (taken : Step s t) : Inv t := by
  have fits : s.pmm.totalFrames ≤ 64 * s.pmm.bitmap.length := by
    rw [inv.layout.words]
    exact inv.layout.fits
  cases taken with
  | allocFrame result =>
    exact inv.takes (Pmm.allocOne_takes inv.layout.words result)
  | allocContiguous result =>
    exact inv.takes (allocContiguous_takes inv.layout.words fits result)
  | freeFrames phys count onLoan => exact inv.freed phys count onLoan
  | reclaim first => exact inv.reclaim first

/-! ## Whole runs -/

/-- States the allocator can be in after booting with `map`. -/
def Reachable (map : MemoryMap) : State → Prop :=
  Lib.Reachable
    (fun s => init map.entries = some s.pmm ∧ s.loans = ∅ ∧
      s.reclaimed = false)
    Step

theorem Step.regions {t : State} (inv : Inv s) (taken : Step s t) :
    t.pmm.regions = s.pmm.regions := by
  have fits : s.pmm.totalFrames ≤ 64 * s.pmm.bitmap.length := by
    rw [inv.layout.words]
    exact inv.layout.fits
  cases taken with
  | allocFrame result =>
    exact (Pmm.allocOne_takes inv.layout.words result).layout.regions
  | allocContiguous result =>
    exact (allocContiguous_takes inv.layout.words fits result).layout.regions
  | freeFrames phys count onLoan =>
    rcases s.pmm.free_cases phys count fits with unchanged | ⟨_, same, _⟩
    · exact congrArg Pmm.regions unchanged
    · exact same.regions
  | reclaim first => rfl

theorem init_regions (map : MemoryMap) {p : Pmm}
    (started : init map.entries = some p) : p.regions = map.entries := by
  have whole : map.entries.take maxRegions = map.entries :=
    List.take_of_length_le map.short
  unfold init at started
  simp only [whole] at started
  split at started
  · simp at started
  · split at started
    · simp at started
    · simp only [Option.some.injEq] at started
      subst started
      rfl

theorem Reachable.inv {map : MemoryMap} (reached : Reachable map s) :
    Inv s ∧ s.pmm.regions = map.entries := by
  apply Lib.Reachable.invariant _ _ reached
  · intro start ⟨started, noLoans, notReclaimed⟩
    have inv := init_inv map started
    rw [← noLoans, ← notReclaimed] at inv
    exact ⟨inv, init_regions map started⟩
  · intro state later ⟨inv, regions⟩ taken
    exact ⟨inv.step taken, (taken.regions inv).trans regions⟩

/-- What a caller may rely on about `count` pages handed out at `phys`. -/
structure Granted (map : MemoryMap) (s : State) (phys count : Nat) :
    Prop where
  aligned : phys % pageSize = 0
  aboveMin : minAllocAddr ≤ phys
  memory : ∀ f ∈ rangeFrames phys count, ∃ r ∈ map.entries,
    (r.kind = .usable ∨ s.reclaimed = true ∧ r.kind = .bootloaderReclaimable) ∧
      r.base ≤ f * pageSize ∧ f * pageSize + pageSize ≤ r.finish
  notBitmap : Disjoint (rangeFrames phys count) s.pmm.bitmapFrames
  notOnLoan : Disjoint (rangeFrames phys count) s.loans

theorem Pmm.Available.memory {p : Pmm} {reclaimed : Bool} {f : Nat}
    (available : p.Available reclaimed f) :
    minAllocAddr ≤ f * pageSize ∧
      ∃ r ∈ p.regions,
        (r.kind = .usable ∨ reclaimed = true ∧
          r.kind = .bootloaderReclaimable) ∧
        r.base ≤ f * pageSize ∧ f * pageSize + pageSize ≤ r.finish := by
  rcases available with
    ⟨⟨r, member, kind, inFrames⟩, _⟩ | ⟨done, r, member, kind, inFrames⟩
  · obtain ⟨low, base, finish⟩ := Region.page_inside_of_mem_frames inFrames
    exact ⟨low, r, member, .inl kind, base, finish⟩
  · obtain ⟨low, base, finish⟩ := Region.page_inside_of_mem_frames inFrames
    exact ⟨low, r, member, .inr ⟨done, kind⟩, base, finish⟩

theorem Inv.granted {map : MemoryMap} (inv : Inv s) (regions : s.pmm.regions = map.entries)
    {p : Pmm} (positive : 0 < count) (takes : s.pmm.Takes p phys count) :
    Granted map s phys count := by
  have available : ∀ f ∈ rangeFrames phys count,
      s.pmm.Available s.reclaimed f := by
    intro f member
    exact inv.clear f (takes.clear member)
  constructor
  · exact takes.aligned
  · have first : phys / pageSize ∈ rangeFrames phys count :=
      Finset.mem_Ico.mpr ⟨Nat.le_refl _, Nat.lt_add_of_pos_right positive⟩
    have low := (available _ first).memory.1
    rwa [Nat.div_mul_cancel (Nat.dvd_of_mod_eq_zero takes.aligned)] at low
  · intro f member
    rw [← regions]
    exact (available f member).memory.2
  · apply Finset.disjoint_left.mpr
    intro f member inBitmap
    rcases available f member with ⟨_, outside⟩ | ⟨_, reclaimable⟩
    · exact outside inBitmap
    · exact inv.layout.usable_not_reclaimable (inv.layout.bitmapUsable f inBitmap) reclaimable
  · apply Finset.disjoint_left.mpr
    intro f member lent
    exact (inv.lent f lent).2 (takes.clear member)

theorem allocContiguous_positive {p q : Pmm}
    (result : allocContiguous p count = some (phys, q)) : 0 < count := by
  unfold allocContiguous at result
  split at result
  · omega
  · unfold Pmm.allocContiguousRun at result
    split at result
    · simp at result
    · omega

/-- The frame allocator is safe over every run: the counter is the number of
clear bits, the bits past the end of memory stay set, every range handed out
is fresh memory of the map, and a rejected free changes nothing. -/
theorem reachable_allocator_safe (map : MemoryMap) {s : State} (reached : Reachable map s) :
    s.pmm.freeFrames = (clearFrames s.pmm.bitmap).card ∧
      (∀ f, s.pmm.totalFrames ≤ f → f < 64 * s.pmm.bitmapWords →
        s.pmm.bitmap.testBit f = true) ∧
      (∀ phys p, allocFrame s.pmm = some (phys, p) →
        Granted map s phys 1) ∧
      (∀ count phys p, allocContiguous s.pmm count = some (phys, p) →
        Granted map s phys count) ∧
      (∀ phys count error, (s.pmm.free phys count).1 = .error error →
        (s.pmm.free phys count).2 = s.pmm) := by
  obtain ⟨inv, regions⟩ := reached.inv
  have words := inv.layout.words
  have fits : s.pmm.totalFrames ≤ 64 * s.pmm.bitmap.length := by
    rw [words]
    exact inv.layout.fits
  refine ⟨inv.counter, ?_, ?_, ?_, ?_⟩
  · intro f above below
    have notClear := inv.high f above
    rw [mem_clearFrames, words] at notClear
    cases bit : s.pmm.bitmap.testBit f with
    | false => exact absurd ⟨below, bit⟩ notClear
    | true => rfl
  · intro phys p result
    exact inv.granted regions Nat.one_pos (Pmm.allocOne_takes words result)
  · intro count phys p result
    exact inv.granted regions (allocContiguous_positive result)
      (allocContiguous_takes words fits result)
  · intro phys count error failed
    exact Pmm.free_error failed

/-- A small machine: usable memory above 1 MiB, some of the bootloader's, and
a framebuffer. -/
def sampleMap : MemoryMap where
  entries :=
    [⟨0x100000, 0x10000, .usable⟩,
      ⟨0x110000, 0x4000, .bootloaderReclaimable⟩,
      ⟨0xfd000000, 0x400000, .framebuffer⟩]
  short := by decide
  bounded := by decide
  exclusive := by
    simp only [List.pairwise_cons, List.mem_cons, List.not_mem_nil, or_false,
      forall_eq_or_imp, forall_eq, Region.Covers, Region.finish]
    refine ⟨⟨?_, ?_⟩, ?_, ?_⟩
    all_goals simp
    all_goals omega

theorem sampleMap_allocator_safe :
    ∃ p phys q, init sampleMap.entries = some p ∧
      allocFrame p = some (phys, q) ∧
      Granted sampleMap ⟨p, ∅, false⟩ phys 1 := by
  have succeeds : ((init sampleMap.entries).bind allocFrame).isSome = true := by
    decide +kernel
  obtain ⟨⟨phys, q⟩, result⟩ := Option.isSome_iff_exists.mp succeeds
  obtain ⟨p, started, allocated⟩ := Option.bind_eq_some_iff.mp result
  have reached : Reachable sampleMap ⟨p, ∅, false⟩ :=
    Lib.Reachable.start ⟨started, rfl, rfl⟩
  exact ⟨p, phys, q, started, allocated,
    (reachable_allocator_safe sampleMap reached).2.2.1 phys q allocated⟩

end Eonos.Physical
