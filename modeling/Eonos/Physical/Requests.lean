import Eonos.Physical.Safety
import Eonos.Physical.Search

/-!
# Runs with arbitrary free requests

`free_frames` takes any address and count.  Whatever is asked, the allocator
fails only where it must.  What it gives back is another matter: reserved
memory and the bitmap have their bits set like frames on loan, so a request
for them is accepted and they are handed out afterwards.
-/

namespace Eonos.Physical

open Bitmap

/-- `free_frames` on a run's state: an accepted range is no longer on loan. -/
def State.freeFrames (s : State) (phys count : Nat) : State :=
  { s with
    pmm := Physical.freeFrames s.pmm phys count
    loans :=
      if (s.pmm.free phys count).1.isOk then s.loans \ rangeFrames phys count
      else s.loans }

/-- Steps of a run in which ranges are freed as `accepts` allows. -/
inductive Request (accepts : State → Nat → Nat → Prop) :
    State → State → Prop where
  | allocFrame {s : State} {phys : Nat} {p : Pmm}
      (result : allocFrame s.pmm = some (phys, p)) :
      Request accepts s
        { s with pmm := p, loans := s.loans ∪ rangeFrames phys 1 }
  | allocContiguous {s : State} {phys count : Nat} {p : Pmm}
      (result : allocContiguous s.pmm count = some (phys, p)) :
      Request accepts s
        { s with pmm := p, loans := s.loans ∪ rangeFrames phys count }
  | freeFrames {s : State} (phys count : Nat)
      (allowed : accepts s phys count) :
      Request accepts s (s.freeFrames phys count)
  | reclaim {s : State} (first : s.reclaimed = false) :
      Request accepts s
        { s with pmm := (reclaimBootloaderMemory s.pmm).2, reclaimed := true }

/-- States of such runs after booting with `map`. -/
def Requested (accepts : State → Nat → Nat → Prop) (map : MemoryMap) : State → Prop :=
  Lib.Reachable
    (fun s => init map.entries = some s.pmm ∧ s.loans = ∅ ∧
      s.reclaimed = false)
    (Request accepts)

section

variable {p q : Pmm} {phys count : Nat}

/-! ## The counter under arbitrary requests -/

theorem Tally.takes (tally : Tally p) (takes : p.Takes q phys count) : Tally q := by
  have same := takes.layout
  have clearEq : clearFrames q.bitmap = clearFrames p.bitmap \ rangeFrames phys count :=
    takes.filled.clearFrames_of_used
  refine ⟨?_, ?_, fun f above clear => ?_, ?_⟩
  · rw [same.length, same.bitmapWords, tally.words]
  · rw [same.totalFrames, same.length]
    exact tally.fits
  · rw [clearEq] at clear
    rw [same.totalFrames] at above
    exact tally.high f above (Finset.mem_sdiff.mp clear).1
  · rw [takes.counter, card_clearFrames_of_used takes.filled takes.clear]
    exact Nat.sub_le_sub_right tally.counter _

theorem Tally.free (tally : Tally p) (phys count : Nat) : Tally (p.free phys count).2 := by
  rcases p.free_cases phys count tally.fits with
    unchanged | ⟨-, same, inside, filled, used, counter⟩
  · rwa [unchanged]
  have fits : phys / pageSize + count ≤ 64 * p.bitmap.length :=
    Nat.le_trans inside tally.fits
  refine ⟨?_, ?_, fun f above clear => ?_, ?_⟩
  · rw [same.length, same.bitmapWords, tally.words]
  · rw [same.totalFrames, same.length]
    exact tally.fits
  · rw [filled.clearFrames_of_unused fits] at clear
    rw [same.totalFrames] at above
    rcases Finset.mem_union.mp clear with old | new
    · exact tally.high f above old
    · have below := (Finset.mem_Ico.mp new).2
      omega
  · rw [counter, card_clearFrames_of_unused filled fits used]
    exact Nat.add_le_add_right tally.counter _

/-- A frame freed before its region is reclaimed is counted twice. -/
theorem Tally.reclaim (tally : Tally p) (layout : Layout p) :
    Tally (reclaimBootloaderMemory p).2 ∧ Layout (reclaimBootloaderMemory p).2 := by
  have inside : ∀ r ∈ p.regions, r.kind = .bootloaderReclaimable →
      ∀ f ∈ r.frames, f < p.totalFrames :=
    fun r member kind => layout.inside r member (.inr kind)
  obtain ⟨after, total, result, length, card, members, -⟩ :=
    releaseRegions_clears .bootloaderReclaimable p.regions p.bitmap 0
      fun r member kind f inFrames =>
        Nat.lt_of_lt_of_le (inside r member kind f inFrames) tally.fits
  simp only [reclaimBootloaderMemory, result, Nat.zero_add]
  refine ⟨⟨length.trans tally.words, length.symm ▸ tally.fits, ?_, ?_⟩, ⟨length.trans layout.words,
    layout.fits, layout.disjoint, layout.inside, layout.bitmapUsable⟩⟩
  · intro f above clear
    rcases (members f).mp clear with old | ⟨r, member, kind, inFrames⟩
    · exact tally.high f above old
    · exact absurd (inside r member kind f inFrames) (Nat.not_lt_of_le above)
  · exact Nat.le_trans card (Nat.add_le_add_right tally.counter _)

end

theorem Inv.tally {s : State} (inv : Inv s) : Tally s.pmm :=
  ⟨inv.layout.words, inv.layout.words.symm ▸ inv.layout.fits, inv.high,
    Nat.le_of_eq inv.counter.symm⟩

theorem Requested.tally {accepts : State → Nat → Nat → Prop} {map : MemoryMap} {s : State}
    (reached : Requested accepts map s) : Tally s.pmm ∧ Layout s.pmm := by
  apply Lib.Reachable.invariant _ _ reached
  · rintro ⟨p, _, _⟩ ⟨started, rfl, rfl⟩
    have inv := init_inv map started
    exact ⟨inv.tally, inv.layout⟩
  · intro state later ⟨tally, layout⟩ taken
    cases taken with
    | allocFrame result =>
      have takes := Pmm.allocOne_takes tally.words result
      exact ⟨tally.takes takes, takes.layout.layout layout⟩
    | allocContiguous result =>
      have takes := allocContiguous_takes tally.words tally.fits result
      exact ⟨tally.takes takes, takes.layout.layout layout⟩
    | freeFrames phys count =>
      refine ⟨tally.free phys count, ?_⟩
      rcases state.pmm.free_cases phys count tally.fits with
        unchanged | ⟨-, same, -⟩
      · change Layout (state.pmm.free phys count).2
        rwa [unchanged]
      · exact same.layout layout
    | reclaim => exact tally.reclaim layout

/-- Allocation fails only when it must, whatever has been freed: one frame is
refused when none is clear, a run when there is no run, and otherwise the
lowest run is taken and nothing else. -/
theorem requested_alloc_complete {accepts : State → Nat → Nat → Prop}
    {map : MemoryMap} {s : State} (reached : Requested accepts map s) :
    (allocFrame s.pmm = none ↔
      ∀ f < s.pmm.totalFrames, s.pmm.bitmap.testBit f = true) ∧
    ∀ count, 2 ≤ count →
      (allocContiguous s.pmm count = none ↔
        ∀ start, ¬ FreeRun s.pmm start count) ∧
      ∀ phys p, allocContiguous s.pmm count = some (phys, p) →
        ∃ start, phys = start * pageSize ∧ FreeRun s.pmm start count ∧
          (∀ other, FreeRun s.pmm other count → start ≤ other) ∧
          ∀ f, p.bitmap.testBit f =
            if start ≤ f ∧ f < start + count then true
            else s.pmm.bitmap.testBit f := by
  obtain ⟨tally, -⟩ := reached.tally
  refine ⟨?_, fun count several => ?_⟩
  · rw [allocFrame, Pmm.allocOne_none_iff tally.words tally.counter,
      Finset.eq_empty_iff_forall_notMem]
    constructor
    · intro none f below
      by_contra clear
      refine none f (mem_clearFrames.mpr ⟨?_, by simpa using clear⟩)
      exact Nat.lt_of_lt_of_le below tally.fits
    · intro used f clear
      rcases Nat.lt_or_ge f s.pmm.totalFrames with below | above
      · have bit := (mem_clearFrames.mp clear).2
        rw [used f below] at bit
        exact Bool.noConfusion bit
      · exact tally.high f above clear
  have plain : allocContiguous s.pmm count = s.pmm.allocContiguousRun count :=
    if_neg (by omega)
  have positive : 0 < count := by omega
  rw [plain]
  have result : ∀ phys p, s.pmm.allocContiguousRun count = some (phys, p) →
      s.pmm.Takes p phys count ∧ FreeRun s.pmm (phys / pageSize) count := by
    intro phys p granted
    have takes := Pmm.allocContiguousRun_takes tally.fits granted
    exact ⟨takes, takes.freeRun tally positive⟩
  refine ⟨⟨?_, ?_⟩, ?_⟩
  · intro failed start free
    obtain ⟨phys, p, granted, -⟩ := tally.allocContiguousRun positive free
    rw [failed] at granted
    cases granted
  · intro noRun
    by_contra granted
    obtain ⟨⟨phys, p⟩, granted⟩ := Option.ne_none_iff_exists'.mp granted
    exact noRun _ (result phys p granted).2
  · intro phys p granted
    obtain ⟨takes, free⟩ := result phys p granted
    refine ⟨phys / pageSize, ?_, free, fun other run => ?_, takes.filled.2⟩
    · exact (Nat.div_mul_cancel (Nat.dvd_of_mod_eq_zero takes.aligned)).symm
    · obtain ⟨found, q, again, lowest⟩ :=
        tally.allocContiguousRun positive run
      rw [granted] at again
      cases again
      exact lowest

/-- Two frames of a small machine. -/
theorem sampleMap_alloc_complete :
    ∃ p, init sampleMap.entries = some p ∧
      (allocContiguous p 2 = none ↔ ∀ start, ¬ FreeRun p start 2) := by
  obtain ⟨p, started⟩ := Option.isSome_iff_exists.mp
    (by decide +kernel : (init sampleMap.entries).isSome = true)
  have reached : Requested (fun _ _ _ => True) sampleMap ⟨p, ∅, false⟩ :=
    Lib.Reachable.start ⟨started, rfl, rfl⟩
  exact ⟨p, started, ((requested_alloc_complete reached).2 2 (Nat.le_refl _)).1⟩

/-! ## What may be freed -/

/-- A request that is rejected, or for memory that is the callers': one that
names neither reserved memory nor the bitmap unless another check fails. -/
def Lawful (s : State) (phys count : Nat) : Prop :=
  count = 0 ∨ phys % pageSize ≠ 0 ∨
    s.pmm.totalFrames < phys / pageSize + count ∨
    (∃ f ∈ rangeFrames phys count, f ∈ clearFrames s.pmm.bitmap) ∨
    ∀ f ∈ rangeFrames phys count, s.pmm.Available s.reclaimed f

/-- Every frame of the callers is clear or on loan. -/
structure Owned (s : State) : Prop where
  inv : Inv s
  owned : ∀ f, s.pmm.Available s.reclaimed f →
    f ∈ clearFrames s.pmm.bitmap ∨ f ∈ s.loans
  small : s.pmm.totalFrames < 2 ^ 64

theorem highest_le {regions : List Region} {bound : Nat}
    (bounded : ∀ r ∈ regions, r.finish ≤ bound) :
    highest regions ≤ bound := by
  unfold highest
  generalize zero : 0 = start
  have low : start ≤ bound := zero ▸ Nat.zero_le _
  clear zero
  induction regions generalizing start with
  | nil => exact low
  | cons r rest induction =>
    obtain ⟨head, tail⟩ := List.forall_mem_cons.mp bounded
    rw [List.foldl_cons]
    apply induction tail
    split
    · exact Nat.max_le.mpr ⟨low, head⟩
    · exact Nat.max_le.mpr ⟨low, head⟩
    · exact low

theorem init_totalFrames (map : MemoryMap) {p : Pmm}
    (started : init map.entries = some p) : p.totalFrames < 2 ^ 64 := by
  have bound : highest map.entries ≤ 2 ^ 64 - pageSize :=
    highest_le fun r member => Nat.le_sub_of_add_le (map.bounded r member)
  have whole : map.entries.take maxRegions = map.entries :=
    List.take_of_length_le map.short
  unfold init at started
  simp only [whole] at started
  split at started
  · cases started
  · split at started
    · cases started
    · cases started
      simp only [pageSize] at *
      omega

section

variable {s : State} {phys count : Nat}

theorem Owned.onLoan (owned : Owned s)
    (used : Disjoint (clearFrames s.pmm.bitmap) (rangeFrames phys count))
    (available : ∀ f ∈ rangeFrames phys count, s.pmm.Available s.reclaimed f) :
    rangeFrames phys count ⊆ s.loans := by
  intro f member
  rcases owned.owned f (available f member) with clear | lent
  · exact absurd member (Finset.disjoint_left.mp used clear)
  · exact lent

/-- What `free` asks of an accepted request. -/
theorem Pmm.free_ok_iff {p : Pmm} (fits : p.totalFrames ≤ 64 * p.bitmap.length)
    (small : p.totalFrames < 2 ^ 64) (positive : 0 < count) :
    (p.free phys count).1 = .ok () ↔
      phys % pageSize = 0 ∧ phys / pageSize + count ≤ p.totalFrames ∧
        Disjoint (clearFrames p.bitmap) (rangeFrames phys count) := by
  have set : phys / pageSize + count ≤ p.totalFrames →
      ((List.range' (phys / pageSize) count).any
          (fun f => !p.bitmap.testBit f) = false ↔
        Disjoint (clearFrames p.bitmap) (rangeFrames phys count)) := by
    intro inside
    rw [List.any_eq_false, Finset.disjoint_right]
    refine forall_congr' fun f => ?_
    rw [List.mem_range'_1, rangeFrames, Finset.mem_Ico]
    refine forall_congr' fun member => ?_
    rw [mem_clearFrames]
    have below : f < 64 * p.bitmap.length := by omega
    simp [below]
  rw [Pmm.free, if_neg (by omega)]
  by_cases aligned : phys % pageSize = 0
  · rw [if_neg (by simpa using aligned)]
    dsimp only
    by_cases inside : phys / pageSize + count ≤ p.totalFrames
    · rw [if_neg (by omega), if_neg (by omega), ← set inside]
      split_ifs with clear
      · simp [clear]
      · simp [aligned, inside, clear]
    · split_ifs <;> simp_all
  · rw [if_pos (by simpa using aligned)]
    simp [aligned]

/-- A request is only accepted for frames on loan exactly when it is
lawful. -/
theorem Owned.free_iff (owned : Owned s) :
    ((s.pmm.free phys count).1 = .ok () → 0 < count →
      rangeFrames phys count ⊆ s.loans) ↔ Lawful s phys count := by
  have fits := owned.inv.tally.fits
  constructor
  · intro safe
    unfold Lawful
    by_cases empty : count = 0
    · exact .inl empty
    have positive : 0 < count := Nat.pos_of_ne_zero empty
    by_contra unlawful
    simp only [not_or, not_not, Nat.not_lt, not_exists, not_and] at unlawful
    obtain ⟨-, aligned, inside, used, reserved⟩ := unlawful
    refine reserved fun f member => (owned.inv.lent f (safe ?_ positive member)).1
    refine (Pmm.free_ok_iff fits owned.small positive).mpr ⟨aligned, inside, ?_⟩
    exact Finset.disjoint_right.mpr used
  · intro lawful accepted positive
    obtain ⟨aligned, inside, used⟩ :=
      (Pmm.free_ok_iff fits owned.small positive).mp accepted
    rcases lawful with empty | unaligned | outside | ⟨f, member, clear⟩ | available
    · omega
    · exact absurd aligned unaligned
    · omega
    · exact absurd member (Finset.disjoint_left.mp used clear)
    · exact owned.onLoan used available

theorem Owned.takes (owned : Owned s) {p : Pmm} (takes : s.pmm.Takes p phys count) :
    Owned { s with pmm := p, loans := s.loans ∪ rangeFrames phys count } := by
  refine ⟨owned.inv.takes takes, fun f available => ?_, ?_⟩
  · have clearEq : clearFrames p.bitmap = clearFrames s.pmm.bitmap \ rangeFrames phys count :=
      takes.filled.clearFrames_of_used
    have before := owned.owned f (takes.layout.available_iff.mp available)
    simp only [clearEq, Finset.mem_sdiff, Finset.mem_union]
    tauto
  · exact takes.layout.totalFrames ▸ owned.small

theorem State.freeFrames_of_ok (accepted : (s.pmm.free phys count).1 = .ok ()) :
    s.freeFrames phys count =
      { s with
        pmm := Physical.freeFrames s.pmm phys count
        loans := s.loans \ rangeFrames phys count } := by
  unfold State.freeFrames
  rw [accepted]
  rfl

theorem State.freeFrames_of_error {error : FreeError}
    (rejected : (s.pmm.free phys count).1 = .error error) : s.freeFrames phys count = s := by
  unfold State.freeFrames Physical.freeFrames
  rw [rejected, Pmm.free_error rejected]
  rfl

theorem Pmm.free_accepted {p : Pmm} (fits : p.totalFrames ≤ 64 * p.bitmap.length)
    (accepted : (p.free phys count).1 = .ok ()) :
    SameLayout p (p.free phys count).2 ∧
      clearFrames (p.free phys count).2.bitmap =
        clearFrames p.bitmap ∪ rangeFrames phys count := by
  unfold Pmm.free at accepted ⊢
  by_cases empty : count = 0
  · rw [if_pos empty]
    refine ⟨⟨rfl, rfl, rfl, rfl, rfl⟩, ?_⟩
    simp [rangeFrames, empty]
  rw [if_neg empty] at accepted ⊢
  split at accepted
  · cases accepted
  rename_i aligned
  rw [if_neg aligned]
  dsimp only at accepted ⊢
  split at accepted
  · cases accepted
  rename_i noWrap
  rw [if_neg noWrap]
  split at accepted
  · cases accepted
  rename_i inside
  rw [if_neg inside]
  split at accepted
  · cases accepted
  rename_i used
  rw [if_neg used]
  have room : phys / pageSize + count ≤ 64 * p.bitmap.length := by omega
  have filled := fillRange_filled p.bitmap (phys / pageSize) count false room
  exact ⟨⟨rfl, rfl, rfl, rfl, filled.1⟩, filled.clearFrames_of_unused room⟩

theorem Owned.freed (owned : Owned s) (accepted : (s.pmm.free phys count).1 = .ok ())
    (onLoan : rangeFrames phys count ⊆ s.loans) : Owned (s.freeFrames phys count) := by
  rw [State.freeFrames_of_ok accepted]
  have inv := owned.inv.freed phys count onLoan
  rw [accepted] at inv
  obtain ⟨same, clearEq⟩ := Pmm.free_accepted owned.inv.tally.fits accepted
  refine ⟨inv, fun f available => ?_, ?_⟩
  · have before := owned.owned f (same.available_iff.mp available)
    simp only [freeFrames, clearEq, Finset.mem_sdiff, Finset.mem_union]
    tauto
  · exact same.totalFrames ▸ owned.small

theorem Owned.reclaim (owned : Owned s) (first : s.reclaimed = false) :
    Owned { s with pmm := (reclaimBootloaderMemory s.pmm).2, reclaimed := true } := by
  have tally := owned.inv.tally
  have layout := owned.inv.layout
  refine ⟨owned.inv.reclaim first, fun f available => ?_, owned.small⟩
  obtain ⟨after, total, result, -, -, members, -⟩ :=
    releaseRegions_clears .bootloaderReclaimable s.pmm.regions s.pmm.bitmap 0
      fun r member kind f inFrames => Nat.lt_of_lt_of_le
        (layout.inside r member (.inr kind) f inFrames) tally.fits
  simp only [reclaimBootloaderMemory, result] at available ⊢
  rw [members]
  rcases available with usable | ⟨-, released⟩
  · exact (owned.owned f (.inl usable)).imp .inl id
  · exact .inl (.inr released)

/-- Lawful requests keep clear, lent and reserved frames apart. -/
theorem Owned.request {t : State} (owned : Owned s) (taken : Request Lawful s t) :
    Owned t ∧ t.pmm.regions = s.pmm.regions := by
  have tally := owned.inv.tally
  cases taken with
  | allocFrame result =>
    have takes := Pmm.allocOne_takes tally.words result
    exact ⟨owned.takes takes, takes.layout.regions⟩
  | allocContiguous result =>
    have takes := allocContiguous_takes tally.words tally.fits result
    exact ⟨owned.takes takes, takes.layout.regions⟩
  | freeFrames phys count lawful =>
    rcases outcome : (s.pmm.free phys count).1 with error | ⟨⟩
    · rw [State.freeFrames_of_error outcome]
      exact ⟨owned, rfl⟩
    · have onLoan : rangeFrames phys count ⊆ s.loans := by
        rcases Nat.eq_zero_or_pos count with rfl | positive
        · simp [rangeFrames]
        · exact owned.free_iff.mpr lawful outcome positive
      exact ⟨owned.freed outcome onLoan, (Pmm.free_accepted tally.fits outcome).1.regions⟩
  | reclaim first => exact ⟨owned.reclaim first, rfl⟩

end

theorem Requested.owned {map : MemoryMap} {s : State} (reached : Requested Lawful map s) :
    Owned s ∧ s.pmm.regions = map.entries := by
  apply Lib.Reachable.invariant _ _ reached
  · rintro ⟨p, _, _⟩ ⟨started, rfl, rfl⟩
    refine ⟨⟨init_inv map started, fun f available => ?_,
      init_totalFrames map started⟩, init_regions map started⟩
    exact .inl (((init_spec map started).2.2 f).mpr available)
  · rintro state later ⟨owned, regions⟩ taken
    obtain ⟨after, same⟩ := owned.request taken
    exact ⟨after, same.trans regions⟩

/-- While all requests so far were lawful, a request is accepted only for
frames on loan exactly when it is lawful too, and what is allocated is fresh
memory of the map. -/
theorem lawful_free_on_loan {map : MemoryMap} {s : State} (reached : Requested Lawful map s) :
    (∀ phys count,
      ((s.pmm.free phys count).1 = .ok () → 0 < count →
        rangeFrames phys count ⊆ s.loans) ↔ Lawful s phys count) ∧
    (∀ phys p, allocFrame s.pmm = some (phys, p) → Granted map s phys 1) ∧
    ∀ count phys p, allocContiguous s.pmm count = some (phys, p) →
      Granted map s phys count := by
  obtain ⟨owned, regions⟩ := reached.owned
  have inv := owned.inv
  have tally := inv.tally
  refine ⟨fun phys count => owned.free_iff, ?_, ?_⟩
  · intro phys p result
    exact inv.granted regions Nat.one_pos (Pmm.allocOne_takes tally.words result)
  · intro count phys p result
    exact inv.granted regions (allocContiguous_positive result)
      (allocContiguous_takes tally.words tally.fits result)

theorem sampleMap_lawful_free_on_loan :
    ∃ p, init sampleMap.entries = some p ∧
      ((p.free 0x102000 1).1 = .ok () → 0 < 1 →
        rangeFrames 0x102000 1 ⊆ ∅) := by
  obtain ⟨p, started⟩ := Option.isSome_iff_exists.mp
    (by decide +kernel : (init sampleMap.entries).isSome = true)
  have reached : Requested Lawful sampleMap ⟨p, ∅, false⟩ :=
    Lib.Reachable.start ⟨started, rfl, rfl⟩
  have clear : ((init sampleMap.entries).map fun p =>
      p.bitmap.testBit 0x102 || p.bitmap.length * 64 ≤ 0x102) =
        some false := by
    decide +kernel
  rw [started, Option.map_some, Option.some.injEq, Bool.or_eq_false_iff,
    decide_eq_false_iff_not] at clear
  refine ⟨p, started, ((lawful_free_on_loan reached).1 0x102000 1).mpr ?_⟩
  refine .inr (.inr (.inr (.inl ⟨0x102, by decide, ?_⟩)))
  exact mem_clearFrames.mpr ⟨by dsimp only; omega, clear.1⟩

/-- The frame that holds the bitmap is taken back although nobody had it, and
handed out by the next allocation. -/
theorem sampleMap_bitmap_freed :
    ∃ s, Requested (fun _ _ _ => True) sampleMap s ∧
      (s.pmm.free s.pmm.bitmapPhys 1).1.isOk = true ∧
      ¬ rangeFrames s.pmm.bitmapPhys 1 ⊆ s.loans ∧
      ∃ p, Requested (fun _ _ _ => True) sampleMap
          (s.freeFrames s.pmm.bitmapPhys 1) ∧
        allocFrame (s.freeFrames s.pmm.bitmapPhys 1).pmm =
          some (s.pmm.bitmapPhys, p) ∧
        s.pmm.bitmapPhys / pageSize ∈ p.bitmapFrames := by
  obtain ⟨p, started⟩ := Option.isSome_iff_exists.mp
    (by decide +kernel : (init sampleMap.entries).isSome = true)
  have reached : Requested (fun _ _ _ => True) sampleMap ⟨p, ∅, false⟩ :=
    Lib.Reachable.start ⟨started, rfl, rfl⟩
  have again : ((init sampleMap.entries).map fun p =>
      ((p.free p.bitmapPhys 1).1.isOk, (allocFrame (freeFrames p p.bitmapPhys 1)).map fun result =>
          (result.1 == p.bitmapPhys &&
            decide (p.bitmapPhys / pageSize ∈ result.2.bitmapFrames)))) =
        some (true, some true) := by
    decide +kernel
  rw [started, Option.map_some, Option.some.injEq, Prod.mk.injEq] at again
  obtain ⟨accepted, handed⟩ := again
  obtain ⟨⟨phys, q⟩, granted, same⟩ := Option.map_eq_some_iff.mp handed
  rw [Bool.and_eq_true, beq_iff_eq, decide_eq_true_iff] at same
  refine ⟨_, reached, accepted, ?_, q, reached.next (.freeFrames _ _ trivial), ?_, same.2⟩
  · intro subset
    have first := subset (Finset.mem_Ico.mpr ⟨Nat.le_refl _, Nat.lt_succ_self _⟩)
    exact absurd first (Finset.notMem_empty _)
  · exact granted.trans (congrArg (fun a => some (a, q)) same.1)

end Eonos.Physical
