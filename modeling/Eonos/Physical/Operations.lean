import Eonos.Physical.ClearFrames

/-!
# What each allocator operation does

One specification per operation: which frames it takes or returns, and how the
bitmap and the counter follow.  The invariant proofs use only these.
-/

namespace Eonos.Physical

open Bitmap

/-- Frame numbers of `count` pages from physical address `phys`. -/
def rangeFrames (phys count : Nat) : Finset Nat :=
  Finset.Ico (phys / pageSize) (phys / pageSize + count)

namespace Pmm

/-- The parts of the allocator no operation after `init` changes. -/
structure SameLayout (p q : Pmm) : Prop where
  bitmapPhys : q.bitmapPhys = p.bitmapPhys
  bitmapWords : q.bitmapWords = p.bitmapWords
  totalFrames : q.totalFrames = p.totalFrames
  regions : q.regions = p.regions
  length : q.bitmap.length = p.bitmap.length

/-- A successful allocation took `count` clear frames from `phys` on. -/
structure Takes (p q : Pmm) (phys count : Nat) : Prop where
  aligned : phys % pageSize = 0
  layout : SameLayout p q
  filled : Filled p.bitmap q.bitmap (phys / pageSize)
    (phys / pageSize + count) true
  clear : rangeFrames phys count ⊆ clearFrames p.bitmap
  counter : q.freeFrames = p.freeFrames - count

private theorem clear_bit_of_not_full {word : BitVec 64} (notFull : word ≠ BitVec.allOnes 64) :
    (~~~word).ctz.toNat < 64 ∧ word.getLsbD (~~~word).ctz.toNat = false := by
  have nonzero : ~~~word ≠ 0#64 := by
    intro zero
    apply notFull
    have restored := congrArg (fun bits => ~~~bits) zero
    simpa using restored
  have set := BitVec.getLsbD_true_ctz_of_ne_zero nonzero
  rw [BitVec.getLsbD_not] at set
  simpa using set

variable {p q : Pmm} {phys count : Nat}

theorem allocOneLoop_takes {indices : List Nat} (words : p.bitmap.length = p.bitmapWords)
    (some_word : 0 < p.bitmapWords) (result : p.allocOneLoop indices = some (phys, q)) :
    Takes p q phys 1 := by
  induction indices with
  | nil => simp [allocOneLoop] at result
  | cons n rest induction =>
    by_cases notFull : p.bitmap.word ((p.nextHint + n) % p.bitmapWords) ≠ BitVec.allOnes 64
    · obtain ⟨small, clear⟩ := clear_bit_of_not_full notFull
      have inside : (p.nextHint + n) % p.bitmapWords < p.bitmapWords :=
        Nat.mod_lt _ some_word
      rw [allocOneLoop, if_pos notFull] at result
      simp only [Option.some.injEq, Prod.mk.injEq] at result
      obtain ⟨physEq, pmmEq⟩ := result
      subst physEq
      subst pmmEq
      generalize wordEq : (p.nextHint + n) % p.bitmapWords = w at *
      generalize bitEq : (~~~(p.bitmap.word w)).ctz.toNat = bit at *
      have quotient : (w * 64 + bit) / 64 = w := by omega
      have remainder : (w * 64 + bit) % 64 = bit := by omega
      have frameEq : (w * 64 + bit) * pageSize / pageSize = w * 64 + bit :=
        Nat.mul_div_cancel _ (by decide)
      have frameInside : w * 64 + bit < 64 * p.bitmap.length := by omega
      constructor
      · exact Nat.mul_mod_left _ _
      · constructor <;> simp
      · have filled := filled_putBit p.bitmap (w * 64 + bit) true frameInside
        simp only [putBit, if_true, setBit, quotient, remainder] at filled
        rw [frameEq]
        exact filled
      · intro f member
        rw [rangeFrames, frameEq, Finset.mem_Ico] at member
        have same : f = w * 64 + bit := by omega
        rw [mem_clearFrames, same]
        refine ⟨frameInside, ?_⟩
        rw [testBit_eq_getLsbD, quotient, remainder]
        exact clear
      · rfl
    · rw [allocOneLoop, if_neg notFull] at result
      exact induction result

theorem allocOne_takes (words : p.bitmap.length = p.bitmapWords)
    (result : p.allocOne = some (phys, q)) : Takes p q phys 1 := by
  unfold allocOne at result
  split at result
  · simp at result
  · by_cases empty : p.bitmapWords = 0
    · simp [empty, allocOneLoop] at result
    · exact allocOneLoop_takes words (Nat.pos_of_ne_zero empty) result

/-- The scan keeps `run` clear frames just below `frame`, starting at `start`
when there are any. -/
theorem findRun_clear {fuel run start frame found : Nat}
    (fits : p.totalFrames ≤ 64 * p.bitmap.length) (current : run ≠ 0 → start + run = frame)
    (clear : ∀ f, frame ≤ f + run → f < frame → f ∈ clearFrames p.bitmap)
    (result : p.findRun count fuel run start frame = some found) :
    ∀ f, found ≤ f → f < found + count → f ∈ clearFrames p.bitmap := by
  induction fuel generalizing run start frame with
  | zero => simp [findRun] at result
  | succ fuel induction =>
    unfold findRun at result
    split at result
    case isFalse => simp at result
    case isTrue inside =>
    split at result
    · exact induction (by simp) (by intro f low high; omega) result
    · split at result
      · exact induction (by simp) (by intro f low high; omega) result
      · rename_i notSet
        have here : frame ∈ clearFrames p.bitmap := by
          rw [mem_clearFrames]
          exact ⟨by omega, by simpa using notSet⟩
        have newStart : (if run = 0 then frame else start) + run = frame := by
          by_cases fresh : run = 0
          · simp [fresh]
          · rw [if_neg fresh]
            exact current fresh
        have extended : ∀ f, frame ≤ f + run → f < frame + 1 → f ∈ clearFrames p.bitmap := by
          intro f low high
          rcases Nat.lt_succ_iff_lt_or_eq.mp high with below | same
          · exact clear f low below
          · exact same ▸ here
        simp only at result
        split at result
        · rename_i last
          simp only [Option.some.injEq] at result
          intro f low high
          exact extended f (by omega) (by omega)
        · apply induction _ _ result
          · intro _
            omega
          · intro f low high
            exact extended f (by omega) high

theorem allocContiguousRun_takes (fits : p.totalFrames ≤ 64 * p.bitmap.length)
    (result : p.allocContiguousRun count = some (phys, q)) : Takes p q phys count := by
  unfold allocContiguousRun at result
  split at result
  · simp at result
  · rename_i accepted
    obtain ⟨start, found, resultEq⟩ := Option.map_eq_some_iff.mp result
    simp only [Prod.mk.injEq] at resultEq
    obtain ⟨physEq, pmmEq⟩ := resultEq
    subst physEq
    subst pmmEq
    have frameEq : start * pageSize / pageSize = start :=
      Nat.mul_div_cancel _ (by decide)
    have clear := findRun_clear fits (by simp) (by intro f low high; omega) found
    have positive : 0 < count := by omega
    have inside : start + count ≤ 64 * p.bitmap.length := by
      have last := clear (start + count - 1) (by omega) (by omega)
      have below := (mem_clearFrames.mp last).1
      omega
    have filled := fillRange_filled p.bitmap start count true inside
    constructor
    · exact Nat.mul_mod_left _ _
    · constructor <;> simp [filled.1]
    · rw [frameEq]
      exact filled
    · intro f member
      rw [rangeFrames, frameEq, Finset.mem_Ico] at member
      exact clear f member.1 member.2
    · rfl

/-- `Pmm::free` either returns frames that were all marked used, or changes
nothing. -/
theorem free_cases (p : Pmm) (phys count : Nat) (fits : p.totalFrames ≤ 64 * p.bitmap.length) :
    (p.free phys count).2 = p ∨
      (p.free phys count).1 = .ok () ∧
      SameLayout p (p.free phys count).2 ∧
      phys / pageSize + count ≤ p.totalFrames ∧
      Filled p.bitmap (p.free phys count).2.bitmap (phys / pageSize)
        (phys / pageSize + count) false ∧
      Disjoint (clearFrames p.bitmap) (rangeFrames phys count) ∧
      (p.free phys count).2.freeFrames = p.freeFrames + count := by
  unfold free
  split
  · exact .inl rfl
  · split
    · exact .inl rfl
    · simp only
      split
      · exact .inl rfl
      · split
        · exact .inl rfl
        · split
          · exact .inl rfl
          · rename_i used
            right
            have filled := fillRange_filled p.bitmap (phys / pageSize) count false (by omega)
            refine ⟨rfl, ?_, by omega, filled, ?_, rfl⟩
            · constructor <;> simp [filled.1]
            · apply Finset.disjoint_right.mpr
              intro f member clear
              apply used
              rw [rangeFrames, Finset.mem_Ico] at member
              apply List.any_eq_true.mpr
              refine ⟨f, List.mem_range'_1.mpr member, ?_⟩
              simp [(mem_clearFrames.mp clear).2]

theorem free_error {error : FreeError} (failed : (p.free phys count).1 = .error error) :
    (p.free phys count).2 = p := by
  unfold free at *
  split at failed <;> rename_i empty
  · simp at failed
  · rw [if_neg empty]
    split at failed <;> rename_i aligned
    · rw [if_pos aligned]
    · rw [if_neg aligned]
      simp only at *
      split at failed <;> rename_i wraps
      · rw [if_pos wraps]
      · rw [if_neg wraps]
        split at failed <;> rename_i outside
        · rw [if_pos outside]
        · rw [if_neg outside]
          split at failed <;> rename_i unused
          · rw [if_pos unused]
          · simp at failed

end Pmm

theorem allocContiguous_takes {p q : Pmm} {phys count : Nat}
    (words : p.bitmap.length = p.bitmapWords) (fits : p.totalFrames ≤ 64 * p.bitmap.length)
    (result : allocContiguous p count = some (phys, q)) : p.Takes q phys count := by
  unfold allocContiguous at result
  split at result
  · rename_i single
    subst single
    exact Pmm.allocOne_takes words result
  · exact Pmm.allocContiguousRun_takes fits result

end Eonos.Physical
