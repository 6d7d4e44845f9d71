import Eonos.Physical.Operations

/-!
# What the searches find

`alloc_one` starts at the hint and wraps, so it looks at every word.  The scan
of `alloc_contiguous` skips full words and counts clear bits; it stops at the
end of the lowest run that is long enough.
-/

namespace Eonos.Physical

open Bitmap

/-! ## One frame -/

/-- The search visits every word, so it finds a clear frame if there is one. -/
theorem Pmm.allocOneLoop_isSome {p : Pmm} {indices : List Nat} {n : Nat} (visited : n ∈ indices)
    (notFull : p.bitmap.word ((p.nextHint + n) % p.bitmapWords) ≠ BitVec.allOnes 64) :
    (p.allocOneLoop indices).isSome = true := by
  induction indices with
  | nil => exact absurd visited List.not_mem_nil
  | cons first rest induction =>
    rw [Pmm.allocOneLoop]
    split_ifs with here
    · rfl
    · rcases List.mem_cons.mp visited with rfl | later
      · exact absurd notFull here
      · exact induction later

theorem exists_visit {words w : Nat} (hint : Nat) (inside : w < words) :
    ∃ n < words, (hint + n) % words = w := by
  have bound := Nat.mod_lt hint (Nat.lt_of_le_of_lt (Nat.zero_le w) inside)
  have split := Nat.div_add_mod hint words
  rcases Nat.lt_or_ge w (hint % words) with below | above
  · refine ⟨words + w - hint % words, by omega, ?_⟩
    have sum : hint + (words + w - hint % words) = words * (hint / words) + (words + w) := by omega
    rw [sum, Nat.mul_add_mod, Nat.add_mod_left, Nat.mod_eq_of_lt inside]
  · refine ⟨w - hint % words, by omega, ?_⟩
    have sum : hint + (w - hint % words) = words * (hint / words) + w := by
      omega
    rw [sum, Nat.mul_add_mod, Nat.mod_eq_of_lt inside]

theorem word_not_full {bm : Bitmap} {f : Nat} (clear : bm.testBit f = false) :
    bm.word (f / 64) ≠ BitVec.allOnes 64 := by
  intro full
  have small : f % 64 < 64 := Nat.mod_lt _ (by decide)
  rw [Bitmap.testBit_eq_getLsbD, full, BitVec.getLsbD_allOnes] at clear
  simp [small] at clear

/-- One frame is refused exactly when none is clear, as long as the counter
is not below the number of clear frames. -/
theorem Pmm.allocOne_none_iff {p : Pmm} (words : p.bitmap.length = p.bitmapWords)
    (counter : (clearFrames p.bitmap).card ≤ p.freeFrames) :
    p.allocOne = none ↔ clearFrames p.bitmap = ∅ := by
  rw [allocOne]
  constructor
  · intro failed
    by_contra some
    obtain ⟨f, clear⟩ := Finset.nonempty_iff_ne_empty.mpr some
    have positive := Finset.card_pos.mpr ⟨f, clear⟩
    rw [if_neg (by omega), ← Option.not_isSome_iff_eq_none] at failed
    obtain ⟨inside, bit⟩ := mem_clearFrames.mp clear
    rw [words] at inside
    obtain ⟨n, visited, same⟩ := exists_visit p.nextHint (show f / 64 < p.bitmapWords by omega)
    refine failed (allocOneLoop_isSome (List.mem_range.mpr visited) ?_)
    rw [same]
    exact word_not_full bit
  · intro none
    by_contra granted
    obtain ⟨⟨phys, q⟩, result⟩ := Option.ne_none_iff_exists'.mp granted
    have first := (allocOne_takes words result).clear
      (Finset.mem_Ico.mpr ⟨Nat.le_refl _, Nat.lt_succ_self _⟩)
    rw [none] at first
    exact absurd first (Finset.notMem_empty _)

/-! ## A run of frames -/

/-- `count` clear frames from `start` on, below the end of memory. -/
structure FreeRun (p : Pmm) (start count : Nat) : Prop where
  inside : start + count ≤ p.totalFrames
  clear : ∀ f, start ≤ f → f < start + count → p.bitmap.testBit f = false

theorem testBit_of_full {bm : Bitmap} {frame f : Nat}
    (aligned : frame % 64 = 0) (full : bm.word (frame / 64) = BitVec.allOnes 64)
    (low : frame ≤ f) (high : f < frame + 64) : bm.testBit f = true := by
  by_contra clear
  refine word_not_full (Bool.eq_false_of_not_eq_true clear) ?_
  have same : f / 64 = frame / 64 := by omega
  rw [same, full]

section

variable {p : Pmm} {count fuel run start frame wanted : Nat}

/-- A run that starts at most `run` frames below a used frame, and is longer
than that, starts above it. -/
theorem FreeRun.above (free : FreeRun p wanted count) (short : run < count)
    (low : frame ≤ wanted + run) (used : p.bitmap.testBit frame = true) : frame < wanted := by
  by_contra below
  have clear := free.clear frame (by omega) (by omega)
  rw [used] at clear
  exact Bool.noConfusion clear

/-- The scan has seen `run` clear frames just below `frame`, and every run of
`count` frames reaches past them: it stops at or before any such run. -/
theorem findRun_lowest (free : FreeRun p wanted count) (enough : p.totalFrames ≤ frame + fuel)
    (short : run < count) (current : run ≠ 0 → start + run = frame) (low : frame ≤ wanted + run) :
    ∃ found, p.findRun count fuel run start frame = some found ∧ found ≤ wanted := by
  have within := free.inside
  induction fuel generalizing run start frame with
  | zero => omega
  | succ fuel induction =>
    have begun : (if run = 0 then frame else start) + run = frame := by
      by_cases fresh : run = 0
      · rw [if_pos fresh, fresh, Nat.add_zero]
      · rw [if_neg fresh]
        exact current fresh
    rw [Pmm.findRun, if_pos (by omega)]
    generalize (if run = 0 then frame else start) = first at *
    split_ifs with full used last
    · have past : frame + 64 ≤ wanted := by
        by_contra close
        have set := testBit_of_full full.1 full.2 (Nat.le_refl frame) (by omega)
        have after := free.above short low set
        have clear := free.clear wanted (Nat.le_refl _) (by omega)
        rw [testBit_of_full full.1 full.2 (by omega) (by omega)] at clear
        exact Bool.noConfusion clear
      exact induction (by omega) (by omega) (by simp) (by omega)
    · have after := free.above short low used
      exact induction (by omega) (by omega) (by simp) (by omega)
    · exact ⟨first, rfl, by omega⟩
    · exact induction (by omega) (by omega) (fun _ => by omega) (by omega)

end

/-- Clear frames all lie below the end of memory, and the counter is not below
their number. -/
structure Tally (p : Pmm) : Prop where
  words : p.bitmap.length = p.bitmapWords
  fits : p.totalFrames ≤ 64 * p.bitmap.length
  high : ∀ f, p.totalFrames ≤ f → f ∉ clearFrames p.bitmap
  counter : (clearFrames p.bitmap).card ≤ p.freeFrames

section

variable {p q : Pmm} {phys count start : Nat}

theorem FreeRun.subset (free : FreeRun p start count)
    (fits : p.totalFrames ≤ 64 * p.bitmap.length) :
    Finset.Ico start (start + count) ⊆ clearFrames p.bitmap := by
  intro f member
  obtain ⟨low, high⟩ := Finset.mem_Ico.mp member
  have inside := free.inside
  exact mem_clearFrames.mpr ⟨by omega, free.clear f low high⟩

theorem Pmm.Takes.freeRun (tally : Tally p) (positive : 0 < count)
    (takes : p.Takes q phys count) : FreeRun p (phys / pageSize) count := by
  constructor
  · by_contra beyond
    have last : phys / pageSize + count - 1 ∈ rangeFrames phys count :=
      Finset.mem_Ico.mpr ⟨by omega, by omega⟩
    exact tally.high _ (by omega) (takes.clear last)
  · intro f low high
    exact (mem_clearFrames.mp (takes.clear (Finset.mem_Ico.mpr ⟨low, high⟩))).2

/-- Where there is a run, the scan takes one at or below it. -/
theorem Tally.allocContiguousRun (tally : Tally p) (positive : 0 < count)
    (free : FreeRun p start count) :
    ∃ phys q, p.allocContiguousRun count = some (phys, q) ∧ phys / pageSize ≤ start := by
  have size := Finset.card_le_card (free.subset tally.fits)
  rw [Nat.card_Ico, Nat.add_sub_cancel_left] at size
  have counter := tally.counter
  obtain ⟨found, result, lowest⟩ :=
    @findRun_lowest p count p.totalFrames 0 0 0 start free
      (Nat.le_add_left _ _) positive (by simp) (Nat.zero_le _)
  refine ⟨found * pageSize, { p with
    bitmap := p.bitmap.fillRange found count true
    freeFrames := p.freeFrames - count }, ?_, ?_⟩
  · rw [Pmm.allocContiguousRun, if_neg (by omega), result]
    rfl
  · rwa [Nat.mul_div_cancel _ (by decide)]

end

end Eonos.Physical
