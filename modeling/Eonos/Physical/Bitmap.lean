import Mathlib

/-!
# The frame bitmap

The allocator keeps one bit per physical frame in an array of 64-bit words; a
set bit marks a frame that is not available.  `fillRange` updates a whole range
through three loops: single bits up to a word boundary, whole words, and single
bits again.  The specification below says that the detour through words is
invisible: exactly the bits of the range take the requested value.
-/

namespace Eonos.Physical

/-- The words behind the `bitmap` pointer. -/
abbrev Bitmap := List (BitVec 64)

namespace Bitmap

def word (bm : Bitmap) (w : Nat) : BitVec 64 :=
  bm.getD w 0

def testBit (bm : Bitmap) (i : Nat) : Bool :=
  bm.word (i / 64) &&& (1#64 <<< (i % 64)) != 0#64

def setBit (bm : Bitmap) (i : Nat) : Bitmap :=
  bm.set (i / 64) (bm.word (i / 64) ||| 1#64 <<< (i % 64))

def clearBit (bm : Bitmap) (i : Nat) : Bitmap :=
  bm.set (i / 64) (bm.word (i / 64) &&& ~~~(1#64 <<< (i % 64)))

/-- The body shared by the first and the last loop of `fill_range`. -/
def putBit (bm : Bitmap) (i : Nat) (used : Bool) : Bitmap :=
  if used then bm.setBit i else bm.clearBit i

/-- First loop: bit by bit until `first` reaches a word boundary. -/
def fillHead (bm : Bitmap) (first : Nat) (used : Bool) :
    Nat → Bitmap × Nat × Nat
  | 0 => (bm, first, 0)
  | count + 1 =>
    if first % 64 ≠ 0 then
      fillHead (bm.putBit first used) (first + 1) used count
    else (bm, first, count + 1)

/-- Second loop: whole words while at least 64 bits remain.  Every pass takes
64 from `count`, so `count` itself is enough fuel. -/
def fillWords (used : Bool) :
    Nat → Bitmap → Nat → Nat → Bitmap × Nat × Nat
  | 0, bm, first, count => (bm, first, count)
  | fuel + 1, bm, first, count =>
    if 64 ≤ count then
      fillWords used fuel
        (bm.set (first / 64) (if used then BitVec.allOnes 64 else 0#64))
        (first + 64) (count - 64)
    else (bm, first, count)

/-- Third loop: the bits that are left over. -/
def fillTail (bm : Bitmap) (first : Nat) (used : Bool) : Nat → Bitmap
  | 0 => bm
  | count + 1 => fillTail (bm.putBit first used) (first + 1) used count

def fillRange (bm : Bitmap) (first count : Nat) (used : Bool) : Bitmap :=
  let (bm, first, count) := bm.fillHead first used count
  let (bm, first, count) := fillWords used count bm first count
  bm.fillTail first used count

theorem testBit_eq_getLsbD (bm : Bitmap) (i : Nat) :
    bm.testBit i = (bm.word (i / 64)).getLsbD (i % 64) := by
  have small : i % 64 < 64 := Nat.mod_lt _ (by decide)
  unfold testBit
  rw [← BitVec.twoPow_eq, BitVec.and_twoPow]
  cases set : (bm.word (i / 64)).getLsbD (i % 64) with
  | false => simp
  | true =>
    have nonzero : BitVec.twoPow 64 (i % 64) ≠ 0#64 := by
      intro zero
      have bit := congrArg (fun word => BitVec.getLsbD word (i % 64)) zero
      simp [small] at bit
    simpa using nonzero

@[simp] theorem word_set (bm : Bitmap) (w v : Nat) (value : BitVec 64) :
    word (bm.set w value) v = if w = v ∧ v < bm.length then value else bm.word v := by
  unfold word
  rw [List.getD_eq_getElem?_getD, List.getElem?_set, List.getD_eq_getElem?_getD]
  by_cases same : w = v
  · subst v
    by_cases inside : w < bm.length <;> simp [inside]
  · simp [same]

/-- Both single-bit updates rewrite one bit of the addressed word. -/
private theorem putBit_eq_set (bm : Bitmap) (i : Nat) (used : Bool) :
    ∃ value, bm.putBit i used = bm.set (i / 64) value ∧
      ∀ k, k < 64 →
        value.getLsbD k =
          if k = i % 64 then used else (bm.word (i / 64)).getLsbD k := by
  cases used with
  | false =>
    refine ⟨_, rfl, ?_⟩
    intro k small
    rw [← BitVec.twoPow_eq]
    by_cases same : k = i % 64
    · subst k
      simp
    · simp [small, same]
  | true =>
    refine ⟨_, rfl, ?_⟩
    intro k small
    rw [← BitVec.twoPow_eq]
    by_cases same : k = i % 64
    · subst k
      simp [small]
    · simp [same, Ne.symm same]

@[simp] theorem length_putBit (bm : Bitmap) (i : Nat) (used : Bool) :
    (bm.putBit i used).length = bm.length := by
  cases used <;> simp [putBit, setBit, clearBit]

theorem testBit_putBit (bm : Bitmap) (i j : Nat) (used : Bool) (inside : i < 64 * bm.length) :
    (bm.putBit i used).testBit j = if j = i then used else bm.testBit j := by
  obtain ⟨value, update, bits⟩ := putBit_eq_set bm i used
  rw [testBit_eq_getLsbD, testBit_eq_getLsbD, update, word_set]
  by_cases sameWord : i / 64 = j / 64
  · rw [if_pos ⟨sameWord, by omega⟩, bits _ (Nat.mod_lt _ (by decide)), sameWord]
    have sameBit : j % 64 = i % 64 ↔ j = i := by omega
    simp only [sameBit]
  · have different : j ≠ i := by
      intro same
      exact sameWord (same ▸ rfl)
    rw [if_neg (fun both => sameWord both.1), if_neg different]

/-! ## The three loops -/

/-- What each loop of `fill_range` maintains: the bits already passed carry
`used`, every other bit is the one of the bitmap the loop started from. -/
def Filled (before after : Bitmap) (first finish : Nat) (used : Bool) : Prop :=
  after.length = before.length ∧
    ∀ j, after.testBit j =
      if first ≤ j ∧ j < finish then used else before.testBit j

theorem Filled.refl (bm : Bitmap) (first : Nat) (used : Bool) : Filled bm bm first first used := by
  refine ⟨rfl, fun j => ?_⟩
  rw [if_neg (by omega)]

theorem Filled.trans {before middle after : Bitmap} {first split finish : Nat} {used : Bool}
    (ordered : first ≤ split ∧ split ≤ finish) (left : Filled before middle first split used)
    (right : Filled middle after split finish used) : Filled before after first finish used := by
  refine ⟨right.1.trans left.1, fun j => ?_⟩
  rw [right.2, left.2]
  by_cases low : first ≤ j ∧ j < split
  · rw [if_pos low, if_neg (by omega), if_pos (by omega)]
  · by_cases high : split ≤ j ∧ j < finish
    · rw [if_pos high, if_pos (by omega)]
    · rw [if_neg high, if_neg low, if_neg (by omega)]

theorem filled_putBit (bm : Bitmap) (first : Nat) (used : Bool) (inside : first < 64 * bm.length) :
    Filled bm (bm.putBit first used) first (first + 1) used := by
  refine ⟨by simp, fun j => ?_⟩
  rw [testBit_putBit bm first j used inside]
  have single : first ≤ j ∧ j < first + 1 ↔ j = first := by omega
  simp only [single]

theorem filled_word (bm : Bitmap) (first : Nat) (used : Bool)
    (aligned : first % 64 = 0) (inside : first < 64 * bm.length) :
    Filled bm
      (bm.set (first / 64) (if used then BitVec.allOnes 64 else 0#64))
      first (first + 64) used := by
  refine ⟨by simp, fun j => ?_⟩
  have small : j % 64 < 64 := Nat.mod_lt _ (by decide)
  rw [testBit_eq_getLsbD, testBit_eq_getLsbD, word_set]
  by_cases sameWord : first / 64 = j / 64
  · have covered : first ≤ j ∧ j < first + 64 := by omega
    rw [if_pos ⟨sameWord, by omega⟩, if_pos covered]
    cases used with
    | false => simp
    | true =>
      rw [if_pos rfl, BitVec.getLsbD_allOnes]
      exact decide_eq_true small
  · have outside : ¬ (first ≤ j ∧ j < first + 64) := by omega
    rw [if_neg (fun both => sameWord both.1), if_neg outside]

theorem fillHead_spec (bm : Bitmap) (first count : Nat) (used : Bool)
    (inside : first + count ≤ 64 * bm.length) :
    ∃ after passed, passed ≤ count ∧
      bm.fillHead first used count = (after, first + passed, count - passed) ∧
      ((first + passed) % 64 = 0 ∨ passed = count) ∧
      Filled bm after first (first + passed) used := by
  induction count generalizing bm first with
  | zero =>
    exact ⟨bm, 0, Nat.le_refl _, rfl, .inr rfl, .refl bm first used⟩
  | succ count induction =>
    by_cases boundary : first % 64 = 0
    · exact ⟨bm, 0, Nat.zero_le _, by simp [fillHead, boundary],
        .inl (by simpa using boundary), .refl bm first used⟩
    · obtain ⟨after, passed, bound, result, stop, filled⟩ :=
        induction (bm.putBit first used) (first + 1) (by rw [length_putBit]; omega)
      refine ⟨after, passed + 1, by omega, ?_, ?_, ?_⟩
      · rw [fillHead, if_pos boundary, result]
        congr 2 <;> omega
      · rcases stop with aligned | exhausted
        · left
          rw [← aligned]
          congr 1
          omega
        · right
          omega
      · have step := filled_putBit bm first used (by omega)
        have whole := step.trans ⟨by omega, by omega⟩ filled
        rwa [Nat.add_assoc, Nat.add_comm 1 passed] at whole

theorem fillWords_spec (used : Bool) (fuel : Nat) (bm : Bitmap) (first count : Nat)
    (enough : count ≤ 64 * fuel) (aligned : first % 64 = 0 ∨ count = 0)
    (inside : first + count ≤ 64 * bm.length) :
    ∃ after passed, passed ≤ count ∧
      fillWords used fuel bm first count =
        (after, first + passed, count - passed) ∧
      Filled bm after first (first + passed) used := by
  induction fuel generalizing bm first count with
  | zero =>
    exact ⟨bm, 0, Nat.zero_le _, rfl, .refl bm first used⟩
  | succ fuel induction =>
    by_cases full : 64 ≤ count
    · have boundary : first % 64 = 0 := by omega
      obtain ⟨after, passed, bound, result, filled⟩ :=
        induction (bm.set (first / 64) (if used then BitVec.allOnes 64 else 0#64)) (first + 64)
          (count - 64) (by omega) (by omega) (by rw [List.length_set]; omega)
      refine ⟨after, passed + 64, by omega, ?_, ?_⟩
      · rw [fillWords, if_pos full, result]
        congr 2 <;> omega
      · have step := filled_word bm first used boundary (by omega)
        have whole := step.trans ⟨by omega, by omega⟩ filled
        rwa [Nat.add_assoc, Nat.add_comm 64 passed] at whole
    · exact ⟨bm, 0, Nat.zero_le _, by rw [fillWords, if_neg full]; rfl, .refl bm first used⟩

theorem fillTail_spec (bm : Bitmap) (first count : Nat) (used : Bool)
    (inside : first + count ≤ 64 * bm.length) :
    Filled bm (bm.fillTail first used count) first (first + count) used := by
  induction count generalizing bm first with
  | zero => exact .refl bm first used
  | succ count induction =>
    have step := filled_putBit bm first used (by omega)
    have rest := induction (bm.putBit first used) (first + 1) (by rw [length_putBit]; omega)
    have whole := step.trans ⟨by omega, by omega⟩ rest
    rwa [Nat.add_assoc, Nat.add_comm 1 count] at whole

theorem fillRange_filled (bm : Bitmap) (first count : Nat) (used : Bool)
    (inside : first + count ≤ 64 * bm.length) :
    Filled bm (bm.fillRange first count used) first (first + count) used := by
  obtain ⟨head, passed, headBound, headResult, headStop, headFilled⟩ :=
    fillHead_spec bm first count used inside
  obtain ⟨words, covered, wordsBound, wordsResult, wordsFilled⟩ :=
    fillWords_spec used (count - passed) head (first + passed)
      (count - passed) (by omega) (by omega)
      (by rw [headFilled.1]; omega)
  have tailFilled := fillTail_spec words (first + passed + covered) (count - passed - covered) used
    (by rw [wordsFilled.1, headFilled.1]; omega)
  have throughWords := headFilled.trans ⟨by omega, by omega⟩ wordsFilled
  have whole := throughWords.trans ⟨by omega, by omega⟩ tailFilled
  have result : bm.fillRange first count used =
      words.fillTail (first + passed + covered) used
        (count - passed - covered) := by
    simp only [fillRange, headResult, wordsResult]
  have finish : first + passed + covered + (count - passed - covered) =
      first + count := by omega
  rw [result, ← finish]
  exact whole

theorem testBit_fillRange (bm : Bitmap) (first count j : Nat) (used : Bool)
    (inside : first + count ≤ 64 * bm.length) :
    (bm.fillRange first count used).testBit j =
      if first ≤ j ∧ j < first + count then used else bm.testBit j :=
  (fillRange_filled bm first count used inside).2 j

/-! ## Filling bit by bit -/

theorem testBit_word (bm : Bitmap) (w : Nat) {k : Nat} (small : k < 64) :
    bm.testBit (64 * w + k) = (bm.word w).getLsbD k := by
  rw [testBit_eq_getLsbD, Nat.mul_add_div (by decide), Nat.div_eq_of_lt small,
    Nat.add_zero, Nat.mul_add_mod, Nat.mod_eq_of_lt small]

theorem Filled.unique {before one other : Bitmap} {first finish : Nat}
    {used : Bool} (left : Filled before one first finish used)
    (right : Filled before other first finish used) : one = other := by
  refine List.ext_getElem (left.1.trans right.1.symm) ?_
  intro w inOne inOther
  refine BitVec.eq_of_getLsbD_eq fun k small => ?_
  have same : one.testBit (64 * w + k) = other.testBit (64 * w + k) :=
    (left.2 _).trans (right.2 _).symm
  rwa [testBit_word _ _ small, testBit_word _ _ small, word, word, List.getD_eq_getElem _ _ inOne,
    List.getD_eq_getElem _ _ inOther] at same

theorem fillTail_eq_foldl (bm : Bitmap) (first count : Nat) (used : Bool) :
    bm.fillTail first used count =
      (List.range' first count).foldl (fun bm i => bm.putBit i used) bm := by
  induction count generalizing bm first with
  | zero => rfl
  | succ count induction => exact induction _ _

/-- `fill_range` does what setting or clearing the bits of the range one by one
does: they all become `used`, and every other bit of every word stays. -/
theorem fillRange_bit_by_bit (bm : Bitmap) (first count : Nat) (used : Bool)
    (inside : first + count ≤ 64 * bm.length) :
    bm.fillRange first count used =
        (List.range' first count).foldl (fun bm i => bm.putBit i used) bm ∧
      (bm.fillRange first count used).length = bm.length ∧
      (∀ i, first ≤ i → i < first + count →
        (bm.fillRange first count used).testBit i = used) ∧
      ∀ w k, k < 64 → ¬ (first ≤ 64 * w + k ∧ 64 * w + k < first + count) →
        ((bm.fillRange first count used).word w).getLsbD k =
          (bm.word w).getLsbD k := by
  have filled := fillRange_filled bm first count used inside
  refine ⟨?_, filled.1, ?_, ?_⟩
  · rw [← fillTail_eq_foldl]
    exact filled.unique (fillTail_spec bm first count used inside)
  · intro i low high
    rw [filled.2, if_pos ⟨low, high⟩]
  · intro w k small outside
    have same := filled.2 (64 * w + k)
    rwa [if_neg outside, testBit_word _ _ small, testBit_word _ _ small] at same

/-- A range that starts and ends inside words. -/
theorem fillRange_three_words :
    60 + 100 ≤ 64 * [0#64, 0#64, 0#64].length ∧
      (fillRange [0#64, 0#64, 0#64] 60 100 true).testBit 159 = true :=
  ⟨by decide, (fillRange_bit_by_bit [0#64, 0#64, 0#64] 60 100 true
    (by decide)).2.2.1 159 (by decide) (by decide)⟩

end Bitmap

end Eonos.Physical
