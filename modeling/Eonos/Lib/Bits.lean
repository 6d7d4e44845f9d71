import Mathlib

/-!
# Bit fields of machine words

Masking a word with a run of ones is arithmetic: what the mask keeps is a
remainder rounded down.
-/

namespace Eonos.Lib

variable {w : Nat}

/-- A mask whose ones are the bits from `low` up to `high`. -/
def IsField (mask : BitVec w) (low high : Nat) : Prop :=
  ∀ i, mask.getLsbD i = decide (low ≤ i ∧ i < high)

theorem toNat_and_field {mask : BitVec w} {low high : Nat} (field : IsField mask low high)
    (x : BitVec w) : (x &&& mask).toNat = x.toNat % 2 ^ high / 2 ^ low * 2 ^ low := by
  refine Nat.eq_of_testBit_eq ?_
  intro i
  rw [BitVec.testBit_toNat, BitVec.getLsbD_and, field i,
    Nat.testBit_mul_two_pow, Nat.testBit_div_two_pow, Nat.testBit_mod_two_pow]
  by_cases above : low ≤ i
  · simp only [above, true_and, decide_true, Bool.true_and,
      Nat.sub_add_cancel above, BitVec.testBit_toNat]
    exact Bool.and_comm _ _
  · simp [above]

theorem isField_of_forall {mask : BitVec w} {low high : Nat} (inside : high ≤ w)
    (bits : ∀ i : Fin w, mask.getLsbD i = decide (low ≤ i ∧ i < high)) : IsField mask low high := by
  intro i
  by_cases small : i < w
  · exact bits ⟨i, small⟩
  · have beyond : ¬ (low ≤ i ∧ i < high) := by omega
    simp [BitVec.getLsbD_of_ge mask i (by omega), beyond]

end Eonos.Lib
