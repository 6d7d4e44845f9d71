import Mathlib

/-!
# Cyclic redundancy checks

A register that is shifted right, and to which a reversed generator is added
when a one leaves it, holds the remainder of a division of polynomials over
GF(2).  Its lowest bit is the coefficient of the highest degree.
-/

namespace Eonos.Lib

open Polynomial

variable {w : Nat}

def bitCoeff (bit : Bool) : ZMod 2 := if bit then 1 else 0

/-- The polynomial over GF(2) whose coefficients are the bits of a word. -/
noncomputable def ofBits (c : BitVec w) : (ZMod 2)[X] :=
  ∑ j ∈ Finset.range w, C (bitCoeff (c.getLsbD j)) * X ^ j

theorem coeff_ofBits (c : BitVec w) (j : Nat) : (ofBits c).coeff j = bitCoeff (c.getLsbD j) := by
  simp only [ofBits, finsetSum_coeff, coeff_C_mul_X_pow, Finset.sum_ite_eq, Finset.mem_range]
  split
  · rfl
  · rename_i outside
    rw [BitVec.getLsbD_of_ge c j (Nat.le_of_not_lt outside)]
    rfl

theorem degree_ofBits_lt (c : BitVec w) : (ofBits c).degree < w := by
  rw [degree_lt_iff_coeff_zero]
  intro j outside
  rw [coeff_ofBits, BitVec.getLsbD_of_ge c j outside]
  rfl

/-- The bits of a word from its lowest one down in degree. -/
noncomputable def reflected (c : BitVec w) : (ZMod 2)[X] := ofBits c.reverse

theorem coeff_reflected (c : BitVec w) (j : Nat) :
    (reflected c).coeff j = bitCoeff (c.getMsbD j) := by
  rw [reflected, coeff_ofBits, BitVec.getLsbD_reverse]

theorem reflected_injective : Function.Injective (reflected (w := w)) := by
  intro a b same
  refine BitVec.eq_of_getMsbD_eq fun j _ => ?_
  have here := congrArg (fun p => coeff p j) same
  simp only [coeff_reflected] at here
  revert here
  cases a.getMsbD j <;> cases b.getMsbD j <;> decide

theorem reflected_xor (a b : BitVec w) : reflected (a ^^^ b) = reflected a + reflected b := by
  ext j
  rw [coeff_add, coeff_reflected, coeff_reflected, coeff_reflected, BitVec.getMsbD_xor]
  cases a.getMsbD j <;> cases b.getMsbD j <;> decide

/-- A byte at the bottom of a register has the high degrees. -/
theorem reflected_setWidth (b : BitVec 8) (wide : 8 ≤ w) :
    reflected (b.setWidth w) = X ^ (w - 8) * reflected b := by
  ext j
  rw [coeff_X_pow_mul', coeff_reflected, coeff_reflected, BitVec.getMsbD_setWidth]
  by_cases low : w - 8 ≤ j
  · rw [if_pos low, show j + 8 - w = j - (w - 8) by omega]
    simp [show w ≤ j + 8 by omega]
  · rw [if_neg low]
    simp [show ¬ w ≤ j + 8 by omega, bitCoeff]

/-- Shifting multiplies by `X`, but for the bit that is lost. -/
theorem reflected_shift (c : BitVec w) :
    X * reflected c = reflected (c >>> 1) + C (bitCoeff (c.getLsbD 0)) * X ^ w := by
  ext j
  rw [coeff_add, coeff_reflected, coeff_C_mul_X_pow, BitVec.getMsbD_ushiftRight]
  obtain _ | i := j
  · rw [mul_coeff_zero, coeff_X_zero, zero_mul]
    split
    · subst w
      simp [bitCoeff]
    · simp [bitCoeff]
  · rw [coeff_X_mul, coeff_reflected]
    simp only [BitVec.getMsbD_eq_getLsbD]
    by_cases last : i + 1 = w
    · simp [← last, bitCoeff]
    · have inside : i < w ↔ i + 1 < w := by omega
      simp [last, inside]

namespace Crc

variable (poly : BitVec w)

def step (c : BitVec w) : BitVec w :=
  (c >>> 1) ^^^ (if c.getLsbD 0 then poly else 0)

def feed (c : BitVec w) (byte : UInt8) : BitVec w :=
  (step poly)^[8] (c ^^^ byte.toBitVec.setWidth w)

noncomputable def generator : (ZMod 2)[X] := X ^ w + reflected poly

theorem generator_monic : (generator poly).Monic :=
  monic_X_pow_add (degree_ofBits_lt _)

theorem degree_generator : (generator poly).degree = w := by
  rw [generator, degree_add_eq_left_of_degree_lt]
  · exact degree_X_pow w
  · rw [degree_X_pow]
    exact degree_ofBits_lt _

/-! ### The register modulo the generator -/

/-- What a polynomial is modulo the generator. -/
noncomputable def residue : (ZMod 2)[X] →+* AdjoinRoot (generator poly) :=
  AdjoinRoot.mk (generator poly)

variable {poly}

theorem residue_eq_iff {p q : (ZMod 2)[X]} :
    residue poly p = residue poly q ↔ generator poly ∣ p - q :=
  AdjoinRoot.mk_eq_mk

theorem residue_step (c : BitVec w) :
    residue poly (reflected (step poly c)) = residue poly (X * reflected c) := by
  have added : reflected (if c.getLsbD 0 then poly else 0) =
      C (bitCoeff (c.getLsbD 0)) * reflected poly := by
    ext j
    rw [coeff_C_mul, coeff_reflected, coeff_reflected]
    cases c.getLsbD 0 <;> simp [bitCoeff]
  rw [step, reflected_xor, reflected_shift, added, residue_eq_iff,
    add_sub_add_left_eq_sub, ← mul_sub, CharTwo.sub_eq_add, add_comm]
  exact Dvd.intro_left _ rfl

theorem residue_steps (n : Nat) (c : BitVec w) :
    residue poly (reflected ((step poly)^[n] c)) = residue poly (X ^ n * reflected c) := by
  induction n with
  | zero => simp
  | succ n induction =>
    rw [Function.iterate_succ_apply', residue_step, map_mul, induction,
      ← map_mul, ← mul_assoc, pow_succ']

/-- The bits of a message, the lowest bit of the first byte leading. -/
noncomputable def message : List UInt8 → (ZMod 2)[X]
  | [] => 0
  | byte :: rest =>
    X ^ (8 * rest.length) * reflected byte.toBitVec + message rest

section

variable (wide : 8 ≤ w)
include wide

theorem residue_feed (c : BitVec w) (byte : UInt8) :
    residue poly (reflected (feed poly c byte)) =
      residue poly (X ^ 8 * reflected c + X ^ w * reflected byte.toBitVec) := by
  rw [feed, residue_steps, reflected_xor, reflected_setWidth _ wide,
    mul_add, ← mul_assoc, ← pow_add, Nat.add_sub_cancel' wide]

theorem residue_message (bytes : List UInt8) (c : BitVec w) :
    residue poly (reflected (bytes.foldl (feed poly) c)) =
      residue poly (X ^ (8 * bytes.length) * reflected c +
        X ^ w * message bytes) := by
  induction bytes generalizing c with
  | nil => simp [message]
  | cons byte rest induction =>
    rw [List.foldl_cons, induction, map_add, map_mul, residue_feed wide,
      ← map_mul, ← map_add, message, List.length_cons]
    congr 1
    ring

/-- The register after a message is a remainder. -/
theorem reflected_foldl_feed (bytes : List UInt8) (c : BitVec w) :
    reflected (bytes.foldl (feed poly) c) =
      (X ^ (8 * bytes.length) * reflected c + X ^ w * message bytes) %ₘ
        generator poly := by
  rw [← modByMonic_eq_of_dvd_sub (generator_monic poly)
    (residue_eq_iff.mp (residue_message wide bytes c))]
  refine ((modByMonic_eq_self_iff (generator_monic poly)).mpr ?_).symm
  rw [degree_generator]
  exact degree_ofBits_lt _

end

/-! ### Bursts -/

theorem message_append (a b : List UInt8) :
    message (a ++ b) = X ^ (8 * b.length) * message a + message b := by
  induction a with
  | nil => simp [message]
  | cons byte rest induction =>
    rw [List.cons_append, message, message, induction, List.length_append]
    ring

theorem coeff_message_high (bytes : List UInt8) {j : Nat}
    (high : 8 * bytes.length ≤ j) : (message bytes).coeff j = 0 := by
  induction bytes with
  | nil => exact coeff_zero j
  | cons byte rest induction =>
    rw [List.length_cons] at high
    rw [message, coeff_add, induction (by omega), coeff_X_pow_mul',
      if_pos (by omega), coeff_reflected, BitVec.getMsbD_of_ge _ _ (by omega)]
    rfl

theorem message_inj {a b : List UInt8} (even : a.length = b.length)
    (same : message a = message b) : a = b := by
  induction a generalizing b with
  | nil => exact (List.eq_nil_of_length_eq_zero even.symm).symm
  | cons byte rest induction =>
    obtain _ | ⟨other, others⟩ := b
    · cases even
    · have lengths : rest.length = others.length := Nat.succ.inj even
      have bits : byte.toBitVec = other.toBitVec := by
        refine reflected_injective (Polynomial.ext fun j => ?_)
        have here := congrArg (fun p => coeff p (j + 8 * rest.length)) same
        simp only [message, coeff_add, coeff_X_pow_mul, ← lengths] at here
        rwa [coeff_message_high rest (by omega),
          coeff_message_high others (by omega), add_zero, add_zero] at here
      rw [message, message, bits, lengths, add_right_inj] at same
      rw [induction lengths same, UInt8.toBitVec_inj.mp bits]

/-- No power of `X` hides a factor of a generator with a constant term. -/
theorem residue_X_pow_mul {p q : (ZMod 2)[X]} (n : Nat) (constant : (generator poly).coeff 0 ≠ 0)
    (same : residue poly (X ^ n * p) = residue poly (X ^ n * q)) :
    residue poly p = residue poly q := by
  rw [residue_eq_iff, ← mul_sub] at same
  rw [residue_eq_iff]
  have coprime : IsCoprime (generator poly) (X ^ n) :=
    ((irreducible_X.coprime_iff_not_dvd.mpr (X_dvd_iff.not.mpr constant)).symm).pow_right
  exact coprime.dvd_of_dvd_mul_left same

/-- Messages that differ only inside a window no wider than the register leave
different registers behind. -/
theorem foldl_feed_window (wide : 8 ≤ w) (c : BitVec w)
    (constant : (generator poly).coeff 0 ≠ 0) (before after : List UInt8)
    {a b : List UInt8} (even : a.length = b.length) (short : 8 * a.length ≤ w)
    (same : (before ++ (a ++ after)).foldl (feed poly) c =
      (before ++ (b ++ after)).foldl (feed poly) c) : a = b := by
  have registers := congrArg (fun c => residue poly (reflected c)) same
  simp only [residue_message wide, message_append, List.length_append, even,
    map_add, map_mul, mul_add, add_right_inj, add_left_inj] at registers
  simp only [← map_mul, ← mul_assoc, ← pow_add] at registers
  have windows := residue_eq_iff.mp (residue_X_pow_mul _ constant registers)
  refine message_inj even (sub_eq_zero.mp ?_)
  by_contra nonzero
  refine (generator_monic poly).not_dvd_of_degree_lt nonzero ?_ windows
  rw [degree_generator, degree_lt_iff_coeff_zero]
  intro j high
  rw [coeff_sub, coeff_message_high a (by omega), coeff_message_high b (by omega), sub_zero]

end Crc

end Eonos.Lib
