import Eonos.Lib.Crc

/-!
# The checksum of GPT headers

`crc32` of the partition scanner, bit by bit as the source computes it, is the
CRC-32 of polynomial division, and it tells apart any two texts that differ
inside four consecutive bytes only.
-/

namespace Eonos.Partition

open Eonos.Lib Polynomial

/-- One turn of the inner loop: the mask is all ones or zero. -/
def crcBit (crc : BitVec 32) : BitVec 32 :=
  (crc >>> 1) ^^^ (0xedb88320#32 &&& (0#32 - (crc &&& 1#32)))

def crc32 (bytes : List UInt8) : BitVec 32 :=
  ~~~bytes.foldl
    (fun crc byte => crcBit^[8] (crc ^^^ byte.toBitVec.setWidth 32)) (~~~0#32)

theorem crcBit_eq_step : crcBit = Crc.step 0xedb88320#32 := by
  funext crc
  rw [crcBit, Crc.step, BitVec.and_one_eq_setWidth_ofBool_getLsbD]
  cases crc.getLsbD 0 <;> rfl

theorem crc32_eq_feed (bytes : List UInt8) :
    crc32 bytes = ~~~bytes.foldl (Crc.feed 0xedb88320#32) (~~~0#32) := by
  rw [crc32, crcBit_eq_step]
  rfl

/-- The source's constant is the usual generator with its bits reversed. -/
theorem generator_eq : Crc.generator 0xedb88320#32 = X ^ 32 + ofBits 0x04c11db7#32 := by
  rw [Crc.generator, reflected, show (0xedb88320#32).reverse = 0x04c11db7#32 by decide +kernel]

theorem reflected_allOnes : reflected (BitVec.allOnes 32) = ofBits (BitVec.allOnes 32) :=
  congrArg ofBits (by decide +kernel)

theorem reflected_not (c : BitVec 32) :
    reflected (~~~c) = reflected c + ofBits (BitVec.allOnes 32) := by
  rw [← BitVec.xor_allOnes, reflected_xor, reflected_allOnes]

/-- Two texts that differ in a window only are equal around it. -/
theorem drop_eq_of_window {a b : List UInt8} {first count : Nat}
    (window : ∀ i, a[i]? ≠ b[i]? → first ≤ i ∧ i < first + count) :
    a.take first = b.take first ∧ a.drop (first + count) = b.drop (first + count) := by
  constructor
  · refine List.ext_getElem? fun i => ?_
    rw [List.getElem?_take, List.getElem?_take]
    split
    · rename_i before
      by_contra differ
      exact absurd (window i differ).1 (Nat.not_le.mpr before)
    · rfl
  · refine List.ext_getElem? fun i => ?_
    rw [List.getElem?_drop, List.getElem?_drop]
    by_contra differ
    exact absurd (window _ differ).2 (by omega)

theorem split_window (a : List UInt8) (first count : Nat) :
    a.take first ++ ((a.drop first).take count ++ a.drop (first + count)) = a := by
  rw [← List.drop_drop, List.take_append_drop, List.take_append_drop]

/-- Texts of one length that differ, but only inside four consecutive bytes,
have different checksums; and the checksum is the reflected CRC-32: the
remainder by `0x04c11db7`, from all ones and with all ones added. -/
theorem crc32_divides :
    (∀ a b : List UInt8, a.length = b.length → a ≠ b →
      (∃ first, ∀ i, a[i]? ≠ b[i]? → first ≤ i ∧ i < first + 4) →
      crc32 a ≠ crc32 b) ∧
    ∀ bytes : List UInt8,
      reflected (crc32 bytes) =
        (X ^ (8 * bytes.length) * ofBits (BitVec.allOnes 32) +
            X ^ 32 * Crc.message bytes) %ₘ (X ^ 32 + ofBits 0x04c11db7#32) +
          ofBits (BitVec.allOnes 32) := by
  constructor
  · rintro a b even differ ⟨first, window⟩ same
    obtain ⟨before, after⟩ := drop_eq_of_window window
    rw [crc32_eq_feed, crc32_eq_feed, BitVec.not_inj,
      ← split_window a first 4, ← split_window b first 4, before, after] at same
    have windows := Crc.foldl_feed_window (by decide) _ ?_ _ _ ?_ ?_ same
    · refine differ ?_
      rw [← split_window a first 4, ← split_window b first 4, before, after, windows]
    · rw [generator_eq, coeff_add, coeff_X_pow, coeff_ofBits]
      decide
    · simp [even]
    · simp
      omega
  · intro bytes
    rw [crc32_eq_feed, reflected_not, Crc.reflected_foldl_feed (by decide),
      generator_eq, BitVec.not_zero, reflected_allOnes]

/-- One flipped bit. -/
theorem crc32_flipped :
    [0x45, 0x46].length = [0x45, 0x47].length ∧ crc32 [0x45, 0x46] ≠ crc32 [0x45, 0x47] :=
  ⟨rfl, crc32_divides.1 _ _ rfl (by decide) ⟨0, fun i differ => by
    refine ⟨Nat.zero_le i, ?_⟩
    by_contra high
    rw [List.getElem?_eq_none (by simp; omega),
      List.getElem?_eq_none (by simp; omega)] at differ
    exact differ rfl⟩⟩

end Eonos.Partition
