import Eonos.Lib.Utf8

/-!
# ASCII characters

Their case, and their encoding: one byte each.
-/

namespace Eonos.Lib

theorem toNat_toLower (c : Char) :
    c.toLower.toNat = if 65 ≤ c.toNat ∧ c.toNat ≤ 90 then c.toNat + 32 else c.toNat := by
  unfold Char.toLower
  by_cases upper : 65 ≤ c.toNat ∧ c.toNat ≤ 90
  · have inside : c.val ≥ 'A'.val ∧ c.val ≤ 'Z'.val := upper
    have bound : c.val.toNat ≤ 90 := upper.2
    have shift : (32 : UInt32).toNat = 32 := rfl
    rw [dif_pos inside, if_pos upper]
    change (c.val + 32).toNat = c.val.toNat + 32
    rw [UInt32.toNat_add]
    omega
  · rw [if_neg upper, dif_neg]
    exact upper

theorem toNat_toUpper (c : Char) :
    c.toUpper.toNat = if 97 ≤ c.toNat ∧ c.toNat ≤ 122 then c.toNat - 32 else c.toNat := by
  unfold Char.toUpper
  by_cases lower : 97 ≤ c.toNat ∧ c.toNat ≤ 122
  · have inside : 'a'.val ≤ c.val ∧ c.val ≤ 'z'.val := lower
    have least : 97 ≤ c.val.toNat := lower.1
    have bound : c.val.toNat ≤ 122 := lower.2
    have shift : ('A'.val - 'a'.val).toNat = 2 ^ 32 - 32 := rfl
    rw [dif_pos inside, if_pos lower]
    change (c.val + ('A'.val - 'a'.val)).toNat = c.val.toNat - 32
    rw [UInt32.toNat_add]
    omega
  · rw [if_neg lower, dif_neg]
    exact lower

/-- Only letters have two cases. -/
theorem toLower_eq_of_not_letter {c d : Char} (other : d.toNat < 97)
    (same : c.toLower = d) : c = d := by
  have value := congrArg Char.toNat same
  rw [toNat_toLower] at value
  split at value
  · omega
  · rw [← Char.ofNat_toNat c, value, Char.ofNat_toNat]

/-- Every character is below 128. -/
def IsAscii (text : List Char) : Prop := ∀ c ∈ text, c.toNat < 128

theorem utf8Size_ascii {c : Char} (ascii : c.toNat < 128) : c.utf8Size = 1 := by
  rw [Char.utf8Size_eq_one_iff, UInt32.le_iff_toNat_le]
  have bound : (127 : UInt32).toNat = 127 := rfl
  have value : c.toNat = c.val.toNat := rfl
  omega

theorem utf8Bytes_ascii {text : List Char} (ascii : IsAscii text) :
    utf8Bytes text = text.map fun c => UInt8.ofNat c.toNat := by
  induction text with
  | nil => rfl
  | cons c text induction =>
    have small := ascii c List.mem_cons_self
    have value : c.val.toNat ≤ 127 := Nat.lt_succ_iff.mp small
    rw [utf8Bytes_cons, List.map_cons, induction fun d member =>
      ascii d (List.mem_cons_of_mem _ member)]
    unfold String.utf8EncodeChar
    rw [if_pos value]
    rfl

theorem length_utf8Bytes_ascii {text : List Char} (ascii : IsAscii text) :
    (utf8Bytes text).length = text.length := by
  rw [utf8Bytes_ascii ascii, List.length_map]

end Eonos.Lib
