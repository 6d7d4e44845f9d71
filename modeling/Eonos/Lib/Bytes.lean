import Mathlib

/-!
# Arrays of bytes

Byte arrays of a fixed length, the little-endian words in them, and writing a
run of bytes over a part of one.
-/

namespace Eonos.Lib

/-- `[u8; n]`. -/
abbrev Bytes (n : Nat) := Fin n → UInt8

/-- The `count` low bytes of a number, the lowest first. -/
def leBytes : Nat → Nat → List UInt8
  | 0, _ => []
  | count + 1, value => UInt8.ofNat value :: leBytes count (value / 256)

@[simp]
theorem length_leBytes (count value : Nat) : (leBytes count value).length = count := by
  induction count generalizing value with
  | zero => rfl
  | succ count induction => rw [leBytes, List.length_cons, induction]

/-- A little-endian number. -/
def leValue : List UInt8 → Nat
  | [] => 0
  | byte :: rest => byte.toNat + 256 * leValue rest

theorem leValue_lt (bytes : List UInt8) : leValue bytes < 256 ^ bytes.length := by
  induction bytes with
  | nil => decide
  | cons byte rest induction =>
    have small := byte.toNat_lt
    rw [leValue, List.length_cons, Nat.pow_succ]
    omega

/-- The number in so many bytes from an offset on. -/
def field (bytes : List UInt8) (offset width : Nat) : Nat :=
  leValue ((bytes.drop offset).take width)

theorem field_lt (bytes : List UInt8) (offset width : Nat) :
    field bytes offset width < 256 ^ width := by
  refine (leValue_lt _).trans_le (Nat.pow_le_pow_right (by decide) ?_)
  rw [List.length_take]
  exact Nat.min_le_left _ _

/-- The same number, if the bytes are inside. -/
def readLe (bytes : List UInt8) (offset width : Nat) : Option Nat :=
  if offset + width ≤ bytes.length then some (field bytes offset width) else none

theorem readLe_inside {bytes : List UInt8} {offset width : Nat}
    (inside : offset + width ≤ bytes.length) :
    readLe bytes offset width = some (field bytes offset width) := if_pos inside

namespace Bytes

variable {n : Nat}

def u16le (b : Bytes n) (pos : Nat) (inside : pos + 1 < n) : Nat :=
  (b ⟨pos, by omega⟩).toNat + 2 ^ 8 * (b ⟨pos + 1, inside⟩).toNat

def u32le (b : Bytes n) (pos : Nat) (inside : pos + 3 < n) : Nat :=
  b.u16le pos (by omega) + 2 ^ 16 * b.u16le (pos + 2) inside

theorem u16le_lt (b : Bytes n) {pos : Nat} (inside : pos + 1 < n) :
    b.u16le pos inside < 2 ^ 16 := by
  have low := (b ⟨pos, by omega⟩).toNat_lt
  have high := (b ⟨pos + 1, inside⟩).toNat_lt
  unfold u16le
  omega

theorem u32le_lt (b : Bytes n) {pos : Nat} (inside : pos + 3 < n) :
    b.u32le pos inside < 2 ^ 32 := by
  have low := b.u16le_lt (show pos + 1 < n by omega)
  have high := b.u16le_lt inside
  unfold u32le
  omega

/-- The bytes from `pos` on overwritten. -/
def splice (b : Bytes n) (pos : Nat) (bytes : List UInt8) (_ : pos + bytes.length ≤ n) : Bytes n :=
  fun i =>
    if pos ≤ i.val ∧ i.val < pos + bytes.length then
      bytes.getD (i.val - pos) 0
    else b i

/-- `b[pos..pos + bytes.len()].copy_from_slice(bytes)`; `none` is the panic. -/
def copyFrom (b : Bytes n) (pos : Nat) (bytes : List UInt8) : Option (Bytes n) :=
  if inside : pos + bytes.length ≤ n then some (b.splice pos bytes inside)
  else none

/-! ### Reading after writing -/

variable {b : Bytes n} {pos at_ : Nat} {bytes : List UInt8}

theorem splice_inside (fits : pos + bytes.length ≤ n) {i : Fin n} (low : pos ≤ i.val)
    (high : i.val < pos + bytes.length) : b.splice pos bytes fits i = bytes.getD (i.val - pos) 0 :=
  if_pos ⟨low, high⟩

theorem splice_outside (fits : pos + bytes.length ≤ n) {i : Fin n}
    (out : i.val < pos ∨ pos + bytes.length ≤ i.val) : b.splice pos bytes fits i = b i :=
  if_neg (by omega)

theorem copyFrom_eq (fits : pos + bytes.length ≤ n) :
    b.copyFrom pos bytes = some (b.splice pos bytes fits) := dif_pos fits

/-- Writing one run behind another is writing both. -/
theorem splice_append {one two : List UInt8} (first : pos + one.length ≤ n)
    (second : at_ + two.length ≤ n) (next : at_ = pos + one.length)
    (whole : pos + (one ++ two).length ≤ n) :
    (b.splice pos one first).splice at_ two second = b.splice pos (one ++ two) whole := by
  subst next
  funext i
  rw [List.length_append] at whole
  unfold splice
  rw [List.length_append]
  by_cases inTwo : pos + one.length ≤ i.val ∧ i.val < pos + one.length + two.length
  · rw [if_pos inTwo, if_pos (by omega), List.getD_append_right _ _ _ _ (by omega)]
    congr 1
    omega
  · rw [if_neg inTwo]
    by_cases inOne : pos ≤ i.val ∧ i.val < pos + one.length
    · rw [if_pos inOne, if_pos (by omega), List.getD_append _ _ _ _ (by omega)]
    · rw [if_neg inOne, if_neg (by omega)]

theorem u16le_splice_apart (fits : pos + bytes.length ≤ n) (inside : at_ + 1 < n)
    (apart : at_ + 1 < pos ∨ pos + bytes.length ≤ at_) :
    (b.splice pos bytes fits).u16le at_ inside = b.u16le at_ inside := by
  unfold u16le
  rw [splice_outside fits (by simp only; omega), splice_outside fits (by simp only; omega)]

theorem u32le_splice_apart (fits : pos + bytes.length ≤ n) (inside : at_ + 3 < n)
    (apart : at_ + 3 < pos ∨ pos + bytes.length ≤ at_) :
    (b.splice pos bytes fits).u32le at_ inside = b.u32le at_ inside := by
  unfold u32le
  rw [u16le_splice_apart fits _ (by omega), u16le_splice_apart fits _ (by omega)]

theorem u32le_splice_self {value : Nat} (fits : pos + (leBytes 4 value).length ≤ n)
    (inside : pos + 3 < n) :
    (b.splice pos (leBytes 4 value) fits).u32le pos inside = value % 2 ^ 32 := by
  unfold u32le u16le
  rw [splice_inside fits (by simp only; omega) (by rw [length_leBytes]; simp only; omega),
      splice_inside fits (by simp only; omega) (by rw [length_leBytes]; simp only; omega),
      splice_inside fits (by simp only; omega) (by rw [length_leBytes]; simp only; omega),
      splice_inside fits (by simp only; omega) (by rw [length_leBytes]; simp only; omega)]
  have two : pos + 2 + 1 - pos = 3 := by omega
  simp only [Nat.sub_self, Nat.add_sub_cancel_left, two, leBytes, List.getD_cons_zero,
    List.getD_cons_succ, UInt8.toNat_ofNat', Nat.div_div_eq_div_mul]
  omega

end Bytes

end Eonos.Lib
