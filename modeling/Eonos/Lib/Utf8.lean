import Mathlib

/-!
# Lossy UTF-8 decoding

`String::from_utf8_lossy` of the standard library: well-formed sequences are
decoded, and every maximal ill-formed piece becomes one replacement character.
On the encoding of a text the decoder gives the text back.
-/

namespace Eonos.Lib

/-- The UTF-8 bytes of a text. -/
def utf8Bytes (text : List Char) : List UInt8 :=
  text.flatMap String.utf8EncodeChar

/-- The second bytes a leading byte of a three or four byte sequence accepts.
Overlong forms, surrogates and values past `U+10FFFF` are excluded here. -/
def secondFits (first second : UInt8) : Bool :=
  if first = 0xE0 then 0xA0 ≤ second && second ≤ 0xBF
  else if first = 0xED then 0x80 ≤ second && second ≤ 0x9F
  else if first = 0xF0 then 0x90 ≤ second && second ≤ 0xBF
  else if first = 0xF4 then 0x80 ≤ second && second ≤ 0x8F
  else 0x80 ≤ second && second ≤ 0xBF

/-- How many bytes one replacement character stands for, when no well-formed
sequence starts here. -/
def brokenLength : List UInt8 → Nat
  | first :: second :: rest =>
    if 0xE0 ≤ first && first ≤ 0xEF then
      if secondFits first second then 2 else 1
    else if 0xF0 ≤ first && first ≤ 0xF4 then
      if secondFits first second then
        if rest.head?.any fun third => 0x80 ≤ third && third ≤ 0xBF then 3
        else 2
      else 1
    else 1
  | _ => 1

def lossyLoop : Nat → List UInt8 → List Char
  | 0, _ => []
  | fuel + 1, bytes =>
    if bytes = [] then []
    else match bytes.toByteArray.utf8DecodeChar? 0 with
      | some char => char :: lossyLoop fuel (bytes.drop char.utf8Size)
      | none => '�' :: lossyLoop fuel (bytes.drop (brokenLength bytes))

/-- Every round of the loop takes at least one byte, so the bytes themselves
bound the rounds. -/
def fromUtf8Lossy (bytes : List UInt8) : List Char :=
  lossyLoop bytes.length bytes

@[simp] theorem utf8Bytes_nil : utf8Bytes [] = [] := rfl

@[simp] theorem utf8Bytes_cons (char : Char) (text : List Char) :
    utf8Bytes (char :: text) =
      String.utf8EncodeChar char ++ utf8Bytes text := rfl

theorem utf8Bytes_append (text more : List Char) :
    utf8Bytes (text ++ more) = utf8Bytes text ++ utf8Bytes more :=
  List.flatMap_append

theorem utf8Bytes_length_pos {text : List Char} (filled : text ≠ []) :
    0 < (utf8Bytes text).length := by
  obtain ⟨char, rest, rfl⟩ := List.exists_cons_of_ne_nil filled
  rw [utf8Bytes_cons, List.length_append, String.length_utf8EncodeChar]
  exact Nat.add_pos_left char.utf8Size_pos _

theorem decode_encoded (char : Char) (rest : List UInt8) :
    (String.utf8EncodeChar char ++ rest).toByteArray.utf8DecodeChar? 0 = some char := by
  rw [List.toByteArray_append]
  exact ByteArray.utf8DecodeChar?_utf8EncodeChar_append

theorem lossyLoop_encoded (text : List Char) (fuel : Nat)
    (enough : (utf8Bytes text).length ≤ fuel) :
    lossyLoop fuel (utf8Bytes text) = text := by
  induction text generalizing fuel with
  | nil => cases fuel <;> rfl
  | cons char text induction =>
    have positive := char.utf8Size_pos
    have length : (utf8Bytes (char :: text)).length = char.utf8Size + (utf8Bytes text).length := by
      simp only [utf8Bytes_cons, List.length_append, String.length_utf8EncodeChar]
    obtain ⟨fuel, rfl⟩ : ∃ less, fuel = less + 1 := ⟨fuel - 1, by omega⟩
    have nonempty : utf8Bytes (char :: text) ≠ [] := by
      apply List.ne_nil_of_length_pos
      omega
    have dropped : (utf8Bytes (char :: text)).drop char.utf8Size =
        utf8Bytes text := by
      rw [utf8Bytes_cons, ← String.length_utf8EncodeChar, List.drop_left]
    have decoded := decode_encoded char (utf8Bytes text)
    rw [← utf8Bytes_cons] at decoded
    rw [lossyLoop, if_neg nonempty, decoded]
    simp only [dropped]
    rw [induction fuel (by omega)]

/-- Decoding the encoding of a text gives the text. -/
@[simp] theorem fromUtf8Lossy_utf8Bytes (text : List Char) :
    fromUtf8Lossy (utf8Bytes text) = text :=
  lossyLoop_encoded text _ le_rfl

-- An ill-formed byte between two letters, and a truncated sequence at the end.
example : fromUtf8Lossy [0x61, 0xFF, 0x62, 0xE2, 0x82] =
    ['a', '�', 'b', '�'] := by
  decide +kernel

end Eonos.Lib
