import Mathlib

/-!
# UTF-16

`char::encode_utf16` and `String::from_utf16_lossy` of the standard library.
Units are numbers below `2 ^ 16`.
-/

namespace Eonos.Lib

def utf16Units (c : Char) : List Nat :=
  if c.toNat < 0x10000 then [c.toNat]
  else [0xd800 + (c.toNat - 0x10000) / 0x400,
    0xdc00 + (c.toNat - 0x10000) % 0x400]

def encodeUtf16 (text : List Char) : List Nat := text.flatMap utf16Units

/-- A surrogate that is not half of a pair becomes the replacement character. -/
def fromUtf16Lossy : List Nat → List Char
  | [] => []
  | [u] => [if u < 0xd800 ∨ 0xdfff < u then Char.ofNat u else '�']
  | u :: v :: rest =>
    if u < 0xd800 ∨ 0xdfff < u then Char.ofNat u :: fromUtf16Lossy (v :: rest)
    else if u < 0xdc00 ∧ 0xdc00 ≤ v ∧ v ≤ 0xdfff then
      Char.ofNat (0x10000 + (u - 0xd800) * 0x400 + (v - 0xdc00)) ::
        fromUtf16Lossy rest
    else '�' :: fromUtf16Lossy (v :: rest)

end Eonos.Lib
