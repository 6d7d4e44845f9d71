import Eonos.Initramfs.Model

/-!
# Archives in `ustar` format

What it means for a byte string to be the encoding of a list of members.  Only
the fields a reader needs are pinned down: the owner, mode and time fields of a
header, the filler after the data and whatever follows the closing zero block
are arbitrary.
-/

namespace Eonos.Initramfs

open Eonos.Lib

/-! ## Fields -/

/-- A text field: the text, filled up with NULs. -/
def TextField (field text : List UInt8) : Prop :=
  ∃ fill, field = text ++ List.replicate fill 0

def IsOctalDigit (b : UInt8) : Prop := 0x30 ≤ b ∧ b ≤ 0x37

def IsSeparator (b : UInt8) : Prop := b = 0x20 ∨ b = 0

/-- The number a digit string continues a number to. -/
def octalFrom (value : Nat) (digits : List UInt8) : Nat :=
  digits.foldl (fun value b => value * 8 + (b.toNat - 0x30)) value

/-- A numeric field: octal digits, after separators and closed by one unless
they reach the end of the field. -/
structure OctalField (field : List UInt8) (value : Nat) : Prop where
  intro ::
  layout : ∃ lead digits rest, field = lead ++ (digits ++ rest) ∧
    (∀ b ∈ lead, IsSeparator b) ∧ digits ≠ [] ∧
    (∀ b ∈ digits, IsOctalDigit b) ∧ (∀ b ∈ rest.head?, IsSeparator b) ∧
    octalFrom 0 digits = value

/-- The sum of the header bytes with the checksum field taken as eight
spaces. -/
def blankedSum (hdr : List UInt8) : Nat :=
  ((hdr.take 148).map UInt8.toNat).sum + 8 * 0x20 +
    ((hdr.drop 156).map UInt8.toNat).sum

/-! ## Members -/

/-- A member of an archive.  `dir` is the `ustar` name extension, empty if the
member has none. -/
structure Member where
  name : List Char
  dir : List Char
  typeflag : UInt8
  data : List UInt8
  name_fits : (utf8Bytes name).length ≤ 100
  dir_fits : (utf8Bytes dir).length ≤ 155
  data_fits : data.length < 8 ^ 11

namespace Member

def regular (member : Member) : Bool :=
  member.typeflag == 0x30 || member.typeflag == 0

def path (member : Member) : List Char :=
  if member.dir = [] then member.name else member.dir ++ '/' :: member.name

/-- The two name fields end at their first NUL. -/
def NulFree (member : Member) : Prop :=
  0 ∉ utf8Bytes member.name ∧ 0 ∉ utf8Bytes member.dir

/-- The bytes that fill the data up to a whole number of blocks. -/
def fill (member : Member) : Nat :=
  (block - member.data.length % block) % block

end Member

/-- A header block of a member. -/
structure Header (member : Member) (hdr : List UInt8) : Prop where
  length : hdr.length = block
  name : TextField (slice hdr 0 100) (utf8Bytes member.name)
  size : OctalField (slice hdr 124 136) member.data.length
  checksum : OctalField (slice hdr 148 156) (blankedSum hdr)
  typeflag : hdr.getD 156 0 = member.typeflag
  magic : slice hdr 257 262 = ustar
  dir : TextField (slice hdr 345 500) (utf8Bytes member.dir)

/-- The archive of a list of members: each header with its data, and a zero
block after the last. -/
inductive Encodes : List Member → List UInt8 → Prop
  | done (rest : List UInt8) : Encodes [] (List.replicate block 0 ++ rest)
  | member {member : Member} {members : List Member}
      {hdr filler rest : List UInt8}
      (header : Header member hdr) (filled : filler.length = member.fill)
      (tail : Encodes members rest) :
      Encodes (member :: members) (hdr ++ (member.data ++ (filler ++ rest)))

/-! ## Stripped names -/

/-- The name without its leading repetitions of `./` and `/`. -/
structure Stripped (name rest : List Char) : Prop where
  intro ::
  pieces : ∃ pieces : List (List Char),
    (∀ piece ∈ pieces, piece = ['.', '/'] ∨ piece = ['/']) ∧
      name = pieces.flatten ++ rest
  dot : ¬ ['.', '/'] <+: rest
  slash : ¬ ['/'] <+: rest

theorem stripped_normalize (name : List Char) : Stripped name (normalize name) := by
  induction name using normalize.induct with
  | case1 rest induction =>
    obtain ⟨⟨pieces, allowed, layout⟩, dot, slash⟩ := induction
    refine ⟨⟨['.', '/'] :: pieces, ?_, ?_⟩, dot, slash⟩
    · exact List.forall_mem_cons.mpr ⟨.inl rfl, allowed⟩
    · rw [normalize, List.flatten_cons, List.append_assoc, ← layout]
      rfl
  | case2 rest induction =>
    obtain ⟨⟨pieces, allowed, layout⟩, dot, slash⟩ := induction
    refine ⟨⟨['/'] :: pieces, ?_, ?_⟩, dot, slash⟩
    · exact List.forall_mem_cons.mpr ⟨.inr rfl, allowed⟩
    · rw [normalize, List.flatten_cons, List.append_assoc, ← layout]
      rfl
  | case3 name notDot notSlash =>
    rw [normalize.eq_3 name notDot notSlash]
    refine ⟨⟨[], by simp, rfl⟩, ?_, ?_⟩
    · rintro ⟨rest, layout⟩
      exact notDot rest layout.symm
    · rintro ⟨rest, layout⟩
      exact notSlash rest layout.symm

theorem Stripped.normalize_eq {name rest : List Char}
    (stripped : Stripped name rest) : normalize name = rest := by
  obtain ⟨⟨pieces, allowed, layout⟩, dot, slash⟩ := stripped
  subst layout
  induction pieces with
  | nil =>
    refine normalize.eq_3 rest ?_ ?_
    · rintro tail rfl
      exact dot ⟨tail, rfl⟩
    · rintro tail rfl
      exact slash ⟨tail, rfl⟩
  | cons piece pieces induction =>
    obtain ⟨first, others⟩ := List.forall_mem_cons.mp allowed
    have step : normalize (piece ++ (pieces.flatten ++ rest)) =
        normalize (pieces.flatten ++ rest) := by
      rcases first with rfl | rfl
      · rfl
      · exact normalize.eq_2 _
    rw [List.flatten_cons, List.append_assoc, step]
    exact induction others

theorem stripped_iff {name rest : List Char} : Stripped name rest ↔ normalize name = rest :=
  ⟨Stripped.normalize_eq, fun stripped => stripped ▸ stripped_normalize name⟩

instance (name rest : List Char) : Decidable (Stripped name rest) :=
  decidable_of_iff _ stripped_iff.symm

instance (member : Member) : Decidable member.NulFree :=
  inferInstanceAs (Decidable (_ ∧ _))

theorem sum_toNat_le (bytes : List UInt8) : (bytes.map UInt8.toNat).sum ≤ bytes.length * 255 := by
  induction bytes with
  | nil => exact le_rfl
  | cons b bytes induction =>
    have := b.toNat_lt
    rw [List.map_cons, List.sum_cons, List.length_cons]
    omega

theorem blankedSum_lt {hdr : List UInt8} (length : hdr.length = block) :
    blankedSum hdr < 8 ^ 6 := by
  have length : hdr.length = 512 := length
  have front := sum_toNat_le (hdr.take 148)
  have back := sum_toNat_le (hdr.drop 156)
  rw [List.length_take] at front
  rw [List.length_drop] at back
  unfold blankedSum
  omega

/-! ## An encoder -/

def textField (width : Nat) (text : List UInt8) : List UInt8 :=
  text ++ List.replicate (width - text.length) 0

/-- The last `width` octal digits of a number. -/
def octalDigits : Nat → Nat → List UInt8
  | 0, _ => []
  | width + 1, value =>
    octalDigits width (value / 8) ++ [UInt8.ofNat (0x30 + value % 8)]

/-- The header in front of its checksum field.  The fields no reader looks at
are left zero. -/
def headerFront (member : Member) : List UInt8 :=
  textField 100 (utf8Bytes member.name) ++ (List.replicate 24 0 ++
    ((octalDigits 11 member.data.length ++ [0]) ++ List.replicate 12 0))

/-- The header behind its checksum field. -/
def headerBack (member : Member) : List UInt8 :=
  [member.typeflag] ++ (List.replicate 100 0 ++ (ustar ++
    (List.replicate 83 0 ++ (textField 155 (utf8Bytes member.dir) ++
      List.replicate 12 0))))

def headerWith (member : Member) (checksum : List UInt8) : List UInt8 :=
  headerFront member ++ (checksum ++ headerBack member)

def encodeHeader (member : Member) : List UInt8 :=
  let sum := blankedSum (headerWith member (List.replicate 8 0x20))
  headerWith member (octalDigits 6 sum ++ [0, 0x20])

def encode : List Member → List UInt8
  | [] => List.replicate block 0
  | member :: members =>
    encodeHeader member ++
      (member.data ++ (List.replicate member.fill 0 ++ encode members))

variable {left right : List UInt8} {last width : Nat}

theorem slice_append {middle : List UInt8} {first : Nat}
    (start : first = left.length) (stop : last = first + middle.length) :
    slice (left ++ (middle ++ right)) first last = middle := by
  subst start stop
  rw [slice, List.drop_left, Nat.add_sub_cancel_left, List.take_left]

theorem slice_skip {first count : Nat} (length : left.length = count) (after : count ≤ first) :
    slice (left ++ right) first last = slice right (first - count) (last - count) := by
  subst length
  have gone : left.drop first = [] := List.drop_eq_nil_of_le after
  rw [slice, slice, List.drop_append, gone, List.nil_append]
  congr 1
  omega

theorem slice_here (length : left.length = last) : slice (left ++ right) 0 last = left := by
  rw [slice, List.drop_zero, Nat.sub_zero, List.take_left' length]

theorem textField_length {text : List UInt8}
    (fits : text.length ≤ width) : (textField width text).length = width := by
  rw [textField, List.length_append, List.length_replicate]
  omega

theorem octalDigits_length (width value : Nat) : (octalDigits width value).length = width := by
  induction width generalizing value with
  | zero => rfl
  | succ width induction =>
    rw [octalDigits, List.length_append, induction]
    rfl

theorem octalByte_toNat (value : Nat) :
    (UInt8.ofNat (0x30 + value % 8)).toNat = 0x30 + value % 8 := by
  rw [UInt8.toNat_ofNat']
  omega

theorem octalDigits_digit {value : Nat} : ∀ b ∈ octalDigits width value, IsOctalDigit b := by
  induction width generalizing value with
  | zero => simp [octalDigits]
  | succ width induction =>
    intro b inside
    rw [octalDigits, List.mem_append, List.mem_singleton] at inside
    rcases inside with before | rfl
    · exact induction b before
    · have byte := octalByte_toNat value
      refine ⟨UInt8.le_iff_toNat_le.mpr ?_, UInt8.le_iff_toNat_le.mpr ?_⟩
      · rw [byte]
        exact Nat.le_add_right _ _
      · rw [byte, show (0x37 : UInt8).toNat = 0x37 from rfl]
        omega

theorem octalFrom_octalDigits (width value : Nat) :
    octalFrom 0 (octalDigits width value) = value % 8 ^ width := by
  induction width generalizing value with
  | zero => rw [Nat.pow_zero, Nat.mod_one]; rfl
  | succ width induction =>
    have last : octalFrom 0 (octalDigits (width + 1) value) =
        octalFrom 0 (octalDigits width (value / 8)) * 8 +
          ((UInt8.ofNat (0x30 + value % 8)).toNat - 0x30) := by
      simp only [octalFrom, octalDigits, List.foldl_append, List.foldl_cons, List.foldl_nil]
    rw [last, induction, octalByte_toNat, Nat.pow_succ', Nat.mod_mul]
    omega

theorem octalField_digits {value : Nat} {rest : List UInt8} (small : value < 8 ^ width)
    (wide : 0 < width) (closed : ∀ b ∈ rest.head?, IsSeparator b) :
    OctalField (octalDigits width value ++ rest) value := by
  refine ⟨[], octalDigits width value, rest, rfl, by simp, ?_, octalDigits_digit, closed, ?_⟩
  · apply List.ne_nil_of_length_pos
    rw [octalDigits_length]
    exact wide
  · rw [octalFrom_octalDigits, Nat.mod_eq_of_lt small]

section HeaderWith

variable {member : Member} {checksum : List UInt8}

theorem sizeField_length (value : Nat) : (octalDigits 11 value ++ [0]).length = 12 := by
  rw [List.length_append, octalDigits_length]
  rfl

theorem headerFront_length : (headerFront member).length = 148 := by
  have name := textField_length member.name_fits
  simp only [headerFront, List.length_append, List.length_replicate, name,
    octalDigits_length, List.length_singleton]

theorem headerBack_length : (headerBack member).length = 356 := by
  have dir := textField_length member.dir_fits
  simp only [headerBack, List.length_append, List.length_replicate, dir,
    List.length_cons, ustar, List.length_nil]

/-- The checksum field does not enter the sum. -/
theorem blankedSum_headerWith (width : checksum.length = 8) :
    blankedSum (headerWith member checksum) =
      ((headerFront member).map UInt8.toNat).sum + 8 * 0x20 +
        ((headerBack member).map UInt8.toNat).sum := by
  have front : (headerWith member checksum).take 148 = headerFront member :=
    List.take_left' headerFront_length
  have back : (headerWith member checksum).drop 156 = headerBack member := by
    rw [headerWith, ← List.append_assoc]
    refine List.drop_left' ?_
    rw [List.length_append, headerFront_length, width]
  rw [blankedSum, front, back]

theorem header_headerWith (width : checksum.length = 8)
    (right : OctalField checksum (blankedSum (headerWith member checksum))) :
    Header member (headerWith member checksum) := by
  have name := textField_length member.name_fits
  have dir := textField_length member.dir_fits
  have behind (first last : Nat) (after : 156 ≤ first) :
      slice (headerWith member checksum) first last =
        slice (headerBack member) (first - 148 - 8) (last - 148 - 8) := by
    rw [headerWith, slice_skip headerFront_length (by omega), slice_skip width (by omega)]
  constructor
  · rw [headerWith, List.length_append, List.length_append, width,
      headerFront_length, headerBack_length]
    rfl
  · rw [headerWith, headerFront, List.append_assoc, slice_here name]
    exact ⟨_, rfl⟩
  · rw [headerWith, headerFront, List.append_assoc,
      slice_skip name (by omega), List.append_assoc,
      slice_skip List.length_replicate (by omega), List.append_assoc,
      slice_here (sizeField_length _)]
    exact octalField_digits member.data_fits (by omega) (by simp [IsSeparator])
  · rw [headerWith, slice_skip headerFront_length (by omega), slice_here width]
    exact right
  · rw [headerWith, List.getD_append_right _ _ _ _
        (by rw [headerFront_length]; omega),
      List.getD_append_right _ _ _ _
        (by rw [headerFront_length, width]), headerFront_length, width]
    rfl
  · rw [behind 257 262 (by omega), headerBack,
      slice_skip List.length_singleton (by omega),
      slice_skip List.length_replicate (by omega)]
    exact slice_here rfl
  · rw [behind 345 500 (by omega), headerBack,
      slice_skip List.length_singleton (by omega),
      slice_skip List.length_replicate (by omega),
      slice_skip (show ustar.length = 5 from rfl) (by omega),
      slice_skip List.length_replicate (by omega), slice_here dir]
    exact ⟨_, rfl⟩

end HeaderWith

theorem header_encodeHeader (member : Member) : Header member (encodeHeader member) := by
  unfold encodeHeader
  have width (value : Nat) : (octalDigits 6 value ++ [0, 0x20]).length = 8 := by
    rw [List.length_append, octalDigits_length]
    rfl
  have blank : (List.replicate 8 (0x20 : UInt8)).length = 8 := rfl
  refine header_headerWith (width _) ?_
  rw [blankedSum_headerWith (width _), ← blankedSum_headerWith blank]
  refine octalField_digits (blankedSum_lt ?_) (by omega) ?_
  · rw [headerWith, List.length_append, List.length_append, blank,
      headerFront_length, headerBack_length]
    rfl
  · simp [IsSeparator]

theorem encodes_encode (members : List Member) : Encodes members (encode members) := by
  induction members with
  | nil => simpa [encode] using Encodes.done []
  | cons member members induction =>
    exact .member (header_encodeHeader member) List.length_replicate induction

end Eonos.Initramfs
