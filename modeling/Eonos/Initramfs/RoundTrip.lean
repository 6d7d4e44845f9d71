import Eonos.Initramfs.Ustar

/-!
# The reader inverts the encoding

Field by field, header by header and member by member: on every archive that
encodes a list of members the iterator yields its regular files, in order.
-/

namespace Eonos.Initramfs

open Eonos.Lib

/-! ## Fields -/

variable {field rest : List UInt8} {value : Nat}

theorem cstr_textField {text : List UInt8}
    (held : TextField field text) (nulFree : 0 ∉ text) : cstr field = text := by
  obtain ⟨fill, rfl⟩ := held
  have kept : ∀ b ∈ text, (b != 0) = true := by
    intro b member
    exact bne_iff_ne.mpr fun zero => nulFree (zero ▸ member)
  rw [cstr, List.takeWhile_append_of_pos kept]
  cases fill with
  | zero => simp
  | succ fill => simp [List.replicate_succ]

theorem le_octalFrom (value : Nat) (digits : List UInt8) : value ≤ octalFrom value digits := by
  induction digits generalizing value with
  | nil => exact le_rfl
  | cons b digits induction =>
    have rest := induction (value * 8 + (b.toNat - 0x30))
    have unfolded : octalFrom value (b :: digits) =
        octalFrom (value * 8 + (b.toNat - 0x30)) digits := rfl
    omega

/-- Digits that stay inside a machine word are read to their end. -/
theorem octalLoop_digits {digits : List UInt8} (octal : ∀ b ∈ digits, IsOctalDigit b)
    (nonempty : digits ≠ []) (small : octalFrom value digits < 2 ^ 64) (seen : Bool) :
    octalLoop (digits ++ rest) value seen = octalLoop rest (octalFrom value digits) true := by
  induction digits generalizing value seen with
  | nil => exact absurd rfl nonempty
  | cons b digits induction =>
    obtain ⟨⟨low, high⟩, others⟩ := List.forall_mem_cons.mp octal
    have unfolded : octalFrom value (b :: digits) =
        octalFrom (value * 8 + (b.toNat - 0x30)) digits := rfl
    have grows := le_octalFrom (value * 8 + (b.toNat - 0x30)) digits
    have digit : (b - 0x30).toNat = b.toNat - 0x30 :=
      UInt8.toNat_sub_of_le b 0x30 low
    have scaled : checkedMul value 8 = some (value * 8) :=
      if_pos (by omega)
    have added : checkedAdd (value * 8) (b - 0x30).toNat = some (value * 8 + (b.toNat - 0x30)) := by
      rw [digit]
      exact if_pos (by omega)
    rw [List.cons_append, octalLoop, if_pos (by simp [low, high]), scaled,
      Option.bind_some, added, Option.bind_some, unfolded]
    cases digits with
    | nil => rfl
    | cons next digits =>
      rw [unfolded] at small
      exact induction others (List.cons_ne_nil _ _) small true

theorem IsSeparator.not_digit {b : UInt8} (separator : IsSeparator b) :
    (0x30 ≤ b && b ≤ 0x37) = false ∧ (b == 0x20 || b == 0) = true := by
  rcases separator with rfl | rfl <;> decide

theorem octalLoop_lead {lead : List UInt8} (separators : ∀ b ∈ lead, IsSeparator b) :
    octalLoop (lead ++ rest) 0 false = octalLoop rest 0 false := by
  induction lead with
  | nil => rfl
  | cons b lead induction =>
    obtain ⟨first, others⟩ := List.forall_mem_cons.mp separators
    rw [List.cons_append, octalLoop, first.not_digit.1, first.not_digit.2]
    exact induction others

theorem octalLoop_closed (closed : ∀ b ∈ rest.head?, IsSeparator b) :
    octalLoop rest value true = some (value, true) := by
  cases rest with
  | nil => rfl
  | cons b rest =>
    have first := closed b rfl
    rw [octalLoop, first.not_digit.1, first.not_digit.2]
    rfl

theorem parseOctal_octalField (held : OctalField field value) (small : value < 2 ^ 64) :
    parseOctal field = some value := by
  obtain ⟨lead, digits, rest, rfl, separators, nonempty, octal, closed, rfl⟩ :=
    held.layout
  rw [parseOctal, octalLoop_lead separators,
    octalLoop_digits octal nonempty small, octalLoop_closed closed]
  rfl

theorem OctalField.nonzero (octal : OctalField field value) : ∃ b ∈ field, b ≠ 0 := by
  obtain ⟨lead, digits, rest, rfl, -, nonempty, octal, -, -⟩ := octal.layout
  obtain ⟨b, member⟩ := List.exists_mem_of_ne_nil digits nonempty
  refine ⟨b, by simp [member], ?_⟩
  rintro rfl
  exact absurd (octal 0 member).1 (by decide)

/-! ## The checksum -/

theorem checksumLoop_append (left right : List UInt8) (i sum : Nat) :
    checksumLoop (left ++ right) i sum =
      checksumLoop right (i + left.length) (checksumLoop left i sum) := by
  induction left generalizing i sum with
  | nil => rfl
  | cons b left induction =>
    rw [List.cons_append, checksumLoop, induction, checksumLoop, List.length_cons]
    congr 1
    omega

theorem checksumLoop_outside {hdr : List UInt8} {i : Nat} (sum : Nat)
    (outside : i + hdr.length ≤ 148 ∨ 156 ≤ i) :
    checksumLoop hdr i sum = sum + (hdr.map UInt8.toNat).sum := by
  induction hdr generalizing i sum with
  | nil => rfl
  | cons b hdr induction =>
    rw [List.length_cons] at outside
    have unblanked : (148 ≤ i && i < 156) = false := by
      rw [Bool.and_eq_false_iff, decide_eq_false_iff_not, decide_eq_false_iff_not]
      omega
    rw [checksumLoop, unblanked, induction _ (by omega), List.map_cons,
      List.sum_cons, Nat.add_assoc]
    rfl

theorem checksumLoop_inside {hdr : List UInt8} {i : Nat} (sum : Nat) (above : 148 ≤ i)
    (below : i + hdr.length ≤ 156) : checksumLoop hdr i sum = sum + hdr.length * 0x20 := by
  induction hdr generalizing i sum with
  | nil => rfl
  | cons b hdr induction =>
    rw [List.length_cons] at below
    have blanked : (148 ≤ i && i < 156) = true := by
      simp only [Bool.and_eq_true, decide_eq_true_eq]
      omega
    rw [checksumLoop, blanked, induction _ (by omega) (by omega), List.length_cons, if_pos rfl]
    omega

/-- The loop over the header adds up the bytes outside the checksum field. -/
theorem checksumLoop_eq_blankedSum {hdr : List UInt8}
    (length : hdr.length = block) : checksumLoop hdr 0 0 = blankedSum hdr := by
  have length : hdr.length = 512 := length
  have parts : hdr = hdr.take 148 ++ ((hdr.drop 148).take 8 ++ hdr.drop 156) := by
    have tail : (hdr.drop 148).drop 8 = hdr.drop 156 := List.drop_drop ..
    rw [← tail, List.take_append_drop, List.take_append_drop]
  have frontLength : (hdr.take 148).length = 148 := by
    rw [List.length_take]
    omega
  have middleLength : ((hdr.drop 148).take 8).length = 8 := by
    rw [List.length_take, List.length_drop]
    omega
  have front : checksumLoop (hdr.take 148) 0 0 = 0 + ((hdr.take 148).map UInt8.toNat).sum :=
    checksumLoop_outside 0 (.inl (by omega))
  have middle (sum : Nat) : checksumLoop ((hdr.drop 148).take 8) 148 sum = sum + 8 * 0x20 := by
    rw [checksumLoop_inside sum le_rfl (by omega), middleLength]
  conv_lhs => rw [parts]
  rw [checksumLoop_append, checksumLoop_append, frontLength, middleLength, front, Nat.zero_add,
    Nat.zero_add, middle, checksumLoop_outside _ (.inr le_rfl), blankedSum]

/-! ## Headers -/

section Header

variable {member : Member} {hdr : List UInt8}

theorem Header.checksumOk (header : Header member hdr) : checksumOk hdr = true := by
  have small := blankedSum_lt header.length
  have parsed := parseOctal_octalField header.checksum (by omega)
  unfold Initramfs.checksumOk
  rw [parsed, checksumLoop_eq_blankedSum header.length]
  exact beq_self_eq_true _

theorem Header.size_eq (header : Header member hdr) :
    parseOctal (slice hdr 124 136) = some member.data.length := by
  have small := member.data_fits
  exact parseOctal_octalField header.size (by omega)

theorem Header.nonzero (header : Header member hdr) : hdr.all (· == 0) = false := by
  obtain ⟨b, inside, nonzero⟩ := header.size.nonzero
  rw [List.all_eq_false]
  exact ⟨b, List.mem_of_mem_drop (List.mem_of_mem_take inside), by simpa using nonzero⟩

theorem utf8Bytes_eq_nil {text : List Char} : utf8Bytes text = [] ↔ text = [] := by
  cases text with
  | nil => simp
  | cons char text =>
    have positive := char.utf8Size_pos
    refine iff_of_false ?_ (List.cons_ne_nil _ _)
    apply List.ne_nil_of_length_pos
    rw [utf8Bytes_cons, List.length_append, String.length_utf8EncodeChar]
    omega

/-- The reader puts the two name fields together and strips the result. -/
theorem Header.entryName (header : Header member hdr) (nulFree : member.NulFree) :
    entryName hdr = normalize member.path := by
  have name := cstr_textField header.name nulFree.1
  have dir := cstr_textField header.dir nulFree.2
  have magic : (slice hdr 257 262 == ustar) = true :=
    beq_iff_eq.mpr header.magic
  unfold Initramfs.entryName Member.path
  simp only [name, dir, magic, if_true, fromUtf8Lossy_utf8Bytes]
  by_cases empty : member.dir = []
  · rw [if_pos empty, empty]
    rfl
  · have present : (utf8Bytes member.dir).isEmpty = false := by
      rw [List.isEmpty_eq_false_iff]
      exact fun none => empty (utf8Bytes_eq_nil.mp none)
    rw [if_neg empty, present]
    simp

end Header

/-! ## One turn -/

theorem Member.fill_spec (member : Member) :
    (member.data.length + 511) / 512 * 512 = member.data.length + member.fill := by
  unfold Member.fill block
  omega

theorem checkedAdd_of_lt {left right : Nat} (small : left + right < 2 ^ 64) :
    checkedAdd left right = some (left + right) := if_pos small

variable {before : List UInt8} {members : List Member}

/-- On a header the loop moves past the member and its filler, and returns the
member if it is a regular file. -/
theorem turn_member {member : Member} {hdr filler rest : List UInt8} (header : Header member hdr)
    (filled : filler.length = member.fill)
    (fits : (before ++ (hdr ++ (member.data ++ (filler ++ rest)))).length < 2 ^ 63) :
    turn (before ++ (hdr ++ (member.data ++ (filler ++ rest)))) before.length =
      some ((before ++ (hdr ++ (member.data ++ filler))).length,
        if member.regular then some ⟨entryName hdr, member.data⟩ else none) := by
  have hdrLength : hdr.length = 512 := header.length
  have dataFits := member.data_fits
  have rounded := member.fill_spec
  simp only [List.length_append] at fits
  have hdrSlice :
      slice (before ++ (hdr ++ (member.data ++ (filler ++ rest))))
        before.length (before.length + 512) = hdr :=
    slice_append rfl (by omega)
  have dataSlice : slice (before ++ (hdr ++ (member.data ++ (filler ++ rest)))) (before.length +
      512) (before.length + 512 + member.data.length) =
        member.data := by
    rw [← List.append_assoc]
    exact slice_append (by rw [List.length_append]; omega) rfl
  have offset : before.length + 512 + (member.data.length + member.fill) =
      (before ++ (hdr ++ (member.data ++ filler))).length := by
    simp only [List.length_append]
    omega
  have total : (before ++ (hdr ++ (member.data ++ (filler ++ rest)))).length =
      before.length + (hdr.length + (member.data.length +
        (filler.length + rest.length))) := by
    simp only [List.length_append]
  unfold turn
  rw [show block = 512 from rfl, checkedAdd_of_lt (by omega), Option.bind_some, if_neg (by omega)]
  simp only [hdrSlice, header.nonzero, header.checksumOk, header.size_eq, header.typeflag,
    Option.bind_some, Bool.not_true, Bool.false_eq_true, if_false]
  rw [checkedAdd_of_lt (by omega), Option.bind_some, if_neg (by omega), checkedAdd_of_lt (by omega),
    Option.bind_some, dataSlice, rounded, checkedAdd_of_lt (by omega), Option.bind_some, offset]
  have regular : (member.typeflag == 0x30 || member.typeflag == 0) =
      member.regular := rfl
  rw [regular]
  cases member.regular <;> rfl

/-- The closing zero block ends the iteration. -/
theorem turn_done {rest : List UInt8}
    (fits : (before ++ (List.replicate block 0 ++ rest)).length < 2 ^ 63) :
    turn (before ++ (List.replicate block 0 ++ rest)) before.length = none := by
  have length : (List.replicate block (0 : UInt8)).length = 512 :=
    List.length_replicate
  have zeroSlice :
      slice (before ++ (List.replicate block 0 ++ rest)) before.length
        (before.length + 512) = List.replicate block 0 :=
    slice_append rfl (by omega)
  have zeros : (List.replicate block (0 : UInt8)).all (· == 0) = true := by
    rw [List.all_replicate]
    rfl
  simp only [List.length_append] at fits
  unfold turn
  rw [checkedAdd_of_lt (by rw [show block = 512 from rfl]; omega), Option.bind_some]
  split_ifs with tooLong
  · rfl
  · simp only [show before.length + block = before.length + 512 from rfl, zeroSlice, zeros, if_true]

/-! ## The whole archive -/

/-- What the reader makes of the regular files of a list of members. -/
def regularEntries (members : List Member) : List Entry :=
  (members.filter Member.regular).map fun member =>
    ⟨normalize member.path, member.data⟩

/-- From the start of a member, `next` returns the first regular file that
follows and leaves the iterator at the start of the member after it. -/
theorem nextLoop_encodes {tail : List UInt8} (encodes : Encodes members tail)
    (nulFree : ∀ member ∈ members, member.NulFree) (fits : (before ++ tail).length < 2 ^ 63)
    {fuel : Nat} (enough : members.length < fuel) :
    (regularEntries members = [] ∧
      (nextLoop (before ++ tail) fuel before.length).1 = none) ∨
    ∃ entry later passed remaining,
      regularEntries members = entry :: regularEntries later ∧
      before ++ tail = passed ++ remaining ∧ Encodes later remaining ∧
      later <:+ members ∧ later.length < members.length ∧
      nextLoop (before ++ tail) fuel before.length =
        (some entry, passed.length) := by
  induction encodes generalizing before fuel with
  | done rest =>
    refine .inl ⟨rfl, ?_⟩
    rw [nextLoop_stop (turn_done fits)]
  | @member first members hdr filler rest header filled encodes induction =>
    obtain ⟨firstFree, othersFree⟩ := List.forall_mem_cons.mp nulFree
    obtain ⟨fuel, rfl⟩ : ∃ less, fuel = less + 1 :=
      ⟨fuel - 1, by rw [List.length_cons] at enough; omega⟩
    have turned := turn_member header filled fits
    have split : before ++ (hdr ++ (first.data ++ (filler ++ rest))) =
        (before ++ (hdr ++ (first.data ++ filler))) ++ rest := by
      simp only [List.append_assoc]
    cases regular : first.regular with
    | true =>
      rw [if_pos regular, header.entryName firstFree] at turned
      refine .inr ⟨⟨normalize first.path, first.data⟩, members, _, rest, ?_, split, encodes,
        List.suffix_cons .., Nat.lt_succ_self _, nextLoop_found turned⟩
      simp only [regularEntries, List.filter_cons, regular, if_true, List.map_cons]
    | false =>
      rw [if_neg (ne_true_of_eq_false regular)] at turned
      have skipped : regularEntries (first :: members) =
          regularEntries members := by
        simp only [regularEntries, List.filter_cons, regular, Bool.false_eq_true, if_false]
      rw [nextLoop_skip turned, skipped, split]
      rw [split] at fits
      rw [List.length_cons] at enough
      rcases induction othersFree fits (Nat.lt_of_succ_lt_succ enough) with
        none | ⟨entry, later, passed, remaining, yields, layout, encodes, suffix, shorter, moved⟩
      · exact .inl none
      · exact .inr ⟨entry, later, passed, remaining, yields, layout, encodes, suffix.trans
          (List.suffix_cons ..), Nat.lt_succ_of_lt shorter, moved⟩

theorem Encodes.length_le {archive : List UInt8}
    (encodes : Encodes members archive) : members.length < archive.length := by
  induction encodes with
  | done rest =>
    rw [List.length_append, List.length_replicate]
    exact Nat.lt_add_right _ (by decide)
  | member header filled encodes induction =>
    have hdrLength : _ = 512 := header.length
    simp only [List.length_append, List.length_cons]
    omega

theorem collectLoop_encodes {archive : List UInt8} (before : List UInt8) {tail : List UInt8}
    (encodes : Encodes members tail) (nulFree : ∀ member ∈ members, member.NulFree)
    (position : archive = before ++ tail) (fits : archive.length < 2 ^ 63) {fuel : Nat}
    (enough : members.length < fuel) :
    collectLoop fuel ⟨archive, before.length⟩ = regularEntries members := by
  induction fuel generalizing members before tail with
  | zero => exact absurd enough (Nat.not_lt_zero _)
  | succ fuel induction =>
    have turns : members.length < archive.length + 1 := by
      have := encodes.length_le
      rw [position, List.length_append]
      omega
    rw [collectLoop]
    subst position
    rcases nextLoop_encodes encodes nulFree fits turns with
      ⟨none, ended⟩ | ⟨entry, later, passed, remaining, yields, layout,
        encodes, suffix, shorter, moved⟩
    · have stopped : (Entries.next ⟨before ++ tail, before.length⟩).1 = Option.none := by
        simp only [Entries.next, ended]
      rw [stopped, Option.elim_none, none]
    · have found : Entries.next ⟨before ++ tail, before.length⟩ =
          (some entry, ⟨before ++ tail, passed.length⟩) := by
        simp only [Entries.next, moved]
      rw [found, Option.elim_some, yields]
      have rest := induction passed encodes (fun member inside => nulFree member (suffix.subset
        inside)) layout (by omega)
      rw [rest]

theorem collect_encodes {archive : Slice} (encodes : Encodes members archive.bytes)
    (nulFree : ∀ member ∈ members, member.NulFree) :
    (entries (some archive)).collect = regularEntries members := by
  exact collectLoop_encodes [] encodes nulFree rfl archive.fits
    (Nat.lt_succ_of_lt encodes.length_le)

/-- On an archive of members whose names hold no NUL the iterator yields
exactly the regular files, in order, each under its stripped name with its
data, and a lookup returns the first regular file of that stripped name. -/
theorem archive_reads_back {members : List Member} {archive : Slice}
    (encodes : Encodes members archive.bytes) (nulFree : ∀ member ∈ members, member.NulFree) :
    List.Forall₂
      (fun member entry =>
        Stripped member.path entry.name ∧ entry.data = member.data)
      (members.filter Member.regular) (entries (some archive)).collect ∧
    ∀ path want, Stripped path want →
      find (some archive) path =
        ((members.filter Member.regular).find? fun member =>
          decide (Stripped member.path want)).map Member.data := by
  have yields := collect_encodes encodes nulFree
  constructor
  · rw [yields, regularEntries, List.forall₂_map_right_iff, List.forall₂_same]
    intro member _
    exact ⟨stripped_normalize member.path, rfl⟩
  · intro path want stripped
    have same : ∀ member : Member,
        (normalize member.path == want) = decide (Stripped member.path want) := by
      intro member
      rw [Bool.eq_iff_iff, beq_iff_eq, decide_eq_true_iff, stripped_iff]
    rw [find, yields, stripped.normalize_eq, regularEntries, List.find?_map, Option.map_map]
    simp only [Function.comp_def, same]

/-- A directory, a program and a file in a directory, as `tar` stores them. -/
def sampleMembers : List Member :=
  [⟨['.', '/'], [], 0x35, [], by decide, by decide, by decide⟩,
   ⟨['.', '/', 'i', 'n', 'i', 't'], [], 0x30, [0x7F, 0x45, 0x4C, 0x46],
    by decide, by decide, by decide⟩,
   ⟨['m', 'o', 't', 'd'], ['.', '/', 'e', 't', 'c'], 0, [0x68, 0x69],
    by decide, by decide, by decide⟩]

def sampleArchive : Slice where
  bytes := encode sampleMembers
  fits := by decide +kernel

theorem sampleArchive_reads_back :
    (∀ member ∈ sampleMembers, member.NulFree) ∧
      find (some sampleArchive) ['/', 'e', 't', 'c', '/', 'm', 'o', 't', 'd'] =
        some [0x68, 0x69] := by
  have nulFree : ∀ member ∈ sampleMembers, member.NulFree := by decide
  have encodes : Encodes sampleMembers sampleArchive.bytes :=
    encodes_encode sampleMembers
  refine ⟨nulFree, ?_⟩
  have found := (archive_reads_back encodes nulFree).2 ['/', 'e', 't', 'c', '/', 'm', 'o', 't', 'd']
    ['e', 't', 'c', '/', 'm', 'o', 't', 'd'] (by decide)
  rw [found]
  decide

/-- A name with a NUL in it, which is valid UTF-8. -/
def nulMember : Member :=
  ⟨['a', '\x00', 'b'], [], 0x30, [], by decide, by decide, by decide⟩

def nulArchive : Slice where
  bytes := encode [nulMember]
  fits := by decide +kernel

/-- The reader takes a name field as a C string, so it cuts the name short. -/
theorem nulArchive_cut_short :
    Encodes [nulMember] nulArchive.bytes ∧ nulMember.regular = true ∧
      (entries (some nulArchive)).collect = [⟨['a'], []⟩] ∧
      ¬ Stripped nulMember.path ['a'] := by
  refine ⟨encodes_encode [nulMember], rfl, ?_, by decide⟩
  decide +kernel

end Eonos.Initramfs
