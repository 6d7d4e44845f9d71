import Eonos.Fat.Directory

/-!
# Short aliases

Whatever the name, the characters an alias is made of are ASCII, so that byte
offsets are character offsets: no slice of `choose_short_alias` panics, and
every alias is a padded 8.3 name.  The aliases it tries are compared with the
live short entries of the directory.
-/

namespace Eonos.Fat

open Eonos.Lib
open Eonos.Lib.Script

/-! ### Legal names -/

/-- The upper-case characters of an 8.3 name. -/
def permitted (b : UInt8) : Bool :=
  (0x30 ≤ b && b ≤ 0x39) || (0x41 ≤ b && b ≤ 0x5a) || shortSpecials.contains b

/-- A base and an extension, padded on the right. -/
structure Legal (raw : Bytes 11) (base ext : Nat) : Prop where
  base_pos : 1 ≤ base
  base_le : base ≤ 8
  ext_le : ext ≤ 3
  chars : ∀ i : Fin 11, i.val < base ∨ 8 ≤ i.val ∧ i.val < 8 + ext →
    permitted (raw i) = true
  padding : ∀ i : Fin 11, base ≤ i.val ∧ i.val < 8 ∨ 8 + ext ≤ i.val →
    raw i = 0x20

theorem byte_cases {P : UInt8 → Prop} (all : ∀ n < 256, P (UInt8.ofNat n)) (b : UInt8) : P b := by
  have here := all b.toNat b.toNat_lt
  rwa [UInt8.ofNat_toNat] at here

theorem permitted_ne {b : UInt8} (allowed : permitted b = true) : b ≠ 0x20 ∧ b ≠ 0 ∧ b ≠ 0xe5 := by
  revert allowed
  exact byte_cases (P := fun b => permitted b = true →
    b ≠ 0x20 ∧ b ≠ 0 ∧ b ≠ 0xe5) (by decide +kernel) b

theorem permitted_toUppercase {b : UInt8}
    (valid : (isAlphanumeric b || shortSpecials.contains b) = true) :
    permitted (toUppercase b) = true := by
  revert valid
  exact byte_cases (P := fun b => (isAlphanumeric b || shortSpecials.contains b) = true → permitted
    (toUppercase b) = true) (by decide +kernel) b

section

variable {raw : Bytes 11} {base ext : List UInt8}

theorem getD_of_all {P : UInt8 → Prop} {items : List UInt8} (all : ∀ b ∈ items, P b) {i : Nat}
    (inside : i < items.length) : P (items.getD i 0) := by
  rw [List.getD_eq_getElem _ _ inside]
  exact all _ (List.getElem_mem inside)

/-- Permitted characters put over blanks make a legal name. -/
theorem legal_splice (basePos : 1 ≤ base.length) (fitsBase : 0 + base.length ≤ 11)
    (baseLe : base.length ≤ 8) (fitsExt : 8 + ext.length ≤ 11)
    (baseChars : ∀ b ∈ base, permitted b = true) (extChars : ∀ b ∈ ext, permitted b = true)
    (blank : ∀ i, raw i = 0x20) :
    Legal ((raw.splice 0 base fitsBase).splice 8 ext fitsExt) base.length ext.length := by
  refine ⟨basePos, baseLe, by omega, fun i inside => ?_, fun i outside => ?_⟩
  · rcases inside with inBase | ⟨low, high⟩
    · rw [Bytes.splice_outside _ (by omega), Bytes.splice_inside _ (by omega) (by omega)]
      exact getD_of_all baseChars (by omega)
    · rw [Bytes.splice_inside _ low high]
      exact getD_of_all extChars (by omega)
  · rw [Bytes.splice_outside _ (by omega), Bytes.splice_outside _ (by omega), blank]

end

theorem toShortName_legal {name : List Char} {short : Bytes 11}
    (found : toShortName name = some short) : ∃ base ext, Legal short base ext := by
  unfold toShortName at found
  dsimp only at found
  split at found
  · rename_i fits
    cases found
    obtain ⟨sizes, validBase, validExt⟩ := fits
    have upper : ∀ {bytes : List UInt8}, validPart bytes = true →
        ∀ b ∈ bytes.map toUppercase, permitted b = true := by
      intro bytes valid b member
      obtain ⟨source, inside, rfl⟩ := List.mem_map.mp member
      exact permitted_toUppercase (List.all_eq_true.mp valid source inside)
    have filled : 1 ≤ (utf8Bytes ((name.splitOn '.').getD 0 [])).length :=
      List.length_pos_iff.mpr fun empty => sizes (.inr (.inl empty))
    refine ⟨_, _, legal_splice ?_ _ ?_ _ (upper validBase) (upper validExt) fun _ => rfl⟩
    · rwa [List.length_map]
    · rw [List.length_map]
      omega
  · cases found

/-! ### Aliases with a number -/

/-- The characters of aliases. -/
def AliasText (text : List Char) : Prop :=
  ∀ c ∈ text, c.toNat < 128 ∧ permitted (UInt8.ofNat c.toNat) = true

variable {text : List Char}

theorem AliasText.ascii (clean : AliasText text) :
    IsAscii text := fun c member => (clean c member).1

theorem AliasText.bytes (clean : AliasText text) : ∀ b ∈ utf8Bytes text, permitted b = true := by
  rw [utf8Bytes_ascii clean.ascii]
  intro b member
  obtain ⟨c, inside, rfl⟩ := List.mem_map.mp member
  exact (clean c inside).2

theorem AliasText.len (clean : AliasText text) :
    len text = text.length := length_utf8Bytes_ascii clean.ascii

theorem isAlphanum_iff {c : Char} :
    c.isAlphanum = true ↔ (65 ≤ c.toNat ∧ c.toNat ≤ 90) ∨
      (97 ≤ c.toNat ∧ c.toNat ≤ 122) ∨ (48 ≤ c.toNat ∧ c.toNat ≤ 57) := by
  unfold Char.isAlphanum Char.isAlpha Char.isUpper Char.isLower Char.isDigit
  simp only [Bool.or_eq_true, Bool.and_eq_true, decide_eq_true_eq, ge_iff_le,
    UInt32.le_iff_toNat_le, or_assoc]
  rfl

theorem sanitizeChar_alias (c : Char) :
    (sanitizeChar c).toNat < 128 ∧ permitted (UInt8.ofNat (sanitizeChar c).toNat) = true := by
  unfold sanitizeChar
  split
  · decide
  · rename_i ascii
    dsimp only
    split
    · rename_i kept
      have upper := toNat_toUpper c
      have small : c.toUpper.toNat < 128 := by
        split at upper <;> omega
      refine ⟨small, ?_⟩
      rcases kept with letter | special
      · have range : c.toUpper.toNat < 97 ∨ 122 < c.toUpper.toNat := by
          split at upper <;> omega
        have place := isAlphanum_iff.mp letter
        have all : ∀ n < 128, (65 ≤ n ∧ n ≤ 90) ∨ (48 ≤ n ∧ n ≤ 57) →
            permitted (UInt8.ofNat n) = true := by decide +kernel
        exact all _ small (by omega)
      · unfold permitted
        rw [special, Bool.or_true]
    · decide

theorem sanitize_alias (part : List Char) : AliasText (sanitize part) := by
  intro c member
  obtain ⟨source, -, rfl⟩ := List.mem_map.mp member
  exact sanitizeChar_alias source

theorem toDigits_alias (n : Nat) : AliasText (Nat.toDigits 10 n) := by
  intro c member
  have digit := Nat.isDigit_of_mem_toDigits (by decide) (by decide) member
  have range : 48 ≤ c.toNat ∧ c.toNat ≤ 57 := by
    unfold Char.isDigit at digit
    simp only [Bool.and_eq_true, decide_eq_true_eq, ge_iff_le, UInt32.le_iff_toNat_le] at digit
    exact digit
  have all : ∀ n < 128, 48 ≤ n ∧ n ≤ 57 → permitted (UInt8.ofNat n) = true := by decide +kernel
  exact ⟨by omega, all _ (by omega) range⟩

theorem byteTake_ascii (ascii : IsAscii text) {n : Nat}
    (inside : n ≤ text.length) : byteTake text n = some (text.take n) := by
  induction text generalizing n with
  | nil =>
    have zero : n = 0 := Nat.le_zero.mp inside
    rw [zero]
    rfl
  | cons c text induction =>
    cases n with
    | zero => rfl
    | succ n =>
      have one := utf8Size_ascii (ascii c List.mem_cons_self)
      rw [byteTake, one, if_pos (by omega), Nat.add_sub_cancel,
        induction (fun d member => ascii d (List.mem_cons_of_mem _ member))
          (Nat.le_of_succ_le_succ inside)]
      rfl

theorem AliasText.take (clean : AliasText text) (n : Nat) : AliasText (text.take n) :=
  fun c member => clean c (List.mem_of_mem_take member)

/-- Stem and extension exist and consist of characters of aliases. -/
theorem aliasParts_some (name : List Char) :
    ∃ stem ext, aliasParts name = some (stem, ext) ∧ stem ≠ [] ∧
      AliasText stem ∧ AliasText ext ∧ ext.length ≤ 3 := by
  unfold aliasParts
  obtain ⟨stem, ext⟩ := (rsplitOnce '.' name).getD (name, [])
  have extension := sanitize_alias ext
  have taken := byteTake_ascii extension.ascii
    (show min (len (sanitize ext)) 3 ≤ (sanitize ext).length by
      rw [extension.len]
      omega)
  refine ⟨if (sanitize stem).isEmpty then "FILE".toList else sanitize stem,
    (sanitize ext).take (min (len (sanitize ext)) 3), ?_, ?_, ?_,
    extension.take _, ?_⟩
  · change ((byteTake (sanitize ext) (min (len (sanitize ext)) 3)).bind _) = _
    rw [taken]
    rfl
  · split
    · decide
    · rename_i filled
      exact fun empty => filled (List.isEmpty_iff.mpr empty)
  · split
    · have letters : "FILE".toList = ['F', 'I', 'L', 'E'] := rfl
      intro c member
      rw [letters] at member
      simp only [List.mem_cons, List.not_mem_nil, or_false] at member
      rcases member with rfl | rfl | rfl | rfl <;> decide
    · exact sanitize_alias stem
  · rw [List.length_take]
    omega

theorem assemble_legal {head suffix ext : List UInt8} (filled : 1 ≤ suffix.length)
    (room : head.length + suffix.length ≤ 8) (short : ext.length ≤ 3)
    (headChars : ∀ b ∈ head, permitted b = true) (suffixChars : ∀ b ∈ suffix, permitted b = true)
    (extChars : ∀ b ∈ ext, permitted b = true) :
    ∃ raw base extent, assemble head suffix ext = some raw ∧ Legal raw base extent := by
  have whole : 0 + (head ++ suffix).length ≤ 11 := by
    rw [List.length_append]
    omega
  have chars : ∀ b ∈ head ++ suffix, permitted b = true := by
    intro b member
    rcases List.mem_append.mp member with one | two
    · exact headChars b one
    · exact suffixChars b two
  refine ⟨_, _, _, ?_, legal_splice (by rw [List.length_append]; omega) whole
    (by rw [List.length_append]; omega) (by omega) chars extChars fun _ => rfl⟩
  unfold assemble
  dsimp only
  rw [Bytes.copyFrom_eq (by omega), Option.bind_eq_bind, Option.bind_some,
    Bytes.copyFrom_eq (by omega), Option.bind_some,
    Bytes.splice_append (by omega) (by omega) (by omega) whole,
    Bytes.copyFrom_eq (by omega)]

theorem numberedAlias_legal {stem ext : List Char} {serial : Nat} (stemText : AliasText stem)
    (extText : AliasText ext) (short : ext.length ≤ 3) (small : serial < 100000) :
    ∃ raw base extent, numberedAlias stem ext serial = some raw ∧ Legal raw base extent := by
  have suffixText : AliasText ('~' :: Nat.toDigits 10 serial) := by
    intro c member
    rcases List.mem_cons.mp member with rfl | member
    · decide
    · exact toDigits_alias serial c member
  have digits := Nat.toDigits_length 10 serial 5 (by decide) small
  have suffixLen := suffixText.len
  rw [List.length_cons] at suffixLen
  have headText := stemText.take (min (len stem) (8 - len ('~' :: Nat.toDigits 10 serial)))
  have headLen := headText.len
  rw [List.length_take, stemText.len] at headLen
  unfold numberedAlias
  dsimp only
  rw [byteTake_ascii stemText.ascii (by rw [stemText.len]; omega), Option.bind_some]
  refine assemble_legal ?_ ?_ ?_ headText.bytes suffixText.bytes extText.bytes
  · change 1 ≤ len ('~' :: Nat.toDigits 10 serial)
    omega
  · change len (stem.take _) + len ('~' :: Nat.toDigits 10 serial) ≤ 8
    rw [stemText.len]
    omega
  · change len ext ≤ 3
    rw [extText.len]
    exact short

/-! ### The short entries of a directory -/

/-- A slot that `find_short_entry` compares. -/
def IsShort (e : Slot) : Prop :=
  ¬ (e 0 = 0xe5 ∨ e 11 = 0x0f ∨ e 11 &&& 0x08 ≠ 0)

/-- A short entry of the slots, before the end marker. -/
def ShortIn (items : List Placed) (e : Slot) : Prop :=
  IsShort e ∧ ∃ c i before after, items = before ++ (c, i, e) :: after ∧
    (∀ place ∈ before, place.2.2 0 ≠ 0) ∧ e 0 ≠ 0

/-- A live short entry of the directory that starts at a cluster. -/
inductive HasShort (v : Fat32) (V : View) : Nat → Slot → Prop where
  | here {c : Nat} {e : Slot} (known : v.IsCluster c)
      (inside : ShortIn (V.placed v c) e) : HasShort v V c e
  | next {c d : Nat} {e : Slot} (known : v.IsCluster c)
      (goes : ¬ V.HasEnd v c) (link : V.link v c = .ok (some d))
      (later : HasShort v V d e) : HasShort v V c e

section

variable {v : Fat32} {V : View} {m : Mem} {short : Bytes 11} {c : Nat}

theorem shortIn_cons_iff {place : Placed} {rest : List Placed} {e : Slot} :
    ShortIn (place :: rest) e ↔ place.2.2 0 ≠ 0 ∧ (IsShort e ∧ place.2.2 = e ∨ ShortIn rest e) := by
  constructor
  · rintro ⟨isShort, c, i, before, after, split, live, nonzero⟩
    cases before with
    | nil =>
      cases split
      exact ⟨nonzero, .inl ⟨isShort, rfl⟩⟩
    | cons first before =>
      rw [List.cons_append] at split
      obtain ⟨same, others⟩ := List.cons.inj split
      subst same
      refine ⟨live _ List.mem_cons_self, .inr ⟨isShort, c, i, before, after,
        others, fun place member => ?_, nonzero⟩⟩
      exact live place (List.mem_cons_of_mem _ member)
  · obtain ⟨c, i, slot⟩ := place
    rintro ⟨nonzero, ⟨isShort, rfl⟩ | ⟨isShort, d, j, before, after, split, live, other⟩⟩
    · exact ⟨isShort, c, i, [], rest, rfl, List.forall_mem_nil _, nonzero⟩
    · refine ⟨isShort, d, j, (c, i, slot) :: before, after, ?_, ?_, other⟩
      · rw [split]
        rfl
      · intro place member
        rcases List.mem_cons.mp member with rfl | member
        · exact nonzero
        · exact live place member

/-- A scan for a short name that passes over slots has compared them. -/
theorem scanPlaced_short (items : List Placed) :
    match scanPlaced (findShortStep short) items () with
    | .inl (some _) => ∃ e, ShortIn items e ∧ shortBytes e = short
    | .inl none => (∃ place ∈ items, place.2.2 0 = 0) ∧
        ∀ e, ShortIn items e → shortBytes e ≠ short
    | .inr _ => (∀ place ∈ items, place.2.2 0 ≠ 0) ∧
        ∀ e, ShortIn items e → shortBytes e ≠ short := by
  induction items with
  | nil =>
    refine ⟨List.forall_mem_nil _, ?_⟩
    rintro e ⟨-, c, i, before, after, split, -⟩
    simp at split
  | cons place rest induction =>
    obtain ⟨c, i, slot⟩ := place
    rw [scanPlaced, findShortStep]
    by_cases ends : slot 0 = 0
    · rw [if_pos ends]
      refine ⟨⟨_, List.mem_cons_self, ends⟩, fun e inside => ?_⟩
      exact absurd ends (shortIn_cons_iff.mp inside).1
    · rw [if_neg ends]
      have goesOn : (IsShort slot → shortBytes slot ≠ short) →
          match scanPlaced (findShortStep short) rest () with
          | .inl (some _) =>
            ∃ e, ShortIn ((c, i, slot) :: rest) e ∧ shortBytes e = short
          | .inl none =>
            (∃ place ∈ (c, i, slot) :: rest, place.2.2 0 = 0) ∧
            ∀ e, ShortIn ((c, i, slot) :: rest) e → shortBytes e ≠ short
          | .inr _ =>
            (∀ place ∈ (c, i, slot) :: rest, place.2.2 0 ≠ 0) ∧
            ∀ e, ShortIn ((c, i, slot) :: rest) e → shortBytes e ≠ short := by
        intro differs
        have all : (∀ e, ShortIn rest e → shortBytes e ≠ short) →
            ∀ e, ShortIn ((c, i, slot) :: rest) e →
              shortBytes e ≠ short := by
          intro later e inside
          rcases (shortIn_cons_iff.mp inside).2 with ⟨isShort, rfl⟩ | inside
          · exact differs isShort
          · exact later e inside
        revert induction
        cases scanPlaced (findShortStep short) rest () with
        | inl found =>
          cases found with
          | none =>
            rintro ⟨⟨place, member, zero⟩, later⟩
            exact ⟨⟨place, List.mem_cons_of_mem _ member, zero⟩, all later⟩
          | some location =>
            rintro ⟨e, inside, equal⟩
            exact ⟨e, shortIn_cons_iff.mpr ⟨ends, .inr inside⟩, equal⟩
        | inr _ =>
          rintro ⟨live, later⟩
          refine ⟨fun place member => ?_, all later⟩
          rcases List.mem_cons.mp member with rfl | member
          · exact ends
          · exact live place member
      by_cases skipped : slot 0 = 0xe5 ∨ slot 11 = 0x0f ∨ slot 11 &&& 0x08 ≠ 0
      · rw [if_pos skipped]
        exact goesOn fun isShort => absurd skipped isShort
      · rw [if_neg skipped]
        by_cases same : shortBytes slot = short
        · rw [if_pos same]
          exact ⟨slot, shortIn_cons_iff.mpr ⟨ends, .inl ⟨skipped, rfl⟩⟩, same⟩
        · rw [if_neg same]
          exact goesOn fun _ => same

/-- `find_short_entry` tells whether a live short entry has the name. -/
theorem scan_short {left : Nat} {result : Option EntryLocation ⊕ Unit}
    (scanned : V.scan v (findShortStep short) left c () = .ok result) :
    (scannedEntry result).isSome ↔ ∃ e, HasShort v V c e ∧ shortBytes e = short := by
  induction left generalizing c with
  | zero => cases scanned
  | succ left induction =>
    rw [View.scan] at scanned
    by_cases known : v.IsCluster c
    · rw [if_pos known, scanSlots_slots] at scanned
      have compared := @scanPlaced_short short (V.placed v c)
      revert scanned compared
      cases scanPlaced (findShortStep short) (V.placed v c) () with
      | inl found =>
        intro scanned compared
        cases scanned
        cases found with
        | none =>
          refine iff_of_false (by simp [scannedEntry]) ?_
          rintro ⟨e, has, same⟩
          cases has with
          | here _ inside => exact compared.2 e inside same
          | next _ goes => exact goes (hasEnd_iff_placed.mpr compared.1)
        | some location =>
          obtain ⟨e, inside, same⟩ := compared
          exact iff_of_true rfl ⟨e, .here known inside, same⟩
      | inr _ =>
        intro scanned compared
        have goes : ¬ V.HasEnd v c := by
          intro ends
          obtain ⟨place, member, zero⟩ := hasEnd_iff_placed.mp ends
          exact compared.1 place member zero
        dsimp only at scanned
        cases link : V.link v c with
        | error e =>
          rw [link] at scanned
          cases scanned
        | ok following =>
          rw [link] at scanned
          cases following with
          | none =>
            cases scanned
            refine iff_of_false (by simp [scannedEntry]) ?_
            rintro ⟨e, has, same⟩
            cases has with
            | here _ inside => exact compared.2 e inside same
            | next _ _ other => cases link.symm.trans other
          | some d =>
            rw [induction scanned]
            constructor
            · rintro ⟨e, has, same⟩
              exact ⟨e, .next known goes link has, same⟩
            · rintro ⟨e, has, same⟩
              cases has with
              | here _ inside =>
                exact absurd same (compared.2 e inside)
              | next _ _ other later =>
                cases link.symm.trans other
                exact ⟨e, later, same⟩
    · rw [if_neg known] at scanned
      cases scanned

theorem findShortEntry_run :
    (findShortEntry v c short).run healthy m =
      some (((view v m.disk).scan v (findShortStep short) v.clusterCount c
        ()).map scannedEntry, m) := by
  unfold findShortEntry
  cases scanned : (view v m.disk).scan v (findShortStep short) v.clusterCount c () with
  | error e =>
    rw [run_bind_error (by rw [scanChain_run, scanned])]
    rfl
  | ok result =>
    rw [run_bind_ok (by rw [scanChain_run, scanned])]
    cases result <;> rfl

/-- A live short entry of the directory has this name. -/
def Taken (v : Fat32) (V : View) (directory : Nat) (short : Bytes 11) : Prop :=
  ∃ e, HasShort v V directory e ∧ shortBytes e = short

theorem scan_error {σ β : Type} {step : Nat → Nat → Slot → σ → β ⊕ σ} {left : Nat} {s : σ}
    {e : FatError} (failed : V.scan v step left c s = .error e) : e = .corrupt := by
  induction left generalizing c s with
  | zero =>
    cases failed
    rfl
  | succ left induction =>
    rw [View.scan] at failed
    split at failed
    · split at failed
      · cases failed
      · split at failed
        · rename_i link
          cases failed
          exact link_error link
        · cases failed
        · exact induction failed
    · cases failed
      rfl

theorem findShortEntry_ends :
    (findShortEntry v c short).run healthy m = some (.error .corrupt, m) ∨
    ∃ found, (findShortEntry v c short).run healthy m =
        some (.ok found, m) ∧
      (found.isNone ↔ ¬ Taken v (view v m.disk) c short) := by
  rw [findShortEntry_run]
  cases scanned : (view v m.disk).scan v (findShortStep short) v.clusterCount c () with
  | error e =>
    rw [scan_error scanned]
    exact .inl rfl
  | ok result =>
    refine .inr ⟨_, rfl, ?_⟩
    rw [← Option.not_isSome, Bool.not_eq_true', ← Bool.not_eq_true, scan_short scanned]
    rfl

/-! ### The choice -/

/-- What `choose_short_alias` may return for a directory, where the numbered
aliases from `serial` on to `limit` are tried. -/
structure Chosen (v : Fat32) (V : View) (directory : Nat)
    (stem ext : List Char) (serial limit : Nat)
    (outcome : Except FatError (Bytes 11)) : Prop where
  legal : ∀ raw, outcome = .ok raw → ∃ base extent, Legal raw base extent
  free : ∀ raw, outcome = .ok raw → ¬ Taken v V directory raw
  full : outcome = .error .noSpace → ∀ n, serial ≤ n → n < limit →
    ∃ raw, numberedAlias stem ext n = some raw ∧ Taken v V directory raw

theorem chosen_corrupt {stem ext : List Char} {serial limit : Nat} :
    Chosen v V c stem ext serial limit (.error .corrupt) :=
  ⟨nofun, nofun, nofun⟩

theorem aliasLoop_chooses {stem ext : List Char} (stemText : AliasText stem)
    (extText : AliasText ext) (few : ext.length ≤ 3) {left serial : Nat}
    (small : serial + left ≤ 100000) :
    ∃ outcome, (aliasLoop v c stem ext left serial).run healthy m =
        some (outcome, m) ∧
      Chosen v (view v m.disk) c stem ext serial (serial + left) outcome := by
  induction left generalizing serial with
  | zero =>
    refine ⟨_, rfl, nofun, nofun, fun _ n low high => ?_⟩
    omega
  | succ left induction =>
    obtain ⟨raw, base, extent, made, legal⟩ :=
      numberedAlias_legal stemText extText few (show serial < 100000 by omega)
    rw [aliasLoop, made, run_bind_ok (run_unwrap_some _)]
    rcases @findShortEntry_ends v m raw c with failed | ⟨found, ran, none⟩
    · rw [run_bind_error failed]
      exact ⟨_, rfl, chosen_corrupt⟩
    · rw [run_bind_ok ran]
      by_cases absent : found.isNone = true
      · rw [if_pos absent]
        refine ⟨_, rfl, ?_, ?_, nofun⟩
        · rintro _ ⟨⟩
          exact ⟨base, extent, legal⟩
        · rintro _ ⟨⟩
          exact none.mp absent
      · rw [if_neg absent]
        obtain ⟨outcome, rest, chosen⟩ :=
          @induction (serial + 1) (by omega)
        refine ⟨outcome, rest, chosen.legal, chosen.free, ?_⟩
        intro full n low high
        rcases Nat.eq_or_lt_of_le low with rfl | above
        · exact ⟨raw, made, not_not.mp (mt none.mpr absent)⟩
        · exact chosen.full full n above (by omega)

end

/-- For every directory and name, on any volume, `choose_short_alias` ends; its
alias is a padded 8.3 name that no live short entry has, and it gives up only
where every number is taken. -/
theorem chooseShortAlias_legal_and_free (v : Fat32) (m : Mem) (directory : Nat) (name : List Char) :
    ∃ outcome stem ext,
      (chooseShortAlias v directory name).run healthy m = some (outcome, m) ∧
      aliasParts name = some (stem, ext) ∧
      Chosen v (view v m.disk) directory stem ext 1 100000 outcome ∧
      ∀ raw, outcome = .ok raw → raw 0 ≠ 0x20 ∧ raw 0 ≠ 0 ∧ raw 0 ≠ 0xe5 := by
  obtain ⟨stem, ext, parts, -, stemText, extText, few⟩ := aliasParts_some name
  have first : ∀ {outcome : Except FatError (Bytes 11)},
      Chosen v (view v m.disk) directory stem ext 1 100000 outcome →
      ∀ raw, outcome = .ok raw →
        raw 0 ≠ 0x20 ∧ raw 0 ≠ 0 ∧ raw 0 ≠ 0xe5 := by
    intro outcome chosen raw equal
    obtain ⟨base, extent, legal⟩ := chosen.legal raw equal
    exact permitted_ne (legal.chars 0 (.inl legal.base_pos))
  obtain ⟨outcome, numbered, chosen⟩ :=
    @aliasLoop_chooses v m directory stem ext stemText extText few 99999 1 (by decide)
  have rest : (chooseNumbered v directory name).run healthy m = some (outcome, m) := by
    unfold chooseNumbered
    rw [parts, run_bind_ok (run_unwrap_some _)]
    exact numbered
  unfold chooseShortAlias
  cases plain : toShortName name with
  | none => exact ⟨outcome, stem, ext, rest, parts, chosen, first chosen⟩
  | some short =>
    dsimp only
    rcases @findShortEntry_ends v m short directory with
      failed | ⟨found, ran, none⟩
    · rw [run_bind_error failed]
      exact ⟨_, stem, ext, rfl, parts, chosen_corrupt, first chosen_corrupt⟩
    · rw [run_bind_ok ran]
      by_cases absent : found.isNone = true
      · rw [if_pos absent]
        have chosen : Chosen v (view v m.disk) directory stem ext 1 100000 (.ok short) := by
          refine ⟨?_, ?_, nofun⟩
          · rintro _ ⟨⟩
            exact toShortName_legal plain
          · rintro _ ⟨⟩
            exact none.mp absent
        exact ⟨_, stem, ext, rfl, parts, chosen, first chosen⟩
      · rw [if_neg absent]
        exact ⟨outcome, stem, ext, rest, parts, chosen, first chosen⟩

end Eonos.Fat
