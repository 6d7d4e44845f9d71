import Eonos.Lib.Bytes

/-!
# The interrupt controllers of the machine

`parse_madt` over the memory mapped at the table.  A read outside the declared
length has no answer: the outer option of a result says that there was none,
and that the loop ended.
-/

namespace Eonos.Acpi

open Eonos.Lib

structure IoApicInfo where
  id : Nat
  mmioBase : Nat
  gsiBase : Nat
deriving DecidableEq, Repr

structure IsaOverride where
  isaIrq : Nat
  gsi : Nat
  flags : Nat
deriving DecidableEq, Repr

/-- The arrays of the source up to their counts. -/
structure MadtInfo where
  localApicAddr : Nat
  ioapics : List IoApicInfo
  overrides : List IsaOverride
deriving DecidableEq, Repr

def maxIoapics : Nat := 4

def maxOverrides : Nat := 16

def madtEntryIoapic : Nat := 1

def madtEntryIsaOverride : Nat := 2

def madtEntryLocalApicOverride : Nat := 5

/-- `size_of::<MadtHeader>()`. -/
def headerSize : Nat := 44

def checksumOk (bytes : List UInt8) : Bool := bytes.foldl (· + ·) 0 == 0

/-- What one entry adds. -/
def readEntry (table : List UInt8) (offset entryType entryLen : Nat)
    (info : MadtInfo) : Option MadtInfo :=
  if entryType = madtEntryIoapic ∧ 12 ≤ entryLen then
    if info.ioapics.length < maxIoapics then do
      let id ← readLe table (offset + 2) 1
      let mmioBase ← readLe table (offset + 4) 4
      let gsiBase ← readLe table (offset + 8) 4
      return { info with
        ioapics := info.ioapics ++ [⟨id, mmioBase, gsiBase⟩] }
    else return info
  else if entryType = madtEntryIsaOverride ∧ 10 ≤ entryLen then
    if info.overrides.length < maxOverrides then do
      let isaIrq ← readLe table (offset + 3) 1
      let gsi ← readLe table (offset + 4) 4
      let flags ← readLe table (offset + 8) 2
      return { info with
        overrides := info.overrides ++ [⟨isaIrq, gsi, flags⟩] }
    else return info
  else if entryType = madtEntryLocalApicOverride ∧ 12 ≤ entryLen then do
    let addr64 ← readLe table (offset + 4) 8
    return if addr64 ≠ 0 then { info with localApicAddr := addr64 } else info
  else return info

/-- The loop over the entries, with a limit on its rounds; `some none` is a
malformed entry. -/
def entryLoop (table : List UInt8) :
    Nat → Nat → MadtInfo → Option (Option MadtInfo)
  | 0, _, _ => none
  | left + 1, offset, info =>
    if offset + 2 ≤ table.length then do
      let entryType ← readLe table offset 1
      let entryLen ← readLe table (offset + 1) 1
      if entryLen < 2 ∨ table.length < offset + entryLen then return none
      else do
        let info ← readEntry table offset entryType entryLen info
        entryLoop table left (offset + entryLen) info
    else return some info

def parseMadt (mapped : List UInt8) : Option (Option MadtInfo) := do
  let totalLen ← readLe mapped 4 4
  if mapped.take 4 ≠ [0x41, 0x50, 0x49, 0x43] ∨ totalLen < headerSize ∨
      0x10000 < totalLen then return none
  else if mapped.length < totalLen then none
  else if checksumOk (mapped.take totalLen) = false then return none
  else do
    let localApicAddr ← readLe (mapped.take totalLen) 36 4
    let parsed ← entryLoop (mapped.take totalLen) totalLen headerSize
      ⟨localApicAddr, [], []⟩
    return parsed.filter fun info => info.ioapics ≠ []

/-! ### What the entries say -/

/-- The bytes are entries one after the other, each as long as its second byte
says; one byte may be left. -/
inductive Chained : List UInt8 → List (List UInt8) → Prop
  | done {bytes : List UInt8} (short : bytes.length ≤ 1) : Chained bytes []
  | entry {kind size : UInt8} {body rest : List UInt8}
      {entries : List (List UInt8)}
      (exact : size.toNat = body.length + 2) (chain : Chained rest entries) :
      Chained ((kind :: size :: body) ++ rest) ((kind :: size :: body) :: entries)

/-- An entry of this type and at least this length. -/
def IsEntry (kind least : Nat) (entry : List UInt8) : Prop :=
  field entry 0 1 = kind ∧ least ≤ entry.length

instance (kind least : Nat) (entry : List UInt8) :
    Decidable (IsEntry kind least entry) :=
  inferInstanceAs (Decidable (_ ∧ _))

def ioapicsOf (entries : List (List UInt8)) : List IoApicInfo :=
  (entries.filter (IsEntry madtEntryIoapic 12)).map fun entry =>
    ⟨field entry 2 1, field entry 4 4, field entry 8 4⟩

def overridesOf (entries : List (List UInt8)) : List IsaOverride :=
  (entries.filter (IsEntry madtEntryIsaOverride 10)).map fun entry =>
    ⟨field entry 3 1, field entry 4 4, field entry 8 2⟩

/-- The local APIC addresses that are not zero. -/
def localApicsOf (entries : List (List UInt8)) : List Nat :=
  ((entries.filter (IsEntry madtEntryLocalApicOverride 12)).map fun entry =>
    field entry 4 8).filter (· ≠ 0)

/-- What is known after some entries. -/
def MadtInfo.after (info : MadtInfo) (entries : List (List UInt8)) : MadtInfo where
  localApicAddr := (localApicsOf entries).getLastD info.localApicAddr
  ioapics := (info.ioapics ++ ioapicsOf entries).take maxIoapics
  overrides := (info.overrides ++ overridesOf entries).take maxOverrides

/-- The arrays are not over-full. -/
def MadtInfo.Fits (info : MadtInfo) : Prop :=
  info.ioapics.length ≤ maxIoapics ∧ info.overrides.length ≤ maxOverrides

variable {table entry rest : List UInt8} {offset : Nat} {info : MadtInfo}

theorem after_nil (fits : info.Fits) : info.after [] = info := by
  unfold MadtInfo.after
  rw [ioapicsOf, overridesOf, localApicsOf]
  simp only [List.filter_nil, List.map_nil, List.append_nil,
    List.take_of_length_le fits.1, List.take_of_length_le fits.2]
  rfl

theorem take_append_take {Item : Type*} (a b c : List Item) (n : Nat) :
    ((a ++ b).take n ++ c).take n = (a ++ (b ++ c)).take n := by
  rw [← List.append_assoc, List.take_append, @List.take_append _ (a ++ b),
    List.take_take, Nat.min_self, List.length_take]
  congr 2
  omega

theorem after_append (one two : List (List UInt8)) :
    (info.after one).after two = info.after (one ++ two) := by
  unfold MadtInfo.after
  simp only [ioapicsOf, overridesOf, localApicsOf, List.filter_append, List.map_append,
    take_append_take, List.getLastD_eq_getLast?, List.getLast?_append]
  congr 1
  cases List.getLast? _ <;> rfl

theorem fits_after (entries : List (List UInt8)) : (info.after entries).Fits :=
  ⟨List.length_take_le _ _, List.length_take_le _ _⟩

theorem take_push {Item : Type*} {items : List Item} {n : Nat} (fits : items.length ≤ n)
    (item : Item) :
    (items ++ [item]).take n = if items.length < n then items ++ [item] else items := by
  split
  · exact List.take_of_length_le (by simpa)
  · exact List.take_left' (by omega)

/-! ### The loop -/

theorem readLe_entry (here : table.drop offset = entry ++ rest) (k width : Nat)
    (positive : 0 < width) (inside : k + width ≤ entry.length) :
    readLe table (offset + k) width = some (field entry k width) := by
  have length := congrArg List.length here
  rw [List.length_drop, List.length_append] at length
  rw [readLe_inside (by omega), field, ← List.drop_drop, here,
    List.drop_append_of_le_length (by omega),
    List.take_append_of_le_length (by rw [List.length_drop]; omega)]
  rfl

theorem filter_isEntry (kind least : Nat) :
    [entry].filter (IsEntry kind least) = if IsEntry kind least entry then [entry] else [] := by
  by_cases known : IsEntry kind least entry <;> simp [known]

theorem IsEntry.other {kind least other size : Nat} (known : IsEntry kind least entry)
    (apart : kind ≠ other) : ¬ IsEntry other size entry :=
  fun both => apart (known.1.symm.trans both.1)

theorem readEntry_eq (here : table.drop offset = entry ++ rest) (fits : info.Fits) :
    readEntry table offset (field entry 0 1) entry.length info = some (info.after [entry]) := by
  have read := readLe_entry here
  obtain ⟨ioapics, overrides⟩ := fits
  unfold readEntry MadtInfo.after ioapicsOf overridesOf localApicsOf
  simp only [filter_isEntry]
  split
  · rename_i known
    have known : IsEntry madtEntryIoapic 12 entry := known
    have long := known.2
    rw [if_pos known, if_neg (known.other (by decide)),
      if_neg (known.other (by decide)), List.map_singleton, take_push ioapics,
      List.map_nil, List.map_nil, List.append_nil, List.take_of_length_le overrides]
    split
    · rw [read 2 1 (by decide) (by omega), read 4 4 (by decide) (by omega),
        read 8 4 (by decide) (by omega)]
      rfl
    · rfl
  · rename_i noIoapic
    rw [if_neg (show ¬ IsEntry madtEntryIoapic 12 entry from noIoapic),
      List.map_nil, List.append_nil, List.take_of_length_le ioapics]
    split
    · rename_i known
      have known : IsEntry madtEntryIsaOverride 10 entry := known
      have long := known.2
      rw [if_pos known, if_neg (known.other (by decide)), List.map_singleton, take_push overrides]
      split
      · rw [read 3 1 (by decide) (by omega), read 4 4 (by decide) (by omega),
          read 8 2 (by decide) (by omega)]
        rfl
      · rfl
    · rename_i noOverride
      rw [if_neg (show ¬ IsEntry madtEntryIsaOverride 10 entry from noOverride),
        List.map_nil, List.append_nil, List.take_of_length_le overrides]
      split
      · rename_i known
        have long := known.2
        rw [if_pos (show IsEntry madtEntryLocalApicOverride 12 entry from known),
          read 4 8 (by decide) (by omega), List.map_singleton]
        by_cases zero : field entry 4 8 = 0 <;> simp [zero]
      · rename_i noLocal
        rw [if_neg (show ¬ IsEntry madtEntryLocalApicOverride 12 entry from noLocal)]
        rfl

/-- A round reads the entry at the offset and goes on behind it. -/
theorem entryLoop_entry {kind size : UInt8} {body : List UInt8}
    (here : table.drop offset = (kind :: size :: body) ++ rest)
    (exact : size.toNat = body.length + 2) (fits : info.Fits) (left : Nat) :
    entryLoop table (left + 1) offset info =
      entryLoop table left (offset + size.toNat)
        (info.after [kind :: size :: body]) := by
  have read := readLe_entry here
  have length := congrArg List.length here
  simp only [List.length_drop, List.length_append, List.length_cons] at length
  have entryType := read 0 1 (by decide) (by simp)
  have entryLen : readLe table (offset + 1) 1 = some size.toNat :=
    read 1 1 (by decide) (by simp)
  have added := readEntry_eq here fits
  rw [List.length_cons, List.length_cons, ← exact] at added
  rw [Nat.add_zero] at entryType
  rw [entryLoop, if_pos (by omega), entryType, entryLen]
  change (if _ then _ else _) = _
  rw [if_neg (by omega), added]
  rfl

theorem entryLoop_end (short : table.length < offset + 2) (left : Nat) :
    entryLoop table (left + 1) offset info = some (some info) := by
  rw [entryLoop, if_neg (by omega)]
  rfl

theorem drop_entry {kind size : UInt8} {body : List UInt8}
    (here : table.drop offset = (kind :: size :: body) ++ rest)
    (exact : size.toNat = body.length + 2) :
    table.drop (offset + size.toNat) = rest ∧ offset + size.toNat ≤ table.length := by
  have length := congrArg List.length here
  simp only [List.length_drop, List.length_append, List.length_cons] at length
  refine ⟨?_, by omega⟩
  rw [← List.drop_drop, here]
  exact List.drop_left' exact.symm

theorem entryLoop_chained {entries : List (List UInt8)} {left : Nat}
    (chain : Chained (table.drop offset) entries) (inside : offset ≤ table.length)
    (enough : table.length < offset + left) (fits : info.Fits) :
    entryLoop table left offset info = some (some (info.after entries)) := by
  induction left generalizing offset info entries with
  | zero => omega
  | succ left induction =>
    generalize here : table.drop offset = bytes at chain
    cases chain with
    | done short =>
      rw [← here, List.length_drop] at short
      rw [entryLoop_end (by omega), after_nil fits]
    | entry exact chain =>
      obtain ⟨next, inside⟩ := drop_entry here exact
      rw [entryLoop_entry here exact fits, induction (next.symm ▸ chain)
        inside (by omega) (fits_after _), after_append]
      rfl

/-- The loop ends, and without an error only behind a chain of entries. -/
theorem entryLoop_total {left : Nat} (inside : offset ≤ table.length)
    (enough : table.length < offset + left) (fits : info.Fits) :
    ∃ parsed, entryLoop table left offset info = some parsed ∧
      ∀ final, parsed = some final →
        ∃ entries, Chained (table.drop offset) entries := by
  induction left generalizing offset info with
  | zero => omega
  | succ left induction =>
    have length := @List.length_drop _ offset table
    rcases here : table.drop offset with _ | ⟨kind, _ | ⟨size, tail⟩⟩
    · rw [here, List.length_nil] at length
      exact ⟨_, entryLoop_end (by omega) left, fun _ _ => ⟨[], .done (by simp)⟩⟩
    · rw [here, List.length_singleton] at length
      exact ⟨_, entryLoop_end (by omega) left, fun _ _ => ⟨[], .done (by simp)⟩⟩
    · rw [here, List.length_cons, List.length_cons] at length
      by_cases formed : 2 ≤ size.toNat ∧ size.toNat ≤ tail.length + 2
      · have exact : size.toNat = (tail.take (size.toNat - 2)).length + 2 := by
          rw [List.length_take]
          omega
        have split : table.drop offset =
            (kind :: size :: tail.take (size.toNat - 2)) ++
              tail.drop (size.toNat - 2) := by
          rw [here, List.cons_append, List.cons_append, List.take_append_drop]
        obtain ⟨next, inside⟩ := drop_entry split exact
        obtain ⟨parsed, ran, chained⟩ :=
          induction inside (by omega) (fits_after _)
        refine ⟨parsed, (entryLoop_entry split exact fits left).trans ran, ?_⟩
        intro final done
        obtain ⟨entries, chain⟩ := chained final done
        rw [next] at chain
        rw [← here, split]
        exact ⟨_, .entry exact chain⟩
      · refine ⟨none, ?_, nofun⟩
        have whole : table.drop offset = [kind, size] ++ tail := here
        have entryType := readLe_entry whole 0 1 (by decide) (by simp)
        have entryLen : readLe table (offset + 1) 1 = some size.toNat :=
          readLe_entry whole 1 1 (by decide) (by simp)
        rw [Nat.add_zero] at entryType
        rw [entryLoop, if_pos (by omega), entryType, entryLen]
        exact if_pos (by omega)

theorem take_ioapicsOf {entries : List (List UInt8)} :
    (ioapicsOf entries).take 4 ≠ [] ↔ ∃ entry ∈ entries, IsEntry madtEntryIoapic 12 entry := by
  simp [ioapicsOf, List.take_eq_nil_iff, List.filter_eq_nil_iff]

/-- A table that is what its header says is read inside its declared length
only.  It has a result exactly when its entries chain and one is that of an I/O
APIC; the result has the first four of those, the first sixteen overrides, and
the last local address that is not zero or that of the header. -/
theorem parseMadt_exact (table rest : List UInt8) (declared : readLe table 4 4 = some table.length)
    (least : 44 ≤ table.length) (most : table.length ≤ 65536)
    (signature : table.take 4 = [0x41, 0x50, 0x49, 0x43]) (sum : checksumOk table = true) :
    ∃ result, parseMadt (table ++ rest) = some result ∧
      ∀ info, result = some info ↔
        ∃ entries, Chained (table.drop 44) entries ∧
          (∃ entry ∈ entries, IsEntry 1 12 entry) ∧
          info.ioapics = (ioapicsOf entries).take 4 ∧
          info.overrides = (overridesOf entries).take 16 ∧
          info.localApicAddr =
            (localApicsOf entries).getLastD (field table 36 4) := by
  have whole : (table ++ rest).drop 0 = table ++ rest := rfl
  have totalLen := readLe_entry whole 4 4 (by decide) (by omega)
  have address : readLe table 36 4 = some (field table 36 4) :=
    if_pos (by omega)
  have length : field table 4 4 = table.length :=
    Option.some.inj ((if_pos (by omega)).symm.trans declared)
  obtain ⟨parsed, ran, chained⟩ := @entryLoop_total table 44 ⟨field table 36 4, [], []⟩ table.length
    least (by omega) ⟨Nat.zero_le _, Nat.zero_le _⟩
  refine ⟨parsed.filter fun info => info.ioapics ≠ [], ?_, ?_⟩
  · rw [Nat.zero_add, length] at totalLen
    rw [parseMadt, totalLen]
    change (if _ then _ else _) = _
    rw [List.take_append_of_le_length (by omega), signature, if_neg (by simp [headerSize]; omega),
      if_neg (by simp), List.take_left, sum, address]
    change Option.bind (entryLoop table table.length 44 _) _ = _
    rw [ran]
    rfl
  · have result : ∀ entries, Chained (table.drop 44) entries →
        parsed = some (MadtInfo.after ⟨field table 36 4, [], []⟩ entries) :=
      fun entries chain => Option.some.inj (ran.symm.trans (entryLoop_chained chain least (by omega)
        ⟨Nat.zero_le _, Nat.zero_le _⟩))
    intro info
    rw [Option.filter_eq_some_iff, decide_eq_true_eq]
    constructor
    · rintro ⟨done, found⟩
      obtain ⟨entries, chain⟩ := chained info done
      cases done.symm.trans (result entries chain)
      exact ⟨entries, chain, take_ioapicsOf.mp found, rfl, rfl, rfl⟩
    · rintro ⟨entries, chain, found, ioapics, overrides, address⟩
      rw [ioapics, result entries chain]
      refine ⟨congrArg some ?_, take_ioapicsOf.mpr found⟩
      obtain ⟨_, _, _⟩ := info
      cases ioapics
      cases overrides
      cases address
      rfl

/-- A table with one I/O APIC and no other entry. -/
def smallTable : List UInt8 :=
  [0x41, 0x50, 0x49, 0x43, 56, 0, 0, 0] ++ List.replicate 28 0 ++
    [0, 0, 0xe0, 0xfe, 0, 0, 0, 0] ++ [1, 12, 2, 0, 0, 0, 0xc0, 0xfe, 0, 0, 0, 0]

theorem smallTable_parsed :
    checksumOk smallTable = true ∧
      parseMadt (smallTable ++ []) =
        some (some ⟨0xfee00000, [⟨2, 0xfec00000, 0⟩], []⟩) := by
  have sum : checksumOk smallTable = true := by decide +kernel
  obtain ⟨result, ran, exact⟩ := parseMadt_exact smallTable []
    (by decide +kernel) (by decide) (by decide) (by decide) sum
  rw [ran, (exact ⟨0xfee00000, [⟨2, 0xfec00000, 0⟩], []⟩).mpr ⟨ [[1, 12, 2, 0, 0, 0, 0xc0, 0xfe, 0,
    0, 0, 0]], @Chained.entry 1 12 [2, 0, 0, 0, 0xc0, 0xfe, 0, 0, 0, 0] [] [] rfl (.done
    (Nat.zero_le 1)), ⟨_, List.mem_singleton_self _, by decide⟩, by decide, by decide, by decide⟩]
  exact ⟨sum, rfl⟩

end Eonos.Acpi
