import Eonos.Fat.Aliases
import Eonos.Fat.Directory

/-!
# The operations that only read

Whatever the device answers, looking something up reads only sectors of the
volume, and never panics.  What is found lies in the volume, however
inconsistent the allocation table and the directories are.
-/

namespace Eonos.Fat

open Eonos.Lib
open Eonos.Lib.Script

/-- The calls that change nothing. -/
def Fat32.Reading (v : Fat32) : Call → Prop
  | .readSector lba => lba < v.extent
  | .loadHint => True
  | .loadInvalidated => True
  | _ => False

/-- A script that only reads. -/
def Quiet {α : Type} (v : Fat32) (x : FatIo α) (post : α → Prop) : Prop :=
  Confined v.Reading x post

section

variable {α β σ : Type} {v : Fat32} {x : FatIo α} {post : α → Prop}

theorem quiet_checked {n : Nat} (small : n < 2 ^ 64) :
    Quiet v (checked n) (· = n) := confined_unwrap (if_pos small)

theorem quiet_minus {a b : Nat} (le : b ≤ a) :
    Quiet v (minus a b) (· = a - b) := confined_unwrap (if_pos le)

theorem quiet_readSector {lba : Nat} (inside : lba < v.extent) :
    Quiet v (readSector lba) fun _ => True :=
  confined_bind (confined_ask (Call.readSector lba) inside)
    fun _ _ => confined_okOr.mono fun _ _ => trivial

/-! ### The allocation table -/

variable {c value : Nat}

theorem quiet_fatEntry : Quiet v (fatEntry v c) fun _ => True := by
  refine confined_bind confined_require fun _ inside => ?_
  refine confined_bind confined_require fun _ _ => ?_
  have bounds := (Fat32.fatLba_bounds v.fatCount_pos inside).2
  have whole := @Fat32.dataStart_le_extent v
  refine confined_bind (quiet_readSector ?_) fun _ _ => confined_pure trivial
  unfold Fat32.fatLba at bounds
  omega

theorem quiet_clusterLba :
    Quiet v (clusterLba v c) fun first => v.IsCluster c ∧ first = v.clusterStart c :=
  confined_bind confined_require fun _ known => confined_pure ⟨known, rfl⟩

theorem quiet_nextCluster :
    Quiet v (nextCluster v c) fun next => v.IsCluster c ∧ ∀ d, next = some d → v.IsCluster d := by
  refine confined_bind confined_require fun _ known => ?_
  refine confined_bind quiet_fatEntry fun entry _ => confined_done ?_
  intro next decoded
  refine ⟨known, ?_⟩
  rintro d rfl
  unfold decodeLink at decoded
  split at decoded
  · cases decoded
  · split at decoded
    · cases decoded
    · split at decoded
      · cases decoded
      · rename_i inside
        cases decoded
        exact ⟨by omega, by omega⟩

/-! ### Reading clusters -/

theorem quiet_readSectors {first count : Nat} (inside : first + count ≤ v.extent) :
    Quiet v (readSectors first count) fun data => data.length = count := by
  induction count generalizing first with
  | zero => exact confined_pure rfl
  | succ count induction =>
    refine confined_bind (quiet_readSector (by omega)) fun sector _ => ?_
    refine confined_bind (induction (by omega)) ?_
    rintro rest rfl
    exact confined_pure rfl

theorem quiet_readCluster :
    Quiet v (readCluster v c) fun data => v.IsCluster c ∧ data.length = v.sectorsPerCluster := by
  refine confined_bind quiet_clusterLba ?_
  rintro first ⟨known, rfl⟩
  have positive := v.spc_pos
  have bounds := Fat32.clusterSector_bounds known
    (show v.sectorsPerCluster - 1 < v.sectorsPerCluster by omega)
  exact (quiet_readSectors (by omega)).mono fun _ length => ⟨known, length⟩

theorem length_slots (data : List Sector) : (slots data).length = 16 * data.length := by
  induction data with
  | nil => rfl
  | cons sector rest induction =>
    rw [slots, List.flatMap_cons, List.length_append, length_sectorSlots, List.length_cons]
    change 16 + (slots rest).length = _
    omega

/-- What a loop over slots returns comes from one of them. -/
theorem scanSlots_inl {step : Nat → Slot → σ → β ⊕ σ} {items : List Slot} {index : Nat} {s : σ}
    {b : β} (stopped : scanSlots step index items s = .inl b) :
    ∃ i < items.length, ∃ e t, step (index + i) e t = .inl b := by
  induction items generalizing index s with
  | nil => cases stopped
  | cons e rest induction =>
    rw [scanSlots] at stopped
    cases here : step index e s with
    | inl b' =>
      rw [here] at stopped
      cases stopped
      exact ⟨0, Nat.zero_lt_succ _, e, s, here⟩
    | inr t =>
      rw [here] at stopped
      obtain ⟨i, small, e, t, found⟩ := induction stopped
      refine ⟨i + 1, Nat.succ_lt_succ small, e, t, ?_⟩
      rw [← found]
      congr 1
      omega

theorem quiet_scanChain {step : Nat → Nat → Slot → σ → β ⊕ σ} {R : β → Prop}
    (valid : ∀ c i e s b, v.IsCluster c → i < 16 * v.sectorsPerCluster →
      step c i e s = .inl b → R b) (left : Nat) (s : σ) :
    Quiet v (scanChain v step left c s) fun result => ∀ b, result = .inl b → R b := by
  induction left generalizing c s with
  | zero => exact confined_fail
  | succ left induction =>
    refine confined_bind quiet_readCluster ?_
    rintro data ⟨known, length⟩
    cases scanned : scanSlots (step c) 0 (slots data) s with
    | inl b =>
      refine confined_pure ?_
      rintro _ ⟨⟩
      obtain ⟨i, small, e, t, found⟩ := scanSlots_inl scanned
      rw [length_slots, length] at small
      rw [Nat.zero_add] at found
      exact valid c i e t b known small found
    | inr s =>
      refine confined_bind quiet_nextCluster ?_
      rintro (_ | next) -
      · exact confined_pure nofun
      · exact induction s

/-- A place that some slot of a cluster has. -/
structure ValidPlace (v : Fat32) (location : EntryLocation) : Prop where
  known : v.IsCluster location.cluster
  aligned : location.offset % 32 = 0
  inside : location.offset < v.clusterBytes

theorem validPlace_locate {i first size : Nat} {isDir : Bool} (known : v.IsCluster c)
    (small : i < 16 * v.sectorsPerCluster) : ValidPlace v ⟨c, i * 32, first, size, isDir⟩ := by
  refine ⟨known, by dsimp only; omega, ?_⟩
  unfold Fat32.clusterBytes sectorSize
  dsimp only
  omega

theorem quiet_directoryEntries : Quiet v (directoryEntries v c) fun _ => True := by
  refine confined_bind (quiet_scanChain (R := fun _ => True)
    (fun _ _ _ _ _ _ _ _ => trivial) _ _) fun result _ => ?_
  split <;> exact confined_pure trivial

theorem quiet_findShortEntry {short : Bytes 11} :
    Quiet v (findShortEntry v c short) fun _ => True := by
  refine confined_bind (quiet_scanChain (R := fun _ => True)
    (fun _ _ _ _ _ _ _ _ => trivial) _ _) fun result _ => ?_
  split <;> exact confined_pure trivial

/-- What `find_named_entry` returns lies in the volume. -/
structure ValidEntry (v : Fat32) (location : EntryLocation) : Prop
    extends ValidPlace v location where
  size_lt : location.size < 2 ^ 32

theorem quiet_findNamedEntry {name : List Char} :
    Quiet v (findNamedEntry v c name) fun found =>
      ∀ location, found = some location → ValidEntry v location := by
  refine confined_bind (quiet_scanChain (R := fun found =>
    ∀ location, found = some location → ValidEntry v location) ?_ _ _)
    fun result valid => ?_
  · intro c i e s b known small found
    unfold findNamedStep at found
    split at found
    · cases found
      exact nofun
    · cases found
    · split at found
      · cases found
        rintro _ ⟨⟩
        exact ⟨validPlace_locate known small, e.u32le_lt _⟩
      · cases found
  · cases result with
    | inl found => exact confined_pure (valid found rfl)
    | inr _ => exact confined_pure nofun

/-! ### Paths and reading -/

variable {path : List Char} {offset : Nat} {location : EntryLocation}

theorem quiet_resolve : Quiet v (resolve v path) fun _ => True := by
  have loop : ∀ components cluster last,
      Quiet v (resolveLoop v components cluster last) fun _ => True := by
    intro components
    induction components with
    | nil => exact fun _ _ => confined_pure trivial
    | cons component rest induction =>
      intro cluster last
      unfold resolveLoop
      split
      · exact induction _ _
      · split
        · exact confined_fail
        · split
          · exact confined_fail
          · refine confined_bind quiet_directoryEntries fun _ _ => ?_
            exact confined_bind confined_okOr fun _ _ => induction _ _
  unfold resolve
  dsimp only
  split
  · exact confined_pure trivial
  · exact loop _ _ _

theorem quiet_stat : Quiet v (stat v path) fun _ => True :=
  confined_bind quiet_resolve fun _ _ => confined_pure trivial

theorem quiet_list : Quiet v (list v path) fun _ => True := by
  refine confined_bind quiet_resolve fun _ _ => ?_
  refine confined_bind confined_require fun _ _ => ?_
  exact confined_bind quiet_directoryEntries fun _ _ => confined_pure trivial

/-- A slice within the cluster exists. -/
theorem slice_some {data : List Sector} {start n : Nat} (inside : start + n ≤ data.length * 512) :
    ∃ bytes, slice data start n = some bytes ∧ bytes.length = n := by
  have byte : ∀ i < n, ∃ b, byteAt data (start + i) = some b := by
    intro i small
    have index : (start + i) / 512 < data.length := by omega
    exact ⟨_, by rw [byteAt, List.getElem?_eq_getElem index, Option.map_some]⟩
  have all : ∀ items : List Nat, (∀ i ∈ items, i < n) →
      ∃ bytes, items.mapM (fun i => byteAt data (start + i)) = some bytes ∧
        bytes.length = items.length := by
    intro items
    induction items with
    | nil => exact fun _ => ⟨[], rfl, rfl⟩
    | cons i rest induction =>
      intro small
      obtain ⟨b, here⟩ := byte i (small i List.mem_cons_self)
      obtain ⟨bytes, others, length⟩ := induction fun j member =>
        small j (List.mem_cons_of_mem _ member)
      refine ⟨b :: bytes, ?_, by rw [List.length_cons, length, List.length_cons]⟩
      rw [List.mapM_cons, here, others]
      rfl
  obtain ⟨bytes, found, length⟩ := all (List.range n) fun i =>
    List.mem_range.mp
  rw [List.length_range] at length
  exact ⟨bytes, found, length⟩

theorem quiet_readLoop {wanted left cluster inCluster steps : Nat} {out : List UInt8}
    (inside : inCluster < v.clusterBytes) :
    Quiet v (readLoop v wanted left cluster inCluster steps out) fun _ => True := by
  induction left generalizing cluster inCluster steps out with
  | zero => exact confined_pure trivial
  | succ left induction =>
    unfold readLoop
    split
    · exact confined_pure trivial
    · rename_i more
      refine confined_bind confined_require fun _ _ => ?_
      refine confined_bind quiet_readCluster ?_
      rintro data ⟨-, length⟩
      refine confined_bind (quiet_minus (by omega)) ?_
      rintro missing rfl
      refine confined_bind (quiet_minus inside.le) ?_
      rintro rest rfl
      have bound : inCluster + min (wanted - out.length)
          (v.clusterBytes - inCluster) ≤ data.length * 512 := by
        rw [length]
        unfold Fat32.clusterBytes sectorSize at *
        omega
      obtain ⟨bytes, found, -⟩ := slice_some bound
      refine confined_bind (confined_unwrap found) ?_
      rintro _ rfl
      dsimp only
      split
      · refine confined_bind quiet_nextCluster fun next _ => ?_
        exact confined_bind confined_okOr fun _ _ => induction Fat32.clusterBytes_pos
      · exact confined_pure trivial

theorem quiet_readAt {size : Nat} : Quiet v (readAt v path offset size) fun _ => True := by
  have skip : ∀ count cluster steps, Quiet v (skipLoop v count cluster steps) fun _ => True := by
    intro count
    induction count with
    | zero => exact fun _ _ => confined_pure trivial
    | succ count induction =>
      intro cluster steps
      refine confined_bind quiet_nextCluster fun next _ => ?_
      refine confined_bind confined_okOr fun _ _ => ?_
      exact confined_bind confined_require fun _ _ => induction _ _
  refine confined_bind quiet_resolve fun _ _ => ?_
  refine confined_bind confined_require fun _ _ => ?_
  split
  · exact confined_pure trivial
  · refine confined_bind (skip _ _ _) fun _ _ => ?_
    exact quiet_readLoop (Nat.mod_lt _ Fat32.clusterBytes_pos)

theorem quiet_readFile : Quiet v (readFile v path) fun _ => True := by
  refine confined_bind quiet_stat fun _ _ => ?_
  refine confined_bind confined_require fun _ _ => ?_
  refine confined_bind confined_require fun _ _ => ?_
  refine confined_bind quiet_readAt fun _ _ => ?_
  exact confined_bind confined_require fun _ _ => confined_pure trivial

theorem quiet_parentAndName : Quiet v (parentAndName v path) fun _ => True := by
  refine confined_bind confined_require fun _ _ => ?_
  have parent : ∀ parentPath, Quiet v (resolveParent v parentPath) fun _ => True := by
    intro parentPath
    unfold resolveParent
    split
    · exact confined_pure trivial
    · refine confined_bind quiet_resolve fun _ _ => ?_
      exact confined_bind confined_require fun _ _ => confined_pure trivial
  exact confined_bind (parent _) fun _ _ =>
    confined_bind confined_require fun _ _ => confined_pure trivial

/-! ### Names -/

theorem quiet_chooseShortAlias {name : List Char} :
    Quiet v (chooseShortAlias v c name) fun _ => True := by
  have loop : ∀ {stem ext : List Char}, AliasText stem → AliasText ext →
      ext.length ≤ 3 → ∀ left serial, serial + left ≤ 100000 →
      Quiet v (aliasLoop v c stem ext left serial) fun _ => True := by
    intro stem ext stemText extText few left
    induction left with
    | zero => exact fun _ _ => confined_fail
    | succ left induction =>
      intro serial small
      obtain ⟨raw, -, -, made, -⟩ := numberedAlias_legal stemText extText few
        (show serial < 100000 by omega)
      refine confined_bind (confined_unwrap made) fun _ _ => ?_
      refine confined_bind quiet_findShortEntry fun _ _ => ?_
      split
      · exact confined_pure trivial
      · exact induction _ (by omega)
  have numbered : Quiet v (chooseNumbered v c name) fun _ => True := by
    obtain ⟨stem, ext, parts, -, stemText, extText, few⟩ :=
      aliasParts_some name
    refine confined_bind (confined_unwrap parts) ?_
    rintro _ rfl
    exact loop stemText extText few _ _ (by decide)
  unfold chooseShortAlias
  split
  · exact numbered
  · refine confined_bind quiet_findShortEntry fun _ _ => ?_
    split
    · exact confined_pure trivial
    · exact numbered

/-! ### Chains and entries -/

theorem quiet_collectChain :
    Quiet v (collectChain v c) fun chain =>
      (∀ d ∈ chain, v.IsCluster d) ∧ (c ≠ 0 → chain ≠ []) := by
  have loop : ∀ left cluster, Quiet v (collectLoop v left cluster) fun chain =>
        (∀ d ∈ chain, v.IsCluster d) ∧ chain ≠ [] := by
    intro left
    induction left with
    | zero => exact fun _ => confined_fail
    | succ left induction =>
      intro cluster
      refine confined_bind quiet_nextCluster ?_
      rintro (_ | next) ⟨known, -⟩
      · refine confined_pure ⟨?_, List.cons_ne_nil _ _⟩
        rintro d member
        rwa [List.mem_singleton.mp member]
      · refine confined_bind (induction next) ?_
        rintro rest ⟨all, -⟩
        exact confined_pure ⟨List.forall_mem_cons.mpr ⟨known, all⟩, List.cons_ne_nil _ _⟩
  unfold collectChain
  split
  · rename_i none
    exact confined_pure ⟨List.forall_mem_nil _, fun some => absurd none some⟩
  · exact (loop _ _).mono fun chain facts => ⟨facts.1, fun _ => facts.2⟩

theorem place_sector (inside : offset < v.clusterBytes) :
    offset / sectorSize < v.sectorsPerCluster := by
  unfold Fat32.clusterBytes at inside
  exact Nat.div_lt_of_lt_mul (by rwa [Nat.mul_comm])

theorem place_lba (known : v.IsCluster c) (inside : offset < v.clusterBytes) :
    v.clusterStart c + offset / sectorSize < v.extent ∧
      v.clusterStart c + offset / sectorSize < 2 ^ 64 := by
  have bounds := Fat32.clusterSector_bounds known (place_sector inside)
  have small := v.extent_lt
  unfold Fat32.extent at *
  omega

theorem quiet_readEntry (valid : ValidPlace v location) :
    Quiet v (readEntry v location) fun _ => True := by
  have lba := place_lba valid.known valid.inside
  refine confined_bind quiet_clusterLba ?_
  rintro first ⟨-, rfl⟩
  refine confined_bind (quiet_checked lba.2) ?_
  rintro _ rfl
  refine confined_bind (quiet_readSector lba.1) fun sector _ => ?_
  have aligned := valid.aligned
  have fits : location.offset % sectorSize + 32 ≤ 512 := by
    unfold sectorSize
    omega
  exact (confined_unwrap (dif_pos fits)).mono fun _ _ => trivial

theorem removalSlots_valid (location : EntryLocation) {items : List Slot} {index : Nat}
    {pending : List EntryLocation} (fits : index + items.length ≤ 16 * v.sectorsPerCluster)
    (known : v.IsCluster c) (valid : ∀ l ∈ pending, ValidPlace v l) :
    (∀ l ∈ (removalSlots location c index items pending).1, ValidPlace v l) ∧
      ∀ l ∈ (removalSlots location c index items pending).2,
        ValidPlace v l := by
  induction items generalizing index pending with
  | nil => exact ⟨valid, List.forall_mem_nil _⟩
  | cons e rest induction =>
    rw [List.length_cons] at fits
    have none : ∀ l ∈ ([] : List EntryLocation), ValidPlace v l :=
      List.forall_mem_nil _
    have more : ∀ l ∈ pending ++ [⟨c, index * 32, 0, 0, false⟩],
        ValidPlace v l := by
      intro l member
      rcases List.mem_append.mp member with old | new
      · exact valid l old
      · rw [List.mem_singleton.mp new]
        exact validPlace_locate known (by omega)
    unfold removalSlots
    dsimp only
    split
    · exact ⟨valid, none⟩
    split
    · exact induction (by omega) none
    split
    · exact induction (by omega) more
    split
    · exact ⟨none, more⟩
    · exact induction (by omega) none

theorem quiet_findRemoval {chain : List Nat} {pending : List EntryLocation}
    (valid : ∀ l ∈ pending, ValidPlace v l) :
    Quiet v (findRemoval v location chain pending) fun found => ∀ l ∈ found, ValidPlace v l := by
  induction chain generalizing pending with
  | nil => exact confined_pure (List.forall_mem_nil _)
  | cons cluster rest induction =>
    refine confined_bind quiet_readCluster ?_
    rintro data ⟨known, length⟩
    have slots := removalSlots_valid location
      (show 0 + (slots data).length ≤ 16 * v.sectorsPerCluster by
        rw [length_slots, length, Nat.zero_add]) known valid
    dsimp only
    split
    · exact induction slots.1
    · exact confined_pure slots.2

theorem quiet_checkRemovable : Quiet v (checkRemovable v location) fun _ => True := by
  unfold checkRemovable
  split
  · exact confined_bind quiet_directoryEntries fun _ _ =>
      confined_require.mono fun _ _ => trivial
  · exact confined_pure trivial

end

end Eonos.Fat
