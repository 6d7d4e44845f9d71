import Eonos.Fat.Links
import Eonos.Fat.Reading

/-!
# A mounted image is confined to its volume

Whatever the device answers, the operations read and write only sectors of the
volume, write only the FSInfo sector, FAT copies and clusters, and never panic.
-/

namespace Eonos.Fat

open Eonos.Lib
open Eonos.Lib.Script

/-- The sectors the code may write. -/
def Fat32.Writable (v : Fat32) (lba : Nat) : Prop :=
  v.fsinfoSector = some lba ∨
    (∃ copy < v.fatCount, ∃ c < v.clusterEnd, lba = v.fatLba copy c) ∨
    ∃ c, v.IsCluster c ∧ ∃ s < v.sectorsPerCluster, lba = v.clusterStart c + s

/-- The calls that stay within the volume. -/
def Fat32.Allowed (v : Fat32) : Call → Prop
  | .readSector lba => lba < v.extent
  | .writeSector lba _ => v.Writable lba
  | _ => True

theorem Fat32.Reading.allowed {v : Fat32} {op : Call} (reading : v.Reading op) : v.Allowed op := by
  cases op with
  | readSector lba => exact reading
  | writeSector lba data => exact reading.elim
  | _ => trivial

/-- A script that stays within the volume. -/
def Safe {α : Type} (v : Fat32) (x : FatIo α) (post : α → Prop) : Prop :=
  Confined v.Allowed x post

section

variable {α β σ : Type} {v : Fat32} {x : FatIo α} {post : α → Prop}
  {c value : Nat}

theorem Quiet.safe (quiet : Quiet v x post) : Safe v x post :=
  quiet.widen fun _ => Fat32.Reading.allowed

theorem safe_writeSector {lba : Nat} {data : Sector} (allowed : v.Writable lba) :
    Safe v (writeSector lba data) fun _ => True :=
  confined_bind (confined_ask (Call.writeSector lba data) allowed)
    fun _ _ => confined_okOr.mono fun _ _ => trivial

theorem safe_invalidateFsinfoHint : Safe v (invalidateFsinfoHint v) fun _ => True := by
  refine confined_bind (confined_ask Call.loadInvalidated trivial) ?_
  intro done _
  split
  · exact confined_pure trivial
  · split
    · exact confined_ask Call.storeInvalidated trivial
    · rename_i no found
      have inside := (Fat32.fsinfo_lt found).2.2
      have whole := @Fat32.dataStart_le_extent v
      refine confined_bind (quiet_readSector (by omega)).safe fun sector _ => ?_
      refine confined_bind (P := fun _ => True) ?_ fun _ _ =>
        confined_ask Call.storeInvalidated trivial
      unfold clearFsinfo
      split
      · exact safe_writeSector (.inl found)
      · exact confined_pure trivial

theorem safe_setFatEntry : Safe v (setFatEntry v c value) fun _ => True := by
  refine confined_bind confined_require fun _ inside => ?_
  refine confined_bind confined_require fun _ _ => ?_
  refine confined_bind safe_invalidateFsinfoHint fun _ _ => confined_forM ?_
  intro copy member
  have known := List.mem_range.mp member
  have bounds := (Fat32.fatLba_bounds known inside).2
  have whole := @Fat32.dataStart_le_extent v
  exact confined_bind (quiet_readSector (bounds.trans_le whole)).safe fun _ _ =>
    safe_writeSector (.inr (.inl ⟨copy, known, c, inside, rfl⟩))

theorem writable_cluster {s : Nat} (known : v.IsCluster c)
    (inside : s < v.sectorsPerCluster) : v.Writable (v.clusterStart c + s) :=
  .inr (.inr ⟨c, known, s, inside, rfl⟩)

theorem safe_zeroCluster : Safe v (zeroCluster v c) fun _ => True := by
  refine confined_bind quiet_clusterLba.safe ?_
  rintro first ⟨known, rfl⟩
  refine confined_forM fun s member => ?_
  exact safe_writeSector (writable_cluster known (List.mem_range.mp member))

theorem safe_claimCluster : Safe v (claimCluster v c) fun cluster => cluster = c := by
  refine confined_bind safe_setFatEntry fun _ _ => ?_
  refine confined_bind (confined_attempt safe_zeroCluster) fun outcome _ => ?_
  cases outcome with
  | error e =>
    exact confined_bind (confined_attempt safe_setFatEntry) fun _ _ => confined_fail
  | ok _ =>
    exact confined_bind (confined_ask (Call.storeHint _) trivial) fun _ _ => confined_pure rfl

theorem safe_allocateCluster : Safe v (allocateCluster v) fun cluster => v.IsCluster cluster := by
  have loop : ∀ start left step, Safe v (allocateLoop v start left step) fun cluster =>
        v.IsCluster cluster := by
    intro start left
    induction left with
    | zero => exact fun _ => confined_fail
    | succ left induction =>
      intro step
      refine confined_bind quiet_fatEntry.safe fun entry _ => ?_
      split
      · refine safe_claimCluster.mono ?_
        rintro _ rfl
        have inside := Nat.mod_lt (start - 2 + step) v.count_pos
        unfold Fat32.IsCluster Fat32.clusterEnd
        omega
      · exact induction _
  exact confined_bind (confined_ask Call.loadHint trivial) fun _ _ => loop _ _ _

variable {offset : Nat} {location : EntryLocation} {chain added : List Nat}
  {records : List Slot} {path : List Char}

theorem safe_writeDirectoryBytes {bytes : List UInt8} (inside : offset < v.clusterBytes) :
    Safe v (writeDirectoryBytes v c offset bytes) fun _ => True := by
  refine confined_bind quiet_clusterLba.safe ?_
  rintro first ⟨known, rfl⟩
  have lba := place_lba known inside
  refine confined_bind (quiet_checked lba.2).safe ?_
  rintro _ rfl
  split
  · exact confined_bind (quiet_readSector lba.1).safe fun _ _ =>
      safe_writeSector (writable_cluster known (place_sector inside))
  · exact confined_fail

theorem safe_writeEntry {entry : Slot} (valid : ValidPlace v location) :
    Safe v (writeEntry v location entry) fun _ => True :=
  safe_writeDirectoryBytes valid.inside

theorem safe_writeEntryMetadata {first size : Nat} (valid : ValidPlace v location) :
    Safe v (writeEntryMetadata v location first size) fun _ => True :=
  confined_bind (quiet_readEntry valid).safe fun _ _ => safe_writeEntry valid

theorem safe_deleteSlot (valid : ValidPlace v location) :
    Safe v (deleteSlot v location) fun _ => True :=
  confined_bind (quiet_readEntry valid).safe fun _ _ => safe_writeEntry valid

/-! ### Chains -/

theorem safe_releaseChain : Safe v (releaseChain v chain) fun _ => True :=
  confined_forM fun _ _ => confined_bind safe_setFatEntry fun _ _ =>
    confined_ask (Call.fetchMinHint _) trivial

theorem safe_orRelease (safe : Safe v x post) : Safe v (orRelease v added x) post := by
  refine confined_bind (confined_attempt safe) fun outcome holds => ?_
  cases outcome with
  | ok a => exact confined_pure (holds a rfl)
  | error e =>
    exact confined_bind (confined_attempt safe_releaseChain) fun _ _ => confined_fail

theorem safe_rollbackChainGrowth {originalLen : Nat} (grown : originalLen ≤ chain.length) :
    Safe v (rollbackChainGrowth v chain originalLen) fun _ => True := by
  have restore : Safe v (restoreEnd v chain originalLen) fun _ => True := by
    cases originalLen with
    | zero => exact confined_pure trivial
    | succ n =>
      refine confined_bind (confined_unwrap (List.getElem?_eq_getElem grown)) fun last _ => ?_
      exact confined_bind (confined_attempt safe_setFatEntry) fun _ _ => confined_pure trivial
  refine confined_bind restore fun _ _ => ?_
  refine confined_bind (confined_unwrap (if_pos grown)) fun added _ => ?_
  exact confined_bind (confined_attempt safe_releaseChain) fun _ _ => confined_pure trivial

theorem safe_linkLast {originalLen : Nat} (grown : originalLen ≤ chain.length) :
    Safe v (linkLast v chain originalLen c) fun _ => True := by
  unfold linkLast
  split
  · exact confined_pure trivial
  · refine confined_bind (confined_attempt safe_setFatEntry) fun outcome _ => ?_
    cases outcome with
    | ok _ => exact confined_pure trivial
    | error e =>
      refine confined_bind (confined_attempt safe_setFatEntry) fun _ _ => ?_
      exact confined_bind (safe_rollbackChainGrowth grown) fun _ _ => confined_fail

/-- The chain grows at its end, by clusters. -/
structure Grown (v : Fat32) (chain grown : List Nat) : Prop where
  starts : chain <+: grown
  known : ∀ d ∈ grown, v.IsCluster d

theorem safe_ensureLoop {original : List Nat} {left : Nat} (so : Grown v original chain) :
    Safe v (ensureLoop v original.length left chain) fun grown =>
      Grown v original grown ∧ grown.length = chain.length + left := by
  induction left generalizing chain with
  | zero => exact confined_pure ⟨so, rfl⟩
  | succ left induction =>
    have length := so.starts.length_le
    refine confined_bind (confined_attempt safe_allocateCluster) fun outcome allocated => ?_
    cases outcome with
    | error e =>
      exact confined_bind (safe_rollbackChainGrowth length) fun _ _ => confined_fail
    | ok newCluster =>
      refine confined_bind (safe_linkLast length) fun _ _ => ?_
      have next : Grown v original (chain ++ [newCluster]) := by
        refine ⟨so.starts.trans ( List.prefix_append _ _), ?_⟩
        intro d member
        rcases List.mem_append.mp member with old | new
        · exact so.known d old
        · rw [List.mem_singleton.mp new]
          exact allocated newCluster rfl
      refine (induction next).mono ?_
      rintro grown ⟨holds, size⟩
      rw [List.length_append, List.length_singleton] at size
      exact ⟨holds, by omega⟩

theorem safe_ensureChain {needed : Nat} (known : ∀ d ∈ chain, v.IsCluster d) :
    Safe v (ensureChain v chain needed) fun grown =>
      Grown v chain grown ∧ needed ≤ grown.length := by
  refine (safe_ensureLoop ⟨List.prefix_rfl, known⟩).mono ?_
  rintro grown ⟨holds, size⟩
  exact ⟨holds, by omega⟩

theorem safe_writeChainRange {data : List UInt8} (small : offset + data.length < 2 ^ 64) :
    Safe v (writeChainRange v chain offset data) fun _ => True := by
  have loop : ∀ left offset (data : List UInt8),
      offset + data.length < 2 ^ 64 →
      Safe v (writeChainLoop v chain left offset data) fun _ => True := by
    intro left
    induction left with
    | zero => exact fun _ _ _ => confined_pure trivial
    | succ left induction =>
      intro offset data small
      unfold writeChainLoop
      split
      · exact confined_pure trivial
      · refine confined_bind confined_okOr fun cluster _ => ?_
        refine confined_bind quiet_clusterLba.safe ?_
        rintro first ⟨known, rfl⟩
        have inside := Nat.mod_lt offset (@Fat32.clusterBytes_pos v)
        have lba := place_lba known inside
        refine confined_bind (quiet_checked lba.2).safe ?_
        rintro _ rfl
        refine confined_bind (quiet_readSector lba.1).safe fun _ _ => ?_
        refine confined_bind (safe_writeSector
          (writable_cluster known (place_sector inside))) fun _ _ => ?_
        refine confined_bind (quiet_checked (by omega)).safe ?_
        rintro _ rfl
        refine induction _ _ ?_
        rw [List.length_drop]
        omega
  exact loop _ _ _ small

theorem safe_writeZeroRange {size : Nat} (small : offset + size < 2 ^ 64) :
    Safe v (writeZeroRange v chain offset size) fun _ => True := by
  have loop : ∀ left offset size, offset + size < 2 ^ 64 →
      Safe v (writeZeroLoop v chain left offset size) fun _ => True := by
    intro left
    induction left with
    | zero => exact fun _ _ _ => confined_pure trivial
    | succ left induction =>
      intro offset size small
      unfold writeZeroLoop
      split
      · exact confined_pure trivial
      · refine confined_bind (safe_writeChainRange ?_) fun _ _ => ?_
        · rw [List.length_replicate]
          omega
        · refine confined_bind (quiet_checked (by omega)).safe ?_
          rintro _ rfl
          exact induction _ _ (by omega)
  exact loop _ _ _ small

/-! ### Growing directories -/

theorem safe_markTail {afterEnd : Bool} : Safe v (markTail v chain afterEnd) fun _ => True := by
  have marks : ∀ cluster (items : List Slot) index afterEnd,
      index + items.length ≤ 16 * v.sectorsPerCluster →
      Safe v (markSlots v cluster index items afterEnd) fun _ => True := by
    intro cluster items
    induction items with
    | nil => exact fun _ _ _ => confined_pure trivial
    | cons e rest induction =>
      intro index afterEnd fits
      rw [List.length_cons] at fits
      unfold markSlots
      split
      · refine confined_bind (safe_writeDirectoryBytes ?_) fun _ _ =>
          induction _ _ (by omega)
        unfold Fat32.clusterBytes sectorSize
        omega
      · exact induction _ _ (by omega)
  induction chain generalizing afterEnd with
  | nil => exact confined_pure trivial
  | cons cluster rest induction =>
    refine confined_bind quiet_readCluster.safe ?_
    rintro data ⟨-, length⟩
    refine confined_bind (marks _ _ _ _ ?_) fun _ _ => induction
    rw [length_slots, length, Nat.zero_add]

theorem safe_addClusters {left : Nat} :
    Safe v (addClusters v left added) fun all => all.length = added.length + left := by
  induction left generalizing added with
  | zero => exact confined_pure rfl
  | succ left induction =>
    refine confined_bind (safe_orRelease safe_allocateCluster) fun _ _ => ?_
    refine induction.mono fun all length => ?_
    rw [length, List.length_append, List.length_singleton]
    omega

theorem safe_writeRecords {i : Nat}
    (fits : (i + records.length) * 32 ≤ added.length * v.clusterBytes)
    (small : (i + records.length) * 32 < 2 ^ 64) :
    Safe v (writeRecords v added i records) fun _ => True := by
  induction records generalizing i with
  | nil => exact confined_pure trivial
  | cons record rest induction =>
    rw [List.length_cons] at fits small
    refine confined_bind (quiet_checked (by omega)).safe ?_
    rintro _ rfl
    have index : i * 32 / v.clusterBytes < added.length :=
      (Nat.div_lt_iff_lt_mul Fat32.clusterBytes_pos).mpr (by omega)
    refine confined_bind (confined_unwrap (List.getElem?_eq_getElem index)) fun _ _ => ?_
    refine confined_bind (safe_writeDirectoryBytes
      (Nat.mod_lt _ Fat32.clusterBytes_pos)) fun _ _ => ?_
    exact induction (by omega) (by omega)

theorem safe_appendDirectoryRecords (few : records.length ≤ 2 ^ 32) :
    Safe v (appendDirectoryRecords v c records) fun _ => True := by
  refine confined_bind quiet_collectChain.safe fun chain _ => ?_
  refine confined_bind confined_okOr fun tail _ => ?_
  refine confined_bind safe_markTail fun _ _ => ?_
  refine confined_bind (quiet_checked (by omega)).safe ?_
  rintro _ rfl
  have room := clusters_needed v ((records.length + 1) * 32)
  refine confined_bind safe_addClusters fun added length => ?_
  rw [List.length_nil, Nat.zero_add] at length
  rw [← length] at room
  refine confined_bind (confined_forM fun _ _ =>
    safe_orRelease safe_setFatEntry) fun _ _ => ?_
  have some : 0 < added.length := by
    refine Nat.pos_of_ne_zero fun none => ?_
    rw [none] at room
    omega
  refine confined_bind (confined_unwrap (List.getElem?_eq_getElem some)) fun _ _ => ?_
  refine confined_bind (safe_orRelease safe_setFatEntry) fun _ _ => ?_
  exact safe_writeRecords (by omega) (by omega)

/-! ### The operations -/

theorem length_lfnRecords {name : List Char} {short : Bytes 11}
    (made : lfnRecords name short = some records) : records.length ≤ 20 := by
  unfold lfnRecords at made
  dsimp only at made
  split at made
  · cases made
  · cases made
    rw [List.length_map, List.length_reverse, List.length_range]
    omega

theorem safe_createFile : Safe v (createFile v path) fun _ => True := by
  refine confined_bind quiet_parentAndName.safe fun _ _ => ?_
  refine confined_bind quiet_findNamedEntry.safe fun found _ => ?_
  cases found with
  | some existing => exact confined_require.mono fun _ _ => trivial
  | none =>
    refine confined_bind quiet_chooseShortAlias.safe fun short _ => ?_
    refine confined_bind confined_okOr fun records made => ?_
    have few := length_lfnRecords made
    refine safe_appendDirectoryRecords ?_
    rw [List.length_append, List.length_singleton]
    omega

theorem safe_createDir : Safe v (createDir v path) fun _ => True := by
  refine confined_bind quiet_parentAndName.safe fun _ _ => ?_
  refine confined_bind quiet_findNamedEntry.safe fun found _ => ?_
  refine confined_bind confined_require fun _ _ => ?_
  refine confined_bind safe_allocateCluster fun cluster _ => ?_
  refine safe_orRelease ?_
  have room : 32 < v.clusterBytes := by
    have positive := v.spc_pos
    unfold Fat32.clusterBytes sectorSize
    omega
  refine confined_bind (safe_writeDirectoryBytes (by omega)) fun _ _ => ?_
  refine confined_bind (safe_writeDirectoryBytes room) fun _ _ => ?_
  refine confined_bind quiet_chooseShortAlias.safe fun short _ => ?_
  refine confined_bind confined_okOr fun records made => ?_
  have few := length_lfnRecords made
  refine safe_appendDirectoryRecords ?_
  rw [List.length_append, List.length_singleton]
  omega

theorem safe_remove : Safe v (remove v path) fun _ => True := by
  refine confined_bind quiet_parentAndName.safe fun _ _ => ?_
  refine confined_bind quiet_findNamedEntry.safe fun found _ => ?_
  refine confined_bind confined_okOr fun location _ => ?_
  refine confined_bind quiet_checkRemovable.safe fun _ _ => ?_
  refine confined_bind quiet_collectChain.safe fun chain _ => ?_
  refine confined_bind quiet_collectChain.safe fun dirChain _ => ?_
  refine confined_bind (quiet_findRemoval (List.forall_mem_nil _)).safe fun found valid => ?_
  refine confined_bind confined_require fun _ _ => ?_
  exact confined_bind (confined_forM fun l member =>
    safe_deleteSlot (valid l member)) fun _ _ => safe_releaseChain

theorem safe_truncate : Safe v (truncate v path) fun _ => True := by
  refine confined_bind quiet_parentAndName.safe fun _ _ => ?_
  refine confined_bind quiet_findNamedEntry.safe fun found valid => ?_
  refine confined_bind confined_okOr fun location here => ?_
  refine confined_bind confined_require fun _ _ => ?_
  refine confined_bind quiet_collectChain.safe fun chain _ => ?_
  exact confined_bind
    (safe_writeEntryMetadata (valid location here).toValidPlace)
    fun _ _ => safe_releaseChain

theorem safe_writeAt {data : List UInt8} : Safe v (writeAt v path offset data) fun _ => True := by
  unfold writeAt
  split
  · exact confined_pure trivial
  split
  · exact confined_fail
  rename_i small
  refine confined_bind quiet_parentAndName.safe fun _ _ => ?_
  refine confined_bind quiet_findNamedEntry.safe fun found valid => ?_
  refine confined_bind confined_okOr fun location here => ?_
  obtain ⟨place, size⟩ := valid location here
  refine confined_bind confined_require fun _ _ => ?_
  refine confined_bind quiet_collectChain.safe fun chain facts => ?_
  refine confined_bind (safe_ensureChain facts.1) fun grown growth => ?_
  have store : Safe v (storeData v grown location offset data) fun _ => True := by
    refine confined_bind (P := fun _ => True) ?_ fun _ _ => ?_
    · unfold fillGap
      split
      · exact safe_writeZeroRange (by omega)
      · exact confined_pure trivial
    · exact confined_bind (safe_writeChainRange (by omega)) fun _ _ =>
        safe_writeEntryMetadata place
  refine confined_bind (confined_attempt store) fun outcome _ => ?_
  cases outcome with
  | ok _ => exact confined_pure trivial
  | error e =>
    dsimp only
    split
    · exact confined_bind
        (safe_rollbackChainGrowth growth.1.starts.length_le)
        fun _ _ => confined_fail
    · exact confined_fail

end

/-- The public operations, with their arguments. -/
inductive Operation where
  | stat (path : List Char)
  | list (path : List Char)
  | readFile (path : List Char)
  | readAt (path : List Char) (offset size : Nat)
  | createFile (path : List Char)
  | createDir (path : List Char)
  | remove (path : List Char)
  | truncate (path : List Char)
  | writeAt (path : List Char) (offset : Nat) (data : List UInt8)
  | flush

/-- An operation, without what it returns. -/
def Operation.perform (v : Fat32) : Operation → FatIo Unit
  | .stat path => do let _ ← Fat.stat v path
  | .list path => do let _ ← Fat.list v path
  | .readFile path => do let _ ← Fat.readFile v path
  | .readAt path offset size => do let _ ← Fat.readAt v path offset size
  | .createFile path => Fat.createFile v path
  | .createDir path => Fat.createDir v path
  | .remove path => Fat.remove v path
  | .truncate path => Fat.truncate v path
  | .writeAt path offset data => do let _ ← Fat.writeAt v path offset data
  | .flush => do let _ ← Fat.flush

theorem safe_perform (v : Fat32) (operation : Operation) :
    Safe v (operation.perform v) fun _ => True := by
  have drop : ∀ {α : Type} {x : FatIo α}, Safe v x (fun _ => True) →
      Safe v (do let _ ← x) fun _ => True :=
    fun safe => confined_bind safe fun _ _ => confined_pure trivial
  cases operation with
  | stat path => exact drop quiet_stat.safe
  | list path => exact drop quiet_list.safe
  | readFile path => exact drop quiet_readFile.safe
  | readAt path offset size => exact drop quiet_readAt.safe
  | createFile path => exact safe_createFile
  | createDir path => exact safe_createDir
  | remove path => exact safe_remove
  | truncate path => exact safe_truncate
  | writeAt path offset data => exact drop safe_writeAt
  | flush => exact drop (confined_ask Call.flush trivial)

/-! ### Mounted images -/

/-- The clusters and the copies of the table have their own sectors. -/
structure Fat32.Separate (v : Fat32) : Prop where
  clusters : ∀ {c d s t}, v.IsCluster c → v.IsCluster d →
    s < v.sectorsPerCluster → t < v.sectorsPerCluster →
    v.clusterStart c + s = v.clusterStart d + t → c = d ∧ s = t
  copies : ∀ {c s}, v.IsCluster c → s < v.sectorsPerCluster →
    v.reservedSectors + v.fatCount * v.sectorsPerFat ≤ v.clusterStart c + s
  fsinfo : ∀ {s}, v.fsinfoSector = some s → s < v.reservedSectors

/-- The sums, differences and divisors of the code that it does not check. -/
structure Fat32.SumsFit (v : Fat32) : Prop where
  cluster_end : v.clusterCount + 2 < 2 ^ 32
  divisors : 0 < v.clusterCount ∧ 0 < v.clusterBytes
  search : ∀ hint, 2 ≤ clampHint v hint ∧ ∀ step < v.clusterCount,
    clampHint v hint - 2 + step < 2 ^ 32
  entries : ∀ copy < v.fatCount, ∀ c < v.clusterEnd,
    v.fatLba copy c < 2 ^ 64 ∧ c * 4 % 512 + 4 ≤ 512
  sectors : ∀ c, v.IsCluster c → ∀ s < v.sectorsPerCluster,
    v.clusterStart c + s < 2 ^ 64

section

variable {v : Fat32}

theorem Fat32.separate : v.Separate where
  clusters := clusterSector_inj
  copies known inside := by
    rw [← v.dataStart_eq]
    exact (clusterSector_bounds known inside).1
  fsinfo found := (fsinfo_lt found).2.1

theorem Fat32.sumsFit : v.SumsFit := by
  have count := v.count_le
  have extent := v.extent_lt
  refine ⟨by omega, ⟨v.count_pos, clusterBytes_pos⟩, ?_, ?_, ?_⟩
  · intro hint
    unfold clampHint
    exact ⟨by omega, fun step _ => by omega⟩
  · intro copy known c inside
    have bounds := fatLba_bounds known inside
    exact ⟨by omega, by omega⟩
  · intro c known s inside
    have bounds := clusterSector_bounds known inside
    unfold Fat32.extent at bounds
    omega

theorem Fat32.Writable.lt {lba : Nat} (writable : v.Writable lba) : lba < v.extent := by
  have whole := @Fat32.dataStart_le_extent v
  rcases writable with found | ⟨copy, known, c, inside, rfl⟩ | ⟨c, known, s, inside, rfl⟩
  · exact (fsinfo_lt found).2.2.trans_le whole
  · exact (fatLba_bounds known inside).2.trans_le whole
  · exact (clusterSector_bounds known inside).2

theorem mountBoot_extent {b : Sector} {sectorCount : Nat}
    (mounted : mountBoot b sectorCount = .ok v) :
    v.extent ≤ totalSectors b ∧ totalSectors b ≤ sectorCount := by
  unfold mountBoot at mounted
  split at mounted
  · cases mounted
  split at mounted
  · cases mounted
  split at mounted
  · cases mounted
  split at mounted
  · cases mounted
  rename_i supported room _
  cases mounted
  refine ⟨boot_extent room, ?_⟩
  unfold Unsupported at supported
  omega

theorem mount_ok {σ : Type} {device : Handler Call Call.Answer σ} {s t : σ} {sectorCount : Nat}
    (mounted : (mount sectorCount).run device s = some (.ok v, t)) :
    ∃ b : Sector, (device (.readSector 0) s).1 = some b ∧ mountBoot b sectorCount = .ok v := by
  change ((okOr FatError.io (device (.readSector 0) s).1 : FatIo Sector) >>=
    fun b => done (mountBoot b sectorCount)).run device _ = _ at mounted
  cases answer : (device (.readSector 0) s).1 with
  | none =>
    rw [answer] at mounted
    cases mounted
  | some b =>
    rw [answer] at mounted
    injection mounted with pair
    exact ⟨b, rfl, congrArg Prod.fst pair⟩

end

/-- On whatever answers a device gives, an operation of a mounted image comes
to its end, and its accesses stay within the regions of the volume. -/
theorem mounted_confined {σ : Type} {device : Handler Call Call.Answer σ} {s t : σ}
    {sectorCount : Nat} {v : Fat32} (mounted : (mount sectorCount).run device s = some (.ok v, t))
    (operation : Operation) :
    ∃ b : Sector, (device (.readSector 0) s).1 = some b ∧
      totalSectors b ≤ sectorCount ∧ v.Separate ∧ v.SumsFit ∧
      ∀ now : σ, (∃ outcome later,
        (operation.perform v).run device now = some (outcome, later)) ∧
        (∀ lba, Call.readSector lba ∈ (operation.perform v).calls device now →
          lba < totalSectors b) ∧
        ∀ lba data,
          Call.writeSector lba data ∈ (operation.perform v).calls device now →
          lba < totalSectors b ∧ v.Writable lba := by
  obtain ⟨b, answer, boot⟩ := mount_ok mounted
  obtain ⟨inside, fits⟩ := mountBoot_extent boot
  refine ⟨b, answer, fits, v.separate, v.sumsFit, fun now => ?_⟩
  obtain ⟨ends, allowed⟩ :=
    (safe_perform v operation).any_device device now
  refine ⟨ends, fun lba made => ?_, fun lba data made => ?_⟩
  · exact (allowed _ made).trans_le inside
  · have writable : v.Writable lba := allowed _ made
    exact ⟨writable.lt.trans_le inside, writable⟩

/-- A small image on a device that answers. -/
theorem small_image_confined :
    ∃ v, (mount 64).run healthy
        ⟨fun _ => bootSector 1 64, 2, false⟩ =
          some (.ok v, ⟨fun _ => bootSector 1 64, 2, false⟩) ∧
      ∃ b : Sector, some (bootSector 1 64) = some b ∧
        totalSectors b ≤ 64 ∧ v.Separate ∧ v.SumsFit ∧
        ∀ now : Mem, (∃ outcome later,
          ((Operation.remove ['A']).perform v).run healthy now =
            some (outcome, later)) ∧
          (∀ lba, Call.readSector lba ∈
            ((Operation.remove ['A']).perform v).calls healthy now →
            lba < totalSectors b) ∧
          ∀ lba data, Call.writeSector lba data ∈
            ((Operation.remove ['A']).perform v).calls healthy now →
            lba < totalSectors b ∧ v.Writable lba := by
  have accepted : (mountBoot (bootSector 1 64) 64).isOk = true := by
    decide +kernel
  cases mounted : mountBoot (bootSector 1 64) 64 with
  | error e =>
    rw [mounted] at accepted
    cases accepted
  | ok v =>
    have ran : (mount 64).run healthy
        ⟨fun _ => bootSector 1 64, 2, false⟩ =
          some (.ok v, ⟨fun _ => bootSector 1 64, 2, false⟩) := by
      rw [← mounted]
      rfl
    exact ⟨v, ran, mounted_confined ran (.remove ['A'])⟩

end Eonos.Fat
