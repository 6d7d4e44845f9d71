import Eonos.Vmm.Paging
import Eonos.Vmm.UserCopy

/-!
# User copies are exact

The validation loop and the copy loops cover the same pages.  A copy that
returns true has moved every byte to or from its translated address, and one
that returns false has changed nothing, as long as no page of the range is
backed by a table that translates the range.
-/

namespace Eonos.Vmm

/-! ### The walk of a user address -/

/-- A 4 KiB user mapping of `virt`: the tables on the way and the leaf. -/
structure UserMapped (leafFlags : BitVec 64) (m : Memory)
    (pml4 virt pdpt pd pt leaf : BitVec 64) : Prop where
  top : hasAll (readEntry m pml4 (index virt 0)) (present ||| user) = true
  pdptAt : readEntry m pml4 (index virt 0) &&& addrMask = pdpt
  second : hasAll (readEntry m pdpt (index virt 1)) (present ||| user) = true
  secondTable : has (readEntry m pdpt (index virt 1)) huge = false
  pdAt : readEntry m pdpt (index virt 1) &&& addrMask = pd
  third : hasAll (readEntry m pd (index virt 2)) (present ||| user) = true
  thirdTable : has (readEntry m pd (index virt 2)) huge = false
  ptAt : readEntry m pd (index virt 2) &&& addrMask = pt
  leafAt : readEntry m pt (index virt 3) = leaf
  allowed : hasAll leaf leafFlags = true

/-- The byte a user mapping gives an address. -/
def leafByte (leaf virt : BitVec 64) : BitVec 64 :=
  (leaf &&& addrMask) + (virt &&& 0xfff#64)

theorem leafByte_val (leaf virt : BitVec 64) :
    (leafByte leaf virt).toNat = (leaf &&& addrMask).toNat + virt.toNat % 4096 := by
  have bound := toNat_of_addrMask (addrMask_idem leaf)
  rw [leafByte, BitVec.toNat_add, offset4k_val]
  omega

variable {leafFlags pml4 virt pdpt pd pt leaf : BitVec 64} {m' : Memory}

theorem walkUserWith_some {m : Memory} {phys : BitVec 64} :
    walkUserWith leafFlags m pml4 virt = some phys ↔
      ∃ pdpt pd pt leaf,
        UserMapped leafFlags m pml4 virt pdpt pd pt leaf ∧
          phys = leafByte leaf virt := by
  constructor
  · intro walked
    unfold walkUserWith at walked
    dsimp only at walked
    split at walked
    case isTrue => cases walked
    case isFalse top =>
    split at walked
    case isTrue => cases walked
    case isFalse second =>
    split at walked
    case isTrue => cases walked
    case isFalse third =>
    split at walked
    case isTrue => cases walked
    case isFalse allowed =>
      simp only [Bool.not_eq_true', Bool.not_eq_false, Bool.or_eq_true,
        not_or, Bool.not_eq_true] at top second third allowed
      exact ⟨_, _, _, _, ⟨top, rfl, second.1, second.2, rfl, third.1, third.2,
        rfl, rfl, allowed⟩, (Option.some.inj walked).symm⟩
  · rintro ⟨pdpt, pd, pt, leaf, mapped, rfl⟩
    obtain ⟨top, rfl, second, secondTable, rfl, third, thirdTable, rfl, rfl, allowed⟩ := mapped
    unfold walkUserWith
    dsimp only
    rw [if_neg (by simp [top]), if_neg (by simp [second, secondTable]), if_neg (by simp [third,
      thirdTable]), if_neg (by simp [allowed]), leafByte]

theorem UserMapped.unique {m : Memory} {pdpt' pd' pt' leaf' : BitVec 64}
    (one : UserMapped leafFlags m pml4 virt pdpt pd pt leaf)
    (two : UserMapped leafFlags m pml4 virt pdpt' pd' pt' leaf') : leaf' = leaf := by
  cases one.pdptAt.symm.trans two.pdptAt
  cases one.pdAt.symm.trans two.pdAt
  cases one.ptAt.symm.trans two.ptAt
  exact two.leafAt.symm.trans one.leafAt

/-- Addresses of one page share their tables and their leaf. -/
theorem UserMapped.samePage {m : Memory} {other : BitVec 64}
    (mapped : UserMapped leafFlags m pml4 virt pdpt pd pt leaf) (same : page other = page virt) :
    UserMapped leafFlags m pml4 other pdpt pd pt leaf := by
  have indices : ∀ level ≤ 3, index other level = index virt level := by
    intro level upper
    rw [Fin.ext_iff, index_val, index_val]
    have power : ∀ x : Nat, x / 2 ^ (39 - level * 9) = x / 4096 / 2 ^ (27 - level * 9) := by
      intro x
      rw [Nat.div_div_eq_div_mul, show 4096 = 2 ^ 12 by rfl, ← Nat.pow_add]
      congr 2
      omega
    rw [power, power]
    simp only [page] at same
    rw [same]
  obtain ⟨top, pdptAt, second, secondTable, pdAt, third, thirdTable, ptAt,
    leafAt, allowed⟩ := mapped
  constructor
  · rw [indices 0 (by omega)]
    exact top
  · rw [indices 0 (by omega)]
    exact pdptAt
  · rw [indices 1 (by omega)]
    exact second
  · rw [indices 1 (by omega)]
    exact secondTable
  · rw [indices 1 (by omega)]
    exact pdAt
  · rw [indices 2 (by omega)]
    exact third
  · rw [indices 2 (by omega)]
    exact thirdTable
  · rw [indices 2 (by omega)]
    exact ptAt
  · rw [indices 3 (by omega)]
    exact leafAt
  · exact allowed

theorem readEntry_congr {m : Memory} {table : BitVec 64} (i : Fin 512)
    (same : ∀ b, InFrame table b → m' b = m b) : readEntry m' table i = readEntry m table i := by
  apply readWord_congr
  intro k small
  have bound := i.isLt
  exact same _ ⟨by omega, by omega⟩

/-- The walk reads its four tables only. -/
theorem UserMapped.congr {m : Memory} (mapped : UserMapped leafFlags m pml4 virt pdpt pd pt leaf)
    (reads : ∀ table ∈ [pml4, pdpt, pd, pt], ∀ i, readEntry m' table i = readEntry m table i) :
    UserMapped leafFlags m' pml4 virt pdpt pd pt leaf := by
  have top := reads pml4 (by simp)
  have second := reads pdpt (by simp)
  have third := reads pd (by simp)
  have last := reads pt (by simp)
  constructor
  · rw [top]
    exact mapped.top
  · rw [top]
    exact mapped.pdptAt
  · rw [second]
    exact mapped.second
  · rw [second]
    exact mapped.secondTable
  · rw [second]
    exact mapped.pdAt
  · rw [third]
    exact mapped.third
  · rw [third]
    exact mapped.thirdTable
  · rw [third]
    exact mapped.ptAt
  · rw [last]
    exact mapped.leafAt
  · exact mapped.allowed

theorem UserMapped.frame {m : Memory} (mapped : UserMapped leafFlags m pml4 virt pdpt pd pt leaf)
    (same : ∀ table ∈ [pml4, pdpt, pd, pt], ∀ b, InFrame table b → m' b = m b) :
    UserMapped leafFlags m' pml4 virt pdpt pd pt leaf :=
  mapped.congr fun table one i => readEntry_congr i (same table one)

/-! ### Ranges -/

def readFlags : BitVec 64 := present ||| user

def writeFlags : BitVec 64 := present ||| user ||| writable

def userFlags (write : Bool) : BitVec 64 :=
  if write then writeFlags else readFlags

/-- Byte `k` of a range. -/
def byteAt (addr : BitVec 64) (k : Nat) : BitVec 64 := addr + BitVec.ofNat 64 k

/-- Every page the range touches is a 4 KiB user mapping. -/
def RangeMapped (write : Bool) (m : Memory) (cr3 addr : BitVec 64) (len : Nat) : Prop :=
  ∀ k < len, ∃ pdpt pd pt leaf,
    UserMapped (userFlags write) m (currentCr3 cr3) (byteAt addr k)
      pdpt pd pt leaf

/-- A copy of `len` bytes at `addr` may go ahead. -/
def UserRange (write : Bool) (m : Memory) (cr3 addr : BitVec 64) (len : Nat) : Prop :=
  len = 0 ∨ addr.toNat + len < 2 ^ 64 ∧
    addr.toNat + len ≤ userSpaceEnd.toNat ∧ RangeMapped write m cr3 addr len

theorem byteAt_val {addr : BitVec 64} {k len : Nat} (inside : k < len)
    (fits : addr.toNat + len ≤ userSpaceEnd.toNat) : (byteAt addr k).toNat = addr.toNat + k := by
  have bound : userSpaceEnd.toNat = 2 ^ 47 := by decide
  rw [byteAt, BitVec.toNat_add, BitVec.toNat_ofNat]
  omega

theorem byteAt_ofNat {addr : BitVec 64} {va : Nat} (above : addr.toNat ≤ va) :
    byteAt addr (va - addr.toNat) = BitVec.ofNat 64 va := by
  apply BitVec.eq_of_toNat_eq
  rw [byteAt, BitVec.toNat_add, BitVec.toNat_ofNat, BitVec.toNat_ofNat]
  have bound := addr.isLt
  omega

theorem validateLoop_iff {walks : Nat → Option (BitVec 64)} {finish : Nat} (small : finish < 2 ^ 63)
    (pages : ∀ va other, va < finish → other < finish →
      va / 4096 = other / 4096 → (walks va).isSome → (walks other).isSome) (fuel va : Nat)
    (enough : finish ≤ va ∨ finish ≤ va / 4096 * 4096 + fuel * 4096) :
    validateLoop walks finish fuel va = true ↔
      ∀ other, va ≤ other → other < finish → (walks other).isSome := by
  induction fuel generalizing va with
  | zero =>
    have done : ¬ va < finish := by omega
    simp only [validateLoop, done, decide_false, Bool.not_false, true_iff]
    intro other above below
    omega
  | succ fuel induction =>
    by_cases more : va < finish
    case neg =>
      simp only [validateLoop, if_neg more, true_iff]
      intro other above below
      omega
    have next : min (va / pageSize * pageSize + pageSize) (2 ^ 64 - 1) =
        va / 4096 * 4096 + 4096 := by
      simp only [pageSize]
      omega
    have forward : ¬ va / 4096 * 4096 + 4096 ≤ va := by omega
    have covers : finish ≤ min (va / 4096 * 4096 + 4096) finish ∨ finish ≤
        min (va / 4096 * 4096 + 4096) finish / 4096 * 4096 + fuel * 4096 := by
      rcases Nat.le_total (va / 4096 * 4096 + 4096) finish with less | less
      · rw [Nat.min_eq_left less]
        omega
      · exact .inl (Nat.le_min.mpr ⟨less, Nat.le_refl _⟩)
    simp only [validateLoop, if_pos more, next, if_neg forward]
    cases walked : walks va with
    | none =>
      simp only [Option.isNone_none, if_true, Bool.false_eq_true, false_iff, not_forall]
      exact ⟨va, Nat.le_refl va, more, by simp [walked]⟩
    | some phys =>
      simp only [Option.isNone_some, Bool.false_eq_true, if_false]
      rw [induction (min (va / 4096 * 4096 + 4096) finish) covers]
      constructor
      · intro rest other above below
        by_cases same : other / 4096 = va / 4096
        · refine pages va other more below same.symm ?_
          rw [walked]
          exact Option.isSome_some
        · exact rest other (by omega) below
      · intro all other above below
        exact all other (by omega) below

theorem validateUserRange_iff (write : Bool) (m : Memory) (cr3 addr : BitVec 64) (len : Nat) :
    validateUserRange m cr3 addr len write = true ↔ UserRange write m cr3 addr len := by
  have bound : userSpaceEnd.toNat = 2 ^ 47 := by decide
  unfold validateUserRange UserRange
  by_cases empty : len = 0
  · simp [empty]
  rw [if_neg empty]
  by_cases wraps : 2 ^ 64 ≤ addr.toNat + len
  · rw [if_pos wraps]
    simp only [Bool.false_eq_true, empty, false_or, false_iff, not_and]
    omega
  rw [if_neg wraps]
  dsimp only
  by_cases outside : userSpaceEnd ≤ addr ∨ userSpaceEnd.toNat < addr.toNat + len
  · rw [if_pos outside]
    simp only [Bool.false_eq_true, empty, false_or, false_iff, not_and]
    intro _ fits
    rcases outside with above | above
    · have low : userSpaceEnd.toNat ≤ addr.toNat := BitVec.le_def.mp above
      omega
    · omega
  rw [if_neg outside]
  obtain ⟨low, fits⟩ := not_or.mp outside
  have walks : ∀ va, (if write then
      walkUserWrite m (currentCr3 cr3) (BitVec.ofNat 64 va)
      else walkUser m (currentCr3 cr3) (BitVec.ofNat 64 va)) = walkUserWith (userFlags write) m
        (currentCr3 cr3) (BitVec.ofNat 64 va) := by
    intro va
    cases write with
    | false => rw [if_neg Bool.false_ne_true, walkUser, userFlags,
        if_neg Bool.false_ne_true, readFlags]
    | true => rw [if_pos rfl, walkUserWrite, userFlags, if_pos rfl, writeFlags]
  simp only [walks]
  rw [validateLoop_iff (by omega)]
  · constructor
    · intro all
      refine .inr ⟨by omega, by omega, ?_⟩
      intro k inside
      have walked := all (addr.toNat + k) (by omega) (by omega)
      obtain ⟨phys, found⟩ := Option.isSome_iff_exists.mp walked
      obtain ⟨pdpt, pd, pt, leaf, mapped, -⟩ := walkUserWith_some.mp found
      refine ⟨pdpt, pd, pt, leaf, ?_⟩
      have same := byteAt_ofNat (Nat.le_add_right addr.toNat k)
      rw [Nat.add_sub_cancel_left] at same
      rwa [same]
    · intro range other above below
      obtain ⟨-, -, mapped⟩ := range.resolve_left empty
      obtain ⟨pdpt, pd, pt, leaf, here⟩ :=
        mapped (other - addr.toNat) (by omega)
      rw [byteAt_ofNat above] at here
      exact Option.isSome_iff_exists.mpr ⟨_, walkUserWith_some.mpr ⟨pdpt, pd, pt, leaf, here, rfl⟩⟩
  · intro va other inside otherInside same walked
    obtain ⟨phys, found⟩ := Option.isSome_iff_exists.mp walked
    obtain ⟨pdpt, pd, pt, leaf, mapped, -⟩ := walkUserWith_some.mp found
    refine Option.isSome_iff_exists.mpr ⟨_, walkUserWith_some.mpr
      ⟨pdpt, pd, pt, leaf, mapped.samePage ?_, rfl⟩⟩
    simp only [page, BitVec.toNat_ofNat]
    omega
  · right
    simp only [pageSize]
    omega

/-! ### Translated bytes -/

/-- Byte `k` of the range is the byte `b` of physical memory. -/
def Translates (write : Bool) (m : Memory) (cr3 addr : BitVec 64) (k b : Nat) : Prop :=
  ∃ pdpt pd pt leaf,
    UserMapped (userFlags write) m (currentCr3 cr3) (byteAt addr k)
      pdpt pd pt leaf ∧ b = (leafByte leaf (byteAt addr k)).toNat

section

variable {write : Bool} {m : Memory} {cr3 addr : BitVec 64} {len : Nat}

theorem Translates.unique {k b c : Nat} (one : Translates write m cr3 addr k b)
    (two : Translates write m cr3 addr k c) : c = b := by
  obtain ⟨_, _, _, leaf, mapped, rfl⟩ := one
  obtain ⟨_, _, _, other, alsoMapped, rfl⟩ := two
  rw [mapped.unique alsoMapped]

theorem RangeMapped.translates (mapped : RangeMapped write m cr3 addr len)
    {k : Nat} (inside : k < len) : ∃ b, Translates write m cr3 addr k b := by
  obtain ⟨pdpt, pd, pt, leaf, here⟩ := mapped k inside
  exact ⟨_, pdpt, pd, pt, leaf, here, rfl⟩

theorem Translates.walk {k b : Nat} (here : Translates write m cr3 addr k b) :
    ∃ phys, walkUserWith (userFlags write) m (currentCr3 cr3)
      (byteAt addr k) = some phys ∧ phys.toNat = b := by
  obtain ⟨pdpt, pd, pt, leaf, mapped, rfl⟩ := here
  exact ⟨_, walkUserWith_some.mpr ⟨pdpt, pd, pt, leaf, mapped, rfl⟩, rfl⟩

/-- Within a page, consecutive bytes translate to consecutive bytes. -/
theorem Translates.add {k b j : Nat} (here : Translates write m cr3 addr k b)
    (fits : addr.toNat + len ≤ userSpaceEnd.toNat) (inside : k + j < len)
    (samePage : (addr.toNat + k) % 4096 + j < 4096) :
    Translates write m cr3 addr (k + j) (b + j) := by
  obtain ⟨pdpt, pd, pt, leaf, mapped, rfl⟩ := here
  have first := byteAt_val (show k < len by omega) fits
  have second := byteAt_val inside fits
  refine ⟨pdpt, pd, pt, leaf, mapped.samePage ?_, ?_⟩
  · rw [page, page, first, second]
    omega
  · rw [leafByte_val, leafByte_val, first, second]
    omega

end

/-! ### Copying from user memory -/

theorem length_readInto {m : Memory} {phys done n : Nat} {dst : List UInt8}
    (inside : done + n ≤ dst.length) : (readInto m phys dst done n).length = dst.length := by
  simp only [readInto, List.length_append, List.length_take, List.length_map,
    List.length_range, List.length_drop]
  omega

theorem getElem_readInto {m : Memory} {phys done n k : Nat}
    {dst : List UInt8} (inside : done + n ≤ dst.length) :
    (readInto m phys dst done n)[k]? =
      if done ≤ k ∧ k < done + n then some (m (phys + (k - done)))
      else dst[k]? := by
  have size : (dst.take done).length = done := by
    rw [List.length_take]
    omega
  rw [readInto, List.append_assoc]
  by_cases before : k < done
  · rw [List.getElem?_append_left (by omega), List.getElem?_take_of_lt before, if_neg (by omega)]
  rw [List.getElem?_append_right (by omega), size]
  by_cases here : k < done + n
  · rw [List.getElem?_append_left (by simp; omega), if_pos (by omega),
      List.getElem?_map, List.getElem?_range (by omega), Option.map_some]
  · rw [List.getElem?_append_right (by simp; omega), if_neg (by omega), List.getElem?_drop]
    congr 1
    simp only [List.length_map, List.length_range]
    omega

theorem copyFromLoop_copies {m : Memory} {cr3 src : BitVec 64} {len : Nat}
    (fits : src.toNat + len ≤ userSpaceEnd.toNat) (mapped : RangeMapped false m cr3 src len)
    (fuel done : Nat) (dst : List UInt8) (size : dst.length = len) (started : done ≤ len)
    (enough : len < done + fuel)
    (copied : ∀ k < done, ∀ b, Translates false m cr3 src k b → dst[k]? = some (m b)) :
    ∃ final, copyFromLoop m (currentCr3 cr3) src fuel done dst =
        (true, final) ∧ final.length = len ∧
      ∀ k < len, ∀ b, Translates false m cr3 src k b →
        final[k]? = some (m b) := by
  induction fuel generalizing done dst with
  | zero => omega
  | succ fuel induction =>
    unfold copyFromLoop
    by_cases more : done < dst.length
    case neg =>
      rw [if_neg more]
      refine ⟨dst, rfl, size, ?_⟩
      intro k inside
      exact copied k (by omega)
    rw [if_pos more]
    dsimp only
    obtain ⟨b, here⟩ := mapped.translates (show done < len by omega)
    obtain ⟨phys, walked, rfl⟩ := here.walk
    have reads : walkUser m (currentCr3 cr3) (src + BitVec.ofNat 64 done) =
        some phys := walked
    have offset : ((src + BitVec.ofNat 64 done) &&& 0xfff#64).toNat =
        (src.toNat + done) % 4096 := by
      have value := byteAt_val (show done < len by omega) fits
      rw [offset4k_val, ← value, byteAt]
    rw [reads, Option.elim_some]
    generalize chunk : min (dst.length - done)
      (pageSize - ((src + BitVec.ofNat 64 done) &&& 0xfff#64).toNat) = n
    rw [offset, pageSize] at chunk
    have inside : done + n ≤ dst.length := by omega
    apply induction
    · rw [length_readInto inside, size]
    · omega
    · omega
    · intro k below b translated
      rw [getElem_readInto inside]
      split
      case isTrue fresh =>
        have step : done + (k - done) = k := by omega
        have moved := here.add fits (j := k - done) (by omega) (by omega)
        rw [step] at moved
        rw [moved.unique translated]
      case isFalse => exact copied k (by omega) b translated

/-! ### Copying to user memory -/

/-- No page of the range is backed by a table that translates the range. -/
def TablesApart (m : Memory) (cr3 addr : BitVec 64) (len : Nat) : Prop :=
  ∀ k < len, ∀ j < len, ∀ pdpt pd pt leaf pdpt' pd' pt' leaf',
    UserMapped (userFlags true) m (currentCr3 cr3) (byteAt addr k)
      pdpt pd pt leaf →
    UserMapped (userFlags true) m (currentCr3 cr3) (byteAt addr j)
      pdpt' pd' pt' leaf' →
    leaf &&& addrMask ∉ [currentCr3 cr3, pdpt', pd', pt']

/-- Distinct pages of the range are backed by distinct frames. -/
def FramesDistinct (m : Memory) (cr3 addr : BitVec 64) (len : Nat) : Prop :=
  ∀ k < len, ∀ j < len, ∀ pdpt pd pt leaf pdpt' pd' pt' leaf',
    UserMapped (userFlags true) m (currentCr3 cr3) (byteAt addr k)
      pdpt pd pt leaf →
    UserMapped (userFlags true) m (currentCr3 cr3) (byteAt addr j)
      pdpt' pd' pt' leaf' →
    page (byteAt addr k) ≠ page (byteAt addr j) →
    leaf &&& addrMask ≠ leaf' &&& addrMask

section

variable {m now : Memory} {cr3 addr : BitVec 64} {len : Nat}

theorem UserMapped.frames {leafFlags pml4 virt pdpt pd pt leaf : BitVec 64}
    (mapped : UserMapped leafFlags m pml4 virt pdpt pd pt leaf) (masked : pml4 &&& addrMask = pml4)
    {table : BitVec 64} (member : table ∈ [pml4, pdpt, pd, pt]) : table &&& addrMask = table := by
  simp only [List.mem_cons, List.not_mem_nil, or_false] at member
  rcases member with rfl | rfl | rfl | rfl
  · exact masked
  · rw [← mapped.pdptAt]
    exact addrMask_idem _
  · rw [← mapped.pdAt]
    exact addrMask_idem _
  · rw [← mapped.ptAt]
    exact addrMask_idem _

/-- Bytes of the range that were written leave every table as it was. -/
theorem Translates.undisturbed {done k b : Nat} (apart : TablesApart m cr3 addr len)
    (inside : k < len) (reach : done ≤ len)
    (kept : ∀ b, (∀ j < done, ¬ Translates true m cr3 addr j b) → now b = m b)
    (here : Translates true m cr3 addr k b) : Translates true now cr3 addr k b := by
  obtain ⟨pdpt, pd, pt, leaf, mapped, rfl⟩ := here
  refine ⟨pdpt, pd, pt, leaf, mapped.frame ?_, rfl⟩
  intro table member c inTable
  refine kept c ?_
  rintro j below ⟨pdpt', pd', pt', leaf', backing, rfl⟩
  have distinct := apart j (by omega) k inside _ _ _ _ _ _ _ _ backing mapped
  have tableMasked := toNat_of_addrMask (mapped.frames (addrMask_idem cr3) member)
  have leafMasked := toNat_of_addrMask (addrMask_idem leaf')
  have differs : (leaf' &&& addrMask).toNat ≠ table.toNat := by
    intro equal
    rw [BitVec.eq_of_toNat_eq equal] at distinct
    exact distinct member
  rw [InFrame, leafByte_val] at inTable
  omega

/-- Distinct bytes of the range are distinct bytes of memory. -/
theorem Translates.inj {k j b : Nat} (distinct : FramesDistinct m cr3 addr len)
    (fits : addr.toNat + len ≤ userSpaceEnd.toNat) (inside : k < len) (alsoInside : j < len)
    (one : Translates true m cr3 addr k b) (two : Translates true m cr3 addr j b) : k = j := by
  obtain ⟨pdpt, pd, pt, leaf, mapped, rfl⟩ := one
  obtain ⟨pdpt', pd', pt', leaf', alsoMapped, same⟩ := two
  have first := byteAt_val inside fits
  have second := byteAt_val alsoInside fits
  have masked := toNat_of_addrMask (addrMask_idem leaf)
  have alsoMasked := toNat_of_addrMask (addrMask_idem leaf')
  rw [leafByte_val, leafByte_val, first, second] at same
  by_cases pages : page (byteAt addr k) = page (byteAt addr j)
  · rw [page, page, first, second] at pages
    omega
  · have frames := distinct k inside j alsoInside _ _ _ _ _ _ _ _ mapped alsoMapped pages
    have differs : (leaf &&& addrMask).toNat ≠ (leaf' &&& addrMask).toNat := by
      intro equal
      exact frames (BitVec.eq_of_toNat_eq equal)
    omega

theorem copyToLoop_copies {src : List UInt8} (size : src.length = len)
    (fits : addr.toNat + len ≤ userSpaceEnd.toNat) (mapped : RangeMapped true m cr3 addr len)
    (apart : TablesApart m cr3 addr len) (fuel done : Nat) (now : Memory) (started : done ≤ len)
    (enough : len < done + fuel)
    (kept : ∀ b, (∀ j < done, ¬ Translates true m cr3 addr j b) → now b = m b)
    (copied : FramesDistinct m cr3 addr len →
      ∀ k < done, ∀ b, Translates true m cr3 addr k b →
        src[k]? = some (now b)) :
    ∃ final, copyToLoop (currentCr3 cr3) addr src fuel done now =
        (true, final) ∧
      (∀ b, (∀ j < len, ¬ Translates true m cr3 addr j b) → final b = m b) ∧
      (FramesDistinct m cr3 addr len →
        ∀ k < len, ∀ b, Translates true m cr3 addr k b →
          src[k]? = some (final b)) := by
  induction fuel generalizing done now with
  | zero => omega
  | succ fuel induction =>
    unfold copyToLoop
    by_cases more : done < src.length
    case neg =>
      rw [if_neg more]
      have all : done = len := by omega
      subst all
      exact ⟨now, rfl, kept, copied⟩
    rw [if_pos more]
    dsimp only
    obtain ⟨b, here⟩ := mapped.translates (show done < len by omega)
    obtain ⟨phys, walked, rfl⟩ :=
      (here.undisturbed apart (by omega) started kept).walk
    have writes : walkUserWrite now (currentCr3 cr3)
        (addr + BitVec.ofNat 64 done) = some phys := walked
    have offset : ((addr + BitVec.ofNat 64 done) &&& 0xfff#64).toNat =
        (addr.toNat + done) % 4096 := by
      have value := byteAt_val (show done < len by omega) fits
      rw [offset4k_val, ← value, byteAt]
    rw [writes, Option.elim_some]
    generalize chunk : min (src.length - done)
      (pageSize - ((addr + BitVec.ofNat 64 done) &&& 0xfff#64).toNat) = n
    rw [offset, pageSize] at chunk
    -- the chunk lies in one page, so it is the next `n` bytes of the range
    have chunked : ∀ j < n, Translates true m cr3 addr (done + j) (phys.toNat + j) := by
      intro j below
      exact here.add fits (by omega) (by omega)
    apply induction
    · omega
    · omega
    · intro c outside
      have before : now c = m c :=
        kept c (fun j below => outside j (by omega))
      rw [writeFrom, if_neg]
      · exact before
      · rintro ⟨above, below⟩
        refine outside (done + (c - phys.toNat)) (by omega) ?_
        have moved := chunked (c - phys.toNat) (by omega)
        rwa [Nat.add_sub_cancel' above] at moved
    · intro distinct k below c translated
      rw [writeFrom]
      split
      case isTrue inChunk =>
        have moved := chunked (c - phys.toNat) (by omega)
        rw [Nat.add_sub_cancel' inChunk.1] at moved
        have same := translated.inj distinct fits (by omega) (by omega) moved
        rw [same, List.getD_eq_getElem?_getD, List.getElem?_eq_getElem (by omega), Option.getD_some]
      case isFalse outside =>
        refine copied distinct k ?_ c translated
        by_contra late
        have moved := chunked (k - done) (by omega)
        rw [Nat.add_sub_cancel' (by omega)] at moved
        have place := moved.unique translated
        omega

end

/-! ### The copies -/

section

variable {m : Memory} {cr3 addr : BitVec 64}

theorem copyFromUser_refused {dst : List UInt8}
    (refused : ¬ UserRange false m cr3 addr dst.length) :
    copyFromUser m cr3 dst addr = (false, dst) := by
  have invalid : validateUserRange m cr3 addr dst.length false = false :=
    Bool.eq_false_iff.mpr fun yes =>
      refused ((validateUserRange_iff false m cr3 addr dst.length).mp yes)
  simp [copyFromUser, invalid]

theorem copyFromUser_copies {dst : List UInt8} (range : UserRange false m cr3 addr dst.length) :
    ∃ final, copyFromUser m cr3 dst addr = (true, final) ∧
      final.length = dst.length ∧
      ∀ k < dst.length, ∃ b, Translates false m cr3 addr k b ∧
        final[k]? = some (m b) := by
  have checked := (validateUserRange_iff false m cr3 addr dst.length).mpr range
  have loop : copyFromUser m cr3 dst addr = copyFromLoop m
      (currentCr3 cr3) addr (dst.length + 1) 0 dst := by
    simp [copyFromUser, checked]
  rw [loop]
  rcases range with empty | ⟨-, fits, mapped⟩
  · refine ⟨dst, ?_, rfl, ?_⟩
    · rw [empty]
      unfold copyFromLoop
      rw [if_neg (by omega)]
    · intro k inside
      omega
  · obtain ⟨final, result, size, copied⟩ := copyFromLoop_copies fits mapped
      (dst.length + 1) 0 dst rfl (Nat.zero_le _) (by omega)
      (fun k below => absurd below (Nat.not_lt_zero k))
    refine ⟨final, result, size, ?_⟩
    intro k inside
    obtain ⟨b, here⟩ := mapped.translates inside
    exact ⟨b, here, copied k inside b here⟩

theorem copyToUser_refused {src : List UInt8} (refused : ¬ UserRange true m cr3 addr src.length) :
    copyToUser m cr3 addr src = (false, m) := by
  have invalid : validateUserRange m cr3 addr src.length true = false :=
    Bool.eq_false_iff.mpr fun yes =>
      refused ((validateUserRange_iff true m cr3 addr src.length).mp yes)
  simp [copyToUser, invalid]

theorem copyToUser_copies {src : List UInt8} (range : UserRange true m cr3 addr src.length)
    (apart : TablesApart m cr3 addr src.length) :
    ∃ final, copyToUser m cr3 addr src = (true, final) ∧
      (∀ b, (∀ k < src.length, ¬ Translates true m cr3 addr k b) →
        final b = m b) ∧
      (FramesDistinct m cr3 addr src.length →
        ∀ k < src.length, ∃ b, Translates true m cr3 addr k b ∧
          src[k]? = some (final b)) := by
  have checked := (validateUserRange_iff true m cr3 addr src.length).mpr range
  have loop : copyToUser m cr3 addr src = copyToLoop (currentCr3 cr3) addr
      src (src.length + 1) 0 m := by
    simp [copyToUser, checked]
  rw [loop]
  rcases range with empty | ⟨-, fits, mapped⟩
  · refine ⟨m, ?_, fun _ _ => rfl, ?_⟩
    · rw [empty]
      unfold copyToLoop
      rw [if_neg (by omega)]
    · intro _ k inside
      omega
  · obtain ⟨final, result, kept, copied⟩ := copyToLoop_copies rfl fits
      mapped apart (src.length + 1) 0 m (Nat.zero_le _) (by omega)
      (fun _ _ => rfl) (fun _ k below => absurd below (Nat.not_lt_zero k))
    refine ⟨final, result, kept, ?_⟩
    intro distinct k inside
    obtain ⟨b, here⟩ := mapped.translates inside
    exact ⟨b, here, copied distinct k inside b here⟩

end

/-- User copies are exact and all or nothing.  A copy from user memory returns
true exactly for a mapped range below the end of user space and then delivers
every translated byte; otherwise the buffer is unchanged.  A copy to user
memory does the same if no page of the range is backed by a table that
translates the range; it changes no byte outside the range, and the range holds
the copied bytes if distinct pages are backed by distinct frames. -/
theorem user_copies_exact (m : Memory) (cr3 addr : BitVec 64) :
    (∀ dst, (¬ UserRange false m cr3 addr dst.length →
        copyFromUser m cr3 dst addr = (false, dst)) ∧
      (UserRange false m cr3 addr dst.length →
        ∃ final, copyFromUser m cr3 dst addr = (true, final) ∧
          final.length = dst.length ∧
          ∀ k < dst.length, ∃ b, Translates false m cr3 addr k b ∧
            final[k]? = some (m b))) ∧
    ∀ src, (¬ UserRange true m cr3 addr src.length →
        copyToUser m cr3 addr src = (false, m)) ∧
      (UserRange true m cr3 addr src.length →
        TablesApart m cr3 addr src.length →
        ∃ final, copyToUser m cr3 addr src = (true, final) ∧
          (∀ b, (∀ k < src.length, ¬ Translates true m cr3 addr k b) →
            final b = m b) ∧
          (FramesDistinct m cr3 addr src.length →
            ∀ k < src.length, ∃ b, Translates true m cr3 addr k b ∧
              src[k]? = some (final b))) := by
  constructor
  · intro dst
    exact ⟨copyFromUser_refused, copyFromUser_copies⟩
  · intro src
    exact ⟨copyToUser_refused, copyToUser_copies⟩

/-- Two user pages below one page table at `0x4000`: the first maps that very
table, the second the frame at `0x5000`. -/
def selfMapped : Memory :=
  let m : Memory := fun _ => 0
  let m := writeEntry m 0x1000 0 0x2007
  let m := writeEntry m 0x2000 0 0x3007
  let m := writeEntry m 0x3000 0 0x4007
  let m := writeEntry m 0x4000 510 0x4007
  writeEntry m 0x4000 511 0x5007

theorem selfMapped_copy_exact :
    ∃ final, copyToUser selfMapped 0x1000 0x1ff000 [7] = (true, final) ∧
      ∀ b, (∀ k < 1, ¬ Translates true selfMapped 0x1000 0x1ff000 k b) →
        final b = selfMapped b := by
  have valid : validateUserRange selfMapped 0x1000 0x1ff000 1 true = true := by
    decide +kernel
  have range := (validateUserRange_iff true _ _ _ _).mp valid
  have apart : TablesApart selfMapped 0x1000 0x1ff000 1 := by
    intro k first j second pdpt pd pt leaf pdpt' pd' pt' leaf' one two
    obtain rfl : k = 0 := by omega
    obtain rfl : j = 0 := by omega
    rw [← one.leafAt, ← one.ptAt, ← one.pdAt, ← one.pdptAt, ← two.ptAt, ← two.pdAt, ← two.pdptAt]
    decide +kernel
  obtain ⟨final, result, kept, -⟩ :=
    ((user_copies_exact selfMapped 0x1000 0x1ff000).2 [7]).2 range apart
  exact ⟨final, result, kept⟩

/-- Nine zero bytes written across the two pages clear the second page's entry
with the first eight, so the copy fails after memory has changed. -/
theorem selfMapped_copy_torn :
    UserRange true selfMapped 0x1000 0x1feff8 9 ∧
      (copyToUser selfMapped 0x1000 0x1feff8 (List.replicate 9 0)).1 = false ∧
      selfMapped 0x4ff8 = 7 ∧
      (copyToUser selfMapped 0x1000 0x1feff8 (List.replicate 9 0)).2 0x4ff8 =
        0 := by
  refine ⟨(validateUserRange_iff true _ _ _ _).mp ?_, ?_, ?_, ?_⟩
  · decide +kernel
  · decide +kernel
  · decide +kernel
  · decide +kernel

end Eonos.Vmm
