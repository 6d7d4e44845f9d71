import Eonos.Vmm.Paging

/-!
# Runs of the page-table operations

The trees the operations build, from an empty top-level table or from the one
`init` builds, and what each 4 KiB operation does to such a tree.
-/

namespace Eonos.Vmm

open Eonos.Lib.TableTree

/-! ### Where a run starts -/

/-- Distinct whole frames. -/
def FreshPool (pool : List (BitVec 64)) : Prop :=
  pool.Nodup ∧ ∀ frame ∈ pool, frame &&& addrMask = frame

theorem zeroed_path {first s : State} {root : BitVec 64}
    (taken : allocFrameZeroed first = some (root, s)) {path : List (Fin 512)}
    {t : BitVec 64} (found : s.tableAt root path = some t) : path = [] := by
  have zero : ∀ i, s.read root i = 0 := by
    intro i
    rw [State.read, (allocFrameZeroed_some taken).2, readEntry_zeroFrame]
  induction path generalizing t with
  | nil => rfl
  | cons i path induction =>
    obtain ⟨parent, above, leads⟩ := Option.bind_eq_some_iff.mp found
    cases induction above
    cases above
    rw [zero i, child_absent (by decide)] at leads
    cases leads

/-- A zeroed frame is a top-level table without mappings. -/
theorem wf_zeroed {first s : State} {root : BitVec 64} (fresh : FreshPool first.pool)
    (taken : allocFrameZeroed first = some (root, s)) : Wf root s := by
  obtain ⟨shape, mem⟩ := allocFrameZeroed_some taken
  have only : ∀ {path t}, s.tableAt root path = some t → path = [] :=
    zeroed_path taken
  obtain ⟨nodup, masked⟩ := fresh
  rw [shape] at nodup masked
  refine ⟨masked root List.mem_cons_self, ?_, ?_, (List.nodup_cons.mp nodup).2,
    fun frame member => masked frame (List.mem_cons_of_mem _ member), ?_⟩
  · intro first second t one two
    rw [only one, only two]
  · intro i mapped
    rw [State.read, mem, readEntry_zeroFrame] at mapped
    exact absurd mapped (by decide)
  · intro frame member path found
    cases only found
    cases found
    exact (List.nodup_cons.mp nodup).1 member

section

variable {root : BitVec 64} {s later : State}

section Keeps

/-! What every single mapping keeps, `init` keeps. -/

variable {P : State → Prop}
  (large : ∀ {s later virt phys flags}, P s →
    map2m s root virt phys flags = some later → P later)
  (small : ∀ {s later virt phys flags}, P s →
    map4k s root virt phys flags = some later → P later)

include small

theorem mapPagesLoop_keeps {flags : BitVec 64} {toPhys : Nat → Nat} {finish fuel v : Nat}
    (holds : P s) (result : mapPagesLoop root flags toPhys finish fuel v s = some later) :
    P later := by
  induction fuel generalizing v s with
  | zero =>
    cases result
    exact holds
  | succ fuel induction =>
    unfold mapPagesLoop at result
    split at result
    · obtain ⟨middle, mapped, rest⟩ := Option.bind_eq_some_iff.mp result
      exact induction (small holds mapped) rest
    · cases result
      exact holds

include large

theorem mapHhdmLoop_keeps {hhdm finish fuel p : Nat} (holds : P s)
    (result : mapHhdmLoop root hhdm finish fuel p s = some later) : P later := by
  induction fuel generalizing p s with
  | zero =>
    cases result
    exact holds
  | succ fuel induction =>
    unfold mapHhdmLoop at result
    split at result
    · split at result
      · obtain ⟨middle, mapped, rest⟩ := Option.bind_eq_some_iff.mp result
        exact induction (large holds mapped) rest
      · obtain ⟨middle, mapped, rest⟩ := Option.bind_eq_some_iff.mp result
        exact induction (small holds mapped) rest
    · cases result
      exact holds

theorem mapRanges_keeps {hhdm : Nat} {ranges : List (Nat × Nat)} (holds : P s)
    (result : ranges.foldlM
      (fun s range => mapHhdmRange s root hhdm range.1 range.2) s =
        some later) : P later := by
  induction ranges generalizing s with
  | nil =>
    cases result
    exact holds
  | cons range rest induction =>
    rw [List.foldlM_cons] at result
    obtain ⟨middle, mapped, result⟩ := Option.bind_eq_some_iff.mp result
    exact induction (mapHhdmLoop_keeps large small holds mapped) result

theorem init_keeps {first : State} {boot : BootInfo}
    (start : ∀ {empty}, allocFrameZeroed first = some (root, empty) → P empty)
    (built : init boot first = some (root, s)) : P s := by
  obtain ⟨⟨pml4, empty⟩, taken, built⟩ := Option.bind_eq_some_iff.mp built
  obtain ⟨direct, ranges, built⟩ := Option.bind_eq_some_iff.mp built
  have sections : ∀ {start : State}, ((mapPages start pml4 kernelRx (fun v => boot.kernelPhys + (v -
      boot.kernelVirt)) boot.text.1 boot.text.2).bind fun s =>
        (mapPages s pml4 kernelRo (fun v => boot.kernelPhys + (v - boot.kernelVirt)) boot.rodata.1
          boot.rodata.2).bind fun s =>
        (mapPages s pml4 kernelRw (fun v => boot.kernelPhys + (v - boot.kernelVirt)) boot.data.1
          boot.data.2).bind fun s => some (pml4, s)) = some (root, s) →
        pml4 = root ∧ (P start → P s) := by
    intro start result
    obtain ⟨text, one, result⟩ := Option.bind_eq_some_iff.mp result
    obtain ⟨rodata, two, result⟩ := Option.bind_eq_some_iff.mp result
    obtain ⟨data, three, result⟩ := Option.bind_eq_some_iff.mp result
    cases result
    refine ⟨rfl, fun holds => ?_⟩
    have afterText := mapPagesLoop_keeps small holds one
    have afterRodata := mapPagesLoop_keeps small afterText two
    exact mapPagesLoop_keeps small afterRodata three
  dsimp only at built
  split at built
  case h_1 =>
    obtain ⟨same, equal, built⟩ := Option.bind_eq_some_iff.mp built
    cases equal
    obtain ⟨rfl, finish⟩ := sections built
    exact finish (mapRanges_keeps large small (start taken) ranges)
  case h_2 =>
    obtain ⟨screen, framebuffer, built⟩ := Option.bind_eq_some_iff.mp built
    obtain ⟨rfl, finish⟩ := sections built
    have mapped := mapRanges_keeps large small (start taken) ranges
    exact finish (mapPagesLoop_keeps small mapped framebuffer)

end Keeps

theorem init_wf {first : State} {boot : BootInfo} (fresh : FreshPool first.pool)
    (built : init boot first = some (root, s)) : Wf root s :=
  init_keeps (fun wf mapped => map2m_wf wf mapped)
    (fun wf mapped => map4k_wf wf mapped) (fun taken => wf_zeroed fresh taken)
    built

/-! ### Steps -/

/-- One operation that returned. -/
inductive Step (root : BitVec 64) (s later : State) : Prop where
  | map4k {virt phys flags : BitVec 64}
      (result : Vmm.map4k s root virt phys flags = some later)
  | map2m {virt phys flags : BitVec 64}
      (result : Vmm.map2m s root virt phys flags = some later)
  | mapPage {virt phys flags : BitVec 64}
      (result : Vmm.mapPage s root virt phys flags = some later)
  | unmapPage {virt : BitVec 64} {frame : Option (BitVec 64)}
      (result : Vmm.unmapPage s root virt = some (frame, later))
  | protectPage {virt flags : BitVec 64} {done : Bool}
      (result : Vmm.protectPage s root virt flags = some (done, later))
  | spaceMap {virt phys flags : BitVec 64}
      (result : AddressSpace.map s root virt phys flags = some later)
  | spaceUnmap {virt : BitVec 64} {frame : Option (BitVec 64)}
      (result : AddressSpace.unmap s root virt = some (frame, later))
  | spaceProtect {virt flags : BitVec 64} {done : Bool}
      (result : AddressSpace.protect s root virt flags = some (done, later))

def Initial (root : BitVec 64) (s : State) : Prop :=
  ∃ first : State, FreshPool first.pool ∧
    (allocFrameZeroed first = some (root, s) ∨
      ∃ boot, init boot first = some (root, s))

def Reachable (root : BitVec 64) (s : State) : Prop :=
  Lib.Reachable (Initial root) (Step root) s

variable {virt phys flags : BitVec 64} {frame : Option (BitVec 64)}
  {done : Bool}

theorem AddressSpace.map_eq (result : AddressSpace.map s root virt phys flags = some later) :
    virt < userSpaceEnd ∧ virt &&& 0xfff#64 = 0 ∧ phys &&& 0xfff#64 = 0 ∧
      flags ∈ AddressSpace.userFlags ∧ walk s root virt = none ∧
      Vmm.map4k s root virt phys flags = some later := by
  unfold AddressSpace.map at result
  split at result
  case isTrue => cases result
  case isFalse low =>
  split at result
  case isTrue => cases result
  case isFalse aligned =>
  split at result
  case isTrue => cases result
  case isFalse whole =>
  split at result
  case isTrue => cases result
  case isFalse allowed =>
  split at result
  case isTrue => cases result
  case isFalse absent =>
    exact ⟨not_not.mp low, not_not.mp aligned, not_not.mp whole, not_not.mp allowed, by simpa
      [AddressSpace.translate] using absent, result⟩

theorem AddressSpace.unmap_eq (result : AddressSpace.unmap s root virt = some (frame, later)) :
    Vmm.unmapPage s root virt = some (frame, later) := by
  unfold AddressSpace.unmap at result
  split at result
  · cases result
  · exact result

theorem AddressSpace.protect_cases
    (result : AddressSpace.protect s root virt flags = some (done, later)) :
    later = s ∨ flags ∈ AddressSpace.userFlags ∧
      protectLeaf s root virt flags = some (done, later) := by
  unfold AddressSpace.protect at result
  split at result
  case isTrue =>
    cases result
    exact .inl rfl
  case isFalse refused => exact .inr ⟨not_not.mp (not_or.mp refused).2, result⟩

theorem protectPage_cases (result : Vmm.protectPage s root virt flags = some (done, later)) :
    later = s ∨ flags ∈ kernelFlags ∧ protectLeaf s root virt flags = some (done, later) := by
  unfold Vmm.protectPage at result
  split at result
  case isTrue =>
    cases result
    exact .inl rfl
  case isFalse allowed => exact .inr ⟨not_not.mp allowed, result⟩

theorem Step.wf (wf : Wf root s) (taken : Step root s later) : Wf root later := by
  cases taken with
  | map4k result => exact map4k_wf wf result
  | map2m result => exact map2m_wf wf result
  | mapPage result => exact map4k_wf wf result
  | unmapPage result => exact unmapPage_wf wf result
  | protectPage result =>
    rcases protectPage_cases result with rfl | ⟨-, result⟩
    · exact wf
    · exact protectLeaf_wf wf result
  | spaceMap result =>
    exact map4k_wf wf (AddressSpace.map_eq result).2.2.2.2.2
  | spaceUnmap result => exact unmapPage_wf wf (AddressSpace.unmap_eq result)
  | spaceProtect result =>
    rcases AddressSpace.protect_cases result with rfl | ⟨-, result⟩
    · exact wf
    · exact protectLeaf_wf wf result

theorem reachable_wf (reachable : Reachable root s) : Wf root s := by
  refine Lib.Reachable.invariant ?_ ?_ reachable
  · rintro s ⟨first, fresh, zeroed | ⟨boot, built⟩⟩
    · exact wf_zeroed fresh zeroed
    · exact init_wf fresh built
  · intro s later wf taken
    exact taken.wf wf

/-! ### What one operation does -/

/-- Every address outside the page of `virt` translates as before. -/
def SameElsewhere (root virt : BitVec 64) (s later : State) : Prop :=
  ∀ other, Canonical other → page other ≠ page virt →
    walk later root other = walk s root other

/-- The page of `virt` is mapped to the frame `phys`. -/
def MapsTo (root virt phys : BitVec 64) (s : State) : Prop :=
  ∀ o < 4096, walk s root (virt + BitVec.ofNat 64 o) =
    some (phys + BitVec.ofNat 64 o)

/-- Outside its page a mapping changes nothing, whatever is mapped. -/
theorem map4k_elsewhere (wf : Wf root s) (canonical : Canonical virt)
    (result : map4k s root virt phys flags = some later) : SameElsewhere root virt s later := by
  obtain ⟨middle, pt, opens, rfl⟩ := map4k_opens wf result
  intro other otherCanonical distinct
  exact (opens.writeLeaf _).2.1 other (indices_ne otherCanonical canonical distinct)

theorem unmapPage_elsewhere (wf : Wf root s) (canonical : Canonical virt)
    (result : unmapPage s root virt = some (frame, later)) : SameElsewhere root virt s later := by
  rcases unmapPage_cases wf result with
    ⟨-, -, rfl⟩ | ⟨middle, pt, cost, opens, -, -, rfl⟩
  · exact fun _ _ _ => rfl
  · intro other otherCanonical distinct
    exact (opens.writeLeaf _).2.1 other (indices_ne otherCanonical canonical distinct)

theorem map4k_effect (wf : Wf root s) (canonical : Canonical virt) (aligned : virt &&& 0xfff#64 = 0)
    (masked : phys &&& addrMask = phys) (clear : flags &&& addrMask = 0)
    (result : map4k s root virt phys flags = some later) :
    MapsTo root virt phys later ∧ SameElsewhere root virt s later := by
  refine ⟨?_, map4k_elsewhere wf canonical result⟩
  obtain ⟨middle, pt, opens, rfl⟩ := map4k_opens wf result
  have here :=
    (opens.writeLeaf ((phys &&& addrMask) ||| flags ||| present)).2.2
  intro o small
  rw [here _ (indices_offset small aligned), masked, decode_leaf masked clear,
    offset4k_offset small aligned]

/-- A page that is absent at one address is absent at all of its addresses. -/
theorem Wf.walk_none (wf : Wf root s) {other : BitVec 64} (same : indices other 4 = indices virt 4)
    (absent : walk s root virt = none) : walk s root other = none := by
  rw [wf.walk_translated, State.translated] at absent ⊢
  rw [same]
  cases stopped : stop child s.read root (indices virt 4) with
  | none => rfl
  | some leaf =>
    obtain ⟨level, entry⟩ := leaf
    rw [stopped] at absent
    simp only [Option.bind_some, decode] at absent ⊢
    split
    case isFalse => rfl
    case isTrue mapped =>
      rw [if_pos mapped] at absent
      split at absent
      · cases absent
      · cases absent
      · cases absent
      · rfl

theorem unmapPage_effect (wf : Wf root s) (canonical : Canonical virt)
    (aligned : virt &&& 0xfff#64 = 0) (result : unmapPage s root virt = some (frame, later)) :
    frame = walk s root virt ∧
      (∀ o < 4096, walk later root (virt + BitVec.ofNat 64 o) = none) ∧
      SameElsewhere root virt s later ∧
      (walk s root virt = none → later = s) := by
  rcases unmapPage_cases wf result with
    ⟨unmapped, rfl, rfl⟩ | ⟨middle, pt, cost, opens, mapped, rfl, rfl⟩
  · refine ⟨unmapped.symm, ?_, fun _ _ _ => rfl, fun _ => rfl⟩
    intro o small
    exact wf.walk_none (indices_offset small aligned) unmapped
  · have old : walk s root virt = some (middle.read pt (index virt 3) &&& addrMask) := by
      rw [opens.walk_eq rfl]
      simp only [decode, mapped, if_true, aligned]
      exact congrArg some (BitVec.add_zero _)
    refine ⟨old.symm, ?_, unmapPage_elsewhere wf canonical result, ?_⟩
    · intro o small
      rw [(opens.writeLeaf 0).2.2 _ (indices_offset small aligned), decode_absent (by decide)]
    · intro absent
      rw [old] at absent
      cases absent

theorem protectLeaf_effect (wf : Wf root s) (clear : flags &&& addrMask = 0)
    (result : protectLeaf s root virt flags = some (done, later)) :
    (∀ other, walk later root other = walk s root other) ∧
      (walk s root virt = none → later = s) := by
  rcases protectLeaf_cases wf result with
    ⟨-, rfl⟩ | ⟨middle, pt, cost, opens, mapped, rfl⟩
  · exact ⟨fun _ => rfl, fun _ => rfl⟩
  obtain ⟨-, elsewhere, here⟩ := opens.writeLeaf
    ((middle.read pt (index virt 3) &&& addrMask) ||| flags ||| present)
  have old : ∀ other, indices other 4 = indices virt 4 →
      walk s root other =
        some ((middle.read pt (index virt 3) &&& addrMask) +
          (other &&& 0xfff#64)) := by
    intro other same
    rw [opens.walk_eq same]
    simp only [decode, mapped, if_true]
  constructor
  · intro other
    by_cases same : indices other 4 = indices virt 4
    · rw [here other same, old other same, decode_leaf (addrMask_idem _) clear]
    · exact elsewhere other same
  · intro absent
    rw [old virt rfl] at absent
    cases absent

theorem kernelFlags_clear (allowed : flags ∈ kernelFlags) : flags &&& addrMask = 0 := by
  simp only [kernelFlags, List.mem_cons, List.not_mem_nil, or_false] at allowed
  rcases allowed with rfl | rfl | rfl | rfl | rfl <;> decide

theorem userFlags_clear (allowed : flags ∈ AddressSpace.userFlags) : flags &&& addrMask = 0 := by
  simp only [AddressSpace.userFlags, List.mem_cons, List.not_mem_nil, or_false] at allowed
  rcases allowed with rfl | rfl | rfl <;> decide

/-- Page-table operations change exactly one page.  In every tree the
operations build, a page-aligned canonical address is mapped, unmapped or
protected without touching the translation of any other page, every operation
returns while frames are left, and an absent page is left alone. -/
theorem reachable_one_page (reachable : Reachable root s) {virt : BitVec 64}
    (canonical : Canonical virt) (aligned : virt &&& 0xfff#64 = 0) :
    (∀ phys flags, phys &&& addrMask = phys → flags &&& addrMask = 0 →
      (3 ≤ s.pool.length → ∃ later, map4k s root virt phys flags = some later ∧
        mapPage s root virt phys flags = some later) ∧
      (∀ later, map4k s root virt phys flags = some later ∨
          mapPage s root virt phys flags = some later ∨
          AddressSpace.map s root virt phys flags = some later →
        MapsTo root virt phys later ∧ SameElsewhere root virt s later)) ∧
    (∀ phys, phys &&& addrMask = phys → ∀ flags ∈ AddressSpace.userFlags,
      3 ≤ s.pool.length → virt < userSpaceEnd → walk s root virt = none →
        ∃ later, AddressSpace.map s root virt phys flags = some later) ∧
    ((2 ≤ s.pool.length → ∃ result, unmapPage s root virt = some result ∧
        (virt < userSpaceEnd →
          AddressSpace.unmap s root virt = some result)) ∧
      ∀ frame later, unmapPage s root virt = some (frame, later) ∨
          AddressSpace.unmap s root virt = some (frame, later) →
        frame = walk s root virt ∧
          (∀ o < 4096, walk later root (virt + BitVec.ofNat 64 o) = none) ∧
          SameElsewhere root virt s later ∧
          (walk s root virt = none → later = s)) ∧
    ∀ flags,
      (2 ≤ s.pool.length →
        (∃ result, protectPage s root virt flags = some result) ∧
          ∃ result, AddressSpace.protect s root virt flags = some result) ∧
      ∀ done later, protectPage s root virt flags = some (done, later) ∨
          AddressSpace.protect s root virt flags = some (done, later) →
        (∀ other, walk later root other = walk s root other) ∧
          (walk s root virt = none → later = s) := by
  have wf := reachable_wf reachable
  refine ⟨?_, ?_, ⟨?_, ?_⟩, ?_⟩
  · intro phys flags masked clear
    refine ⟨?_, ?_⟩
    · intro left
      obtain ⟨later, result⟩ := map4k_total wf left
      exact ⟨later, result, result⟩
    · intro later results
      have result : map4k s root virt phys flags = some later := by
        rcases results with result | result | result
        · exact result
        · exact result
        · exact (AddressSpace.map_eq result).2.2.2.2.2
      exact map4k_effect wf canonical aligned masked clear result
  · intro phys masked flags allowed left low absent
    obtain ⟨later, result⟩ := map4k_total wf left
    have whole : phys &&& 0xfff#64 = 0 := by
      apply BitVec.eq_of_toNat_eq
      rw [offset4k_val, (toNat_of_addrMask masked).2]
      rfl
    refine ⟨later, ?_⟩
    unfold AddressSpace.map
    rw [if_neg (not_not.mpr low), if_neg (not_not.mpr aligned), if_neg (not_not.mpr whole), if_neg
      (not_not.mpr allowed), if_neg (by simp [AddressSpace.translate, absent])]
    exact result
  · intro left
    obtain ⟨frame, later, result⟩ := unmapPage_total wf left
    refine ⟨_, result, ?_⟩
    intro low
    unfold AddressSpace.unmap
    rw [if_neg (not_not.mpr low)]
    exact result
  · intro frame later results
    have result : unmapPage s root virt = some (frame, later) :=
      results.elim id AddressSpace.unmap_eq
    exact unmapPage_effect wf canonical aligned result
  · intro flags
    refine ⟨?_, ?_⟩
    · intro left
      obtain ⟨done, later, result⟩ := protectLeaf_total wf left
      constructor
      · unfold protectPage
        split
        · exact ⟨_, rfl⟩
        · exact ⟨_, result⟩
      · unfold AddressSpace.protect
        split
        · exact ⟨_, rfl⟩
        · exact ⟨_, result⟩
    · intro done later results
      rcases results with result | result
      · rcases protectPage_cases result with rfl | ⟨allowed, result⟩
        · exact ⟨fun _ => rfl, fun _ => rfl⟩
        · exact protectLeaf_effect wf (kernelFlags_clear allowed) result
      · rcases AddressSpace.protect_cases result with rfl | ⟨allowed, result⟩
        · exact ⟨fun _ => rfl, fun _ => rfl⟩
        · exact protectLeaf_effect wf (userFlags_clear allowed) result

end

/-- Four frames, the first of which becomes the top-level table. -/
def samplePool : List (BitVec 64) := [0x1000, 0x2000, 0x3000, 0x4000]

theorem samplePool_one_page :
    ∃ s, allocFrameZeroed ⟨fun _ => 0, samplePool⟩ = some (0x1000, s) ∧
      ∃ later, map4k s 0x1000 0x400000 0x7000 userRw = some later ∧
        MapsTo 0x1000 0x400000 0x7000 later ∧
        SameElsewhere 0x1000 0x400000 s later := by
  obtain ⟨s, taken, pool⟩ : ∃ s : State, allocFrameZeroed ⟨fun _ => 0, samplePool⟩ = some (0x1000,
      s) ∧ s.pool = [0x2000, 0x3000, 0x4000] := ⟨_, rfl, rfl⟩
  have fresh : FreshPool samplePool := by
    refine ⟨by decide, ?_⟩
    intro frame member
    simp only [samplePool, List.mem_cons, List.not_mem_nil, or_false] at member
    rcases member with rfl | rfl | rfl | rfl <;> decide
  have started : Reachable 0x1000 s :=
    Lib.Reachable.start ⟨⟨fun _ => 0, samplePool⟩, fresh, .inl taken⟩
  have low : Canonical 0x400000 := .inl (by decide)
  have effect := (reachable_one_page started low (by decide)).1 0x7000 userRw
    (by decide) (by decide)
  obtain ⟨later, result, -⟩ := effect.1 (by simp [pool])
  exact ⟨s, taken, later, result, effect.2 later (.inl result)⟩

end Eonos.Vmm
