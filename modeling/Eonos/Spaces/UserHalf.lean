import Eonos.Spaces.Tree

/-!
# The user half of a space

Nothing maps a huge page below the kernel half, so every mapping there is a
4 KiB leaf.  The operations on a space keep it that way, and each changes what
one page of the user half is mapped to.
-/

namespace Eonos.Spaces

open Eonos.Vmm
open Eonos.Lib.TableTree

/-- The own tables of a space hold no huge page. -/
def HugeFree (s : Vmm.State) (space : BitVec 64) : Prop :=
  ∀ path t i, Own path → path.length < 3 → s.tableAt space path = some t →
    has (s.read t i) present = true → has (s.read t i) huge = false

section

variable {space virt : BitVec 64} {s later : Vmm.State}

/-- What the entries of the upper three levels have in common. -/
def Upper (Inside : List (Fin 512) → Prop) (Allowed : BitVec 64 → Prop)
    (s : Vmm.State) (space : BitVec 64) : Prop :=
  ∀ path t i, Inside (i :: path) → path.length < 3 →
    s.tableAt space path = some t → has (s.read t i) present = true →
      Allowed (s.read t i)

theorem hugeFree_iff : HugeFree s space ↔
    Upper (fun path => Own path.tail) (fun entry => has entry huge = false) s
      space :=
  Iff.rfl

section

variable {Inside : List (Fin 512) → Prop} {Allowed : BitVec 64 → Prop}

theorem childTable_upper (wf : Wf space s) (upper : Upper Inside Allowed s space)
    (link : ∀ u, u &&& addrMask = u → Allowed (linkEntry u)) {path : List (Fin 512)}
    {t u : BitVec 64} {i : Fin 512} (short : path.length < 3)
    (reached : s.tableAt space path = some t) (result : childTable s t i = some (u, later)) :
    Upper Inside Allowed later space := by
  rcases childTable_cases result with ⟨-, -, -, rfl⟩ | ⟨absent, shape, linked⟩
  · exact upper
  have links := wf.links_zeroed (i := i) reached shape
  rw [← linked] at links
  have tables := wf.link_tableAt short reached links (child_absent absent)
    (fun j => child_absent (by decide))
  intro whole v j inside top found mapped
  rw [tables] at found
  split_ifs at found with here
  · cases found
    rw [links.filled] at mapped
    exact absurd mapped (by decide)
  · by_cases entry : v = t ∧ j = i
    · rw [entry.1, entry.2, links.linked]
      exact link u (wf.poolMasked u links.fresh_mem)
    · rw [wf.link_others links found entry] at mapped ⊢
      exact upper _ _ j inside top found mapped

theorem writeLeaf_tables (wf : Wf space s) {pt : BitVec 64}
    (reached : s.tableAt space (indices virt 3) = some pt) (entry : BitVec 64)
    (path : List (Fin 512)) :
    (s.write pt (index virt 3) entry).tableAt space path = s.tableAt space path := by
  have size := length_indices virt 3
  exact tableAt_leaf wf.apart reached (fun found distinct => wf.read_write_ne _ reached found
    distinct) (by rw [size]; exact child_bottom _) (by rw [size]; exact child_bottom _) path

theorem writeLeaf_upper (wf : Wf space s) (upper : Upper Inside Allowed s space) {pt : BitVec 64}
    (reached : s.tableAt space (indices virt 3) = some pt) (entry : BitVec 64) :
    Upper Inside Allowed (s.write pt (index virt 3) entry) space := by
  have size := length_indices virt 3
  intro path t i inside short found mapped
  rw [writeLeaf_tables wf reached] at found
  have elsewhere : ¬ (t = pt ∧ i = index virt 3) := by
    rintro ⟨rfl, -⟩
    rw [wf.apart found reached, size] at short
    omega
  have same : (s.write pt (index virt 3) entry).read t i = s.read t i :=
    wf.read_write_ne _ reached found elsewhere
  rw [same] at mapped ⊢
  exact upper _ _ i inside short found mapped

end

variable {t phys flags : BitVec 64}

theorem childTable_hugeFree (wf : Wf space s) (free : HugeFree s space)
    {path : List (Fin 512)} {u : BitVec 64} {i : Fin 512}
    (upper : path.length < 3) (reached : s.tableAt space path = some t)
    (result : childTable s t i = some (u, later)) : HugeFree later space :=
  childTable_upper wf (hugeFree_iff.mp free) (fun _ => linkEntry_huge) upper
    reached result

theorem writeLeaf_hugeFree (wf : Wf space s) (free : HugeFree s space) {pt : BitVec 64}
    (reached : s.tableAt space (indices virt 3) = some pt) (entry : BitVec 64) :
    HugeFree (s.write pt (index virt 3) entry) space :=
  writeLeaf_upper wf (hugeFree_iff.mp free) reached entry

theorem pdFor_flat (free : HugeFree s space) (low : virt.toNat < 2 ^ 47) {pdpt : BitVec 64}
    (reached : s.tableAt space (indices virt 1) = some pdpt) :
    pdFor s pdpt virt = childTable s pdpt (index virt 1) := by
  have own : Own (indices virt 1) := own_indices.mpr (index_user low)
  have flat := free _ _ (index virt 1) own (by rw [length_indices]; omega) reached
  unfold pdFor
  dsimp only
  split
  case isTrue kinds =>
    obtain ⟨mapped, big⟩ := (Bool.and_eq_true _ _).mp kinds
    rw [flat mapped] at big
    cases big
  case isFalse => rw [Option.bind_eq_bind, Option.bind_some]

theorem ptFor_flat (free : HugeFree s space) (low : virt.toNat < 2 ^ 47)
    {pd : BitVec 64} (reached : s.tableAt space (indices virt 2) = some pd) :
    ptFor s pd virt = childTable s pd (index virt 2) := by
  have own : Own (indices virt 2) := own_indices.mpr (index_user low)
  have flat := free _ _ (index virt 2) own (by rw [length_indices]; omega) reached
  unfold ptFor
  dsimp only
  split
  case isTrue kinds =>
    obtain ⟨mapped, big⟩ := (Bool.and_eq_true _ _).mp kinds
    rw [flat mapped] at big
    cases big
  case isFalse => rw [Option.bind_eq_bind, Option.bind_some]

theorem childTable_way (wf : Wf space s) (free : HugeFree s space) {level : Nat} (upper : level < 3)
    {u : BitVec 64} (reached : s.tableAt space (indices virt level) = some t)
    (result : childTable s t (index virt level) = some (u, later)) :
    Wf space later ∧ HugeFree later space ∧
      later.tableAt space (indices virt (level + 1)) = some u := by
  have short : (indices virt level).length < 3 := by
    rw [length_indices]
    exact upper
  have opens := childTable_opens wf short reached result
  exact ⟨opens.grows.wf, childTable_hugeFree wf free short reached result, opens.reached⟩

/-- In the user half mapping takes three steps down, and splits nothing. -/
theorem map4k_flat (wf : Wf space s) (free : HugeFree s space)
    (low : virt.toNat < 2 ^ 47) (phys flags : BitVec 64) :
    map4k s space virt phys flags =
      (childTable s space (index virt 0)).bind fun pdpt =>
        (childTable pdpt.2 pdpt.1 (index virt 1)).bind fun pd =>
          (childTable pd.2 pd.1 (index virt 2)).bind fun pt =>
            some (pt.2.write pt.1 (index virt 3)
              ((phys &&& addrMask) ||| flags ||| present)) := by
  refine Option.bind_congr fun ⟨pdpt, first⟩ one => ?_
  have top : s.tableAt space (indices virt 0) = some space := rfl
  obtain ⟨firstWf, firstFree, toPdpt⟩ :=
    childTable_way wf free (by omega) top one
  dsimp only
  rw [← pdFor_flat firstFree low toPdpt]
  refine Option.bind_congr fun ⟨pd, second⟩ two => ?_
  rw [pdFor_flat firstFree low toPdpt] at two
  obtain ⟨-, secondFree, toPd⟩ :=
    childTable_way firstWf firstFree (by omega) toPdpt two
  dsimp only
  rw [← ptFor_flat secondFree low toPd]
  rfl

/-- What every link has, and what the space had, it has once a page is mapped. -/
theorem map4k_upper {Inside : List (Fin 512) → Prop} {Allowed : BitVec 64 → Prop} (wf : Wf space s)
    (free : HugeFree s space) (low : virt.toNat < 2 ^ 47)
    (link : ∀ u, u &&& addrMask = u → Allowed (linkEntry u)) (upper : Upper Inside Allowed s space)
    (result : map4k s space virt phys flags = some later) : Upper Inside Allowed later space := by
  rw [map4k_flat wf free low] at result
  obtain ⟨⟨pdpt, first⟩, one, result⟩ := Option.bind_eq_some_iff.mp result
  obtain ⟨⟨pd, second⟩, two, result⟩ := Option.bind_eq_some_iff.mp result
  obtain ⟨⟨pt, third⟩, three, result⟩ := Option.bind_eq_some_iff.mp result
  cases result
  have top : s.tableAt space (indices virt 0) = some space := rfl
  have short : ∀ level < 3, (indices virt level).length < 3 := by
    intro level small
    rw [length_indices]
    exact small
  obtain ⟨firstWf, firstFree, toPdpt⟩ :=
    childTable_way wf free (by omega) top one
  obtain ⟨secondWf, secondFree, toPd⟩ :=
    childTable_way firstWf firstFree (by omega) toPdpt two
  obtain ⟨thirdWf, -, toPt⟩ :=
    childTable_way secondWf secondFree (by omega) toPd three
  refine writeLeaf_upper thirdWf ?_ toPt _
  refine childTable_upper secondWf ?_ link (short 2 (by omega)) toPd three
  refine childTable_upper firstWf ?_ link (short 1 (by omega)) toPdpt two
  exact childTable_upper wf upper link (short 0 (by omega)) top one

theorem map4k_hugeFree (wf : Wf space s) (free : HugeFree s space) (low : virt.toNat < 2 ^ 47)
    (result : map4k s space virt phys flags = some later) : HugeFree later space :=
  map4k_upper wf free low (fun _ => linkEntry_huge) (hugeFree_iff.mp free)
    result

/-- Without huge pages the search for a leaf changes nothing. -/
theorem leafFor_same (free : HugeFree s space) (low : virt.toNat < 2 ^ 47)
    {found : Option (BitVec 64)}
    (result : leafFor s space virt = some (found, later)) : later = s := by
  have top : s.tableAt space (indices virt 0) = some space := rfl
  have own : ∀ level, Own (indices virt (level + 1)) :=
    fun level => own_indices.mpr (index_user low)
  have leafPt_same : ∀ pt, (leafPt s pt virt).2 = s := by
    intro pt
    unfold leafPt
    split_ifs <;> rfl
  unfold leafFor at result
  dsimp only at result
  split at result
  · cases result
    rfl
  rename_i here
  have kinds : has (s.read space (index virt 0)) present = true ∧
      has (s.read space (index virt 0)) huge = false := by
    simpa using here
  have toPdpt := tableAt_descend 0 (by omega) top kinds.1 kinds.2
  unfold leafPdpt at result
  dsimp only at result
  split at result
  · cases result
    rfl
  rename_i mapped
  have flat := free _ _ (index virt 1) (own 0) (by rw [length_indices]; omega)
    toPdpt (by simpa using mapped)
  rw [if_neg (ne_true_of_eq_false flat)] at result
  have toPd := tableAt_descend 1 (by omega) toPdpt (by simpa using mapped) flat
  unfold leafPd at result
  dsimp only at result
  split at result
  · cases result
    rfl
  rename_i mapped
  have flat := free _ _ (index virt 2) (own 1) (by rw [length_indices]; omega)
    toPd (by simpa using mapped)
  rw [if_neg (ne_true_of_eq_false flat)] at result
  have same := congrArg Prod.snd (Option.some.inj result)
  rw [leafPt_same] at same
  exact same.symm

theorem unmapPage_hugeFree (wf : Wf space s) (free : HugeFree s space) (low : virt.toNat < 2 ^ 47)
    {frame : Option (BitVec 64)} (result : unmapPage s space virt = some (frame, later)) :
    HugeFree later space := by
  obtain ⟨⟨found, middle⟩, search, result⟩ := Option.bind_eq_some_iff.mp result
  have leaf := leafFor_leaf wf search
  cases leafFor_same free low search
  cases leaf with
  | absent => cases result; exact free
  | found opens mapped =>
    cases result
    exact writeLeaf_hugeFree wf free opens.reached 0

theorem protectLeaf_hugeFree (wf : Wf space s) (free : HugeFree s space) (low : virt.toNat < 2 ^ 47)
    {done : Bool} (result : protectLeaf s space virt flags = some (done, later)) :
    HugeFree later space := by
  obtain ⟨⟨found, middle⟩, search, result⟩ := Option.bind_eq_some_iff.mp result
  have leaf := leafFor_leaf wf search
  cases leafFor_same free low search
  cases leaf with
  | absent => cases result; exact free
  | found opens mapped =>
    cases result
    exact writeLeaf_hugeFree wf free opens.reached _

/-! ### Pages of the user half -/

def UserPage (page : BitVec 64) : Prop :=
  page.toNat < 2 ^ 47 ∧ page.toNat % 4096 = 0

theorem UserPage.aligned {page : BitVec 64} (user : UserPage page) : page &&& 0xfff#64 = 0 := by
  apply BitVec.eq_of_toNat_eq
  rw [offset4k_val, user.2]
  rfl

theorem UserPage.eq {first second : BitVec 64} (one : UserPage first) (two : UserPage second)
    (same : indices first 4 = indices second 4) : first = second := by
  rw [indices_eq_iff, page, page] at same
  obtain ⟨low, aligned⟩ := one
  obtain ⟨otherLow, otherAligned⟩ := two
  apply BitVec.eq_of_toNat_eq
  omega

/-- The page an address lies on. -/
theorem exists_userPage (low : virt.toNat < 2 ^ 47) :
    ∃ page, UserPage page ∧ indices page 4 = indices virt 4 := by
  refine ⟨BitVec.ofNat 64 (virt.toNat / 4096 * 4096), ?_, ?_⟩
  · unfold UserPage
    rw [BitVec.toNat_ofNat]
    omega
  · rw [indices_eq_iff, page, page, BitVec.toNat_ofNat]
    omega

theorem userSpaceEnd_toNat : userSpaceEnd.toNat = 2 ^ 47 := by decide

/-- Mapping gives one absent page a frame. -/
theorem map_effect (wf : Wf space s) (masked : phys &&& addrMask = phys)
    (result : AddressSpace.map s space virt phys flags = some later) :
    UserPage virt ∧ walk s space virt = none ∧
      walk later space virt = some phys ∧
      ∀ page, UserPage page → page ≠ virt →
        walk later space page = walk s space page := by
  obtain ⟨low, aligned, -, allowed, absent, mapped⟩ :=
    AddressSpace.map_eq result
  have user : UserPage virt := by
    refine ⟨?_, aligned_val aligned⟩
    rw [← userSpaceEnd_toNat]
    exact BitVec.lt_def.mp low
  obtain ⟨here, elsewhere⟩ := map4k_effect wf (.inl user.1) aligned masked
    (userFlags_clear allowed) mapped
  refine ⟨user, absent, ?_, ?_⟩
  · simpa using here 0 (by omega)
  · intro page other distinct
    refine elsewhere page (.inl other.1) fun same => distinct ?_
    refine other.eq user ?_
    rw [indices_eq_iff, same]

/-- Unmapping takes the frame of one page, if it has one. -/
theorem unmap_effect (wf : Wf space s) {frame : Option (BitVec 64)}
    (result : AddressSpace.unmap s space virt = some (frame, later)) :
    virt.toNat < 2 ^ 47 ∧ ∃ page, UserPage page ∧
      frame = walk s space page ∧ walk later space page = none ∧
      ∀ other, UserPage other → other ≠ page →
        walk later space other = walk s space other := by
  have low : virt.toNat < 2 ^ 47 := by
    unfold AddressSpace.unmap at result
    split at result
    · cases result
    · rename_i below
      rw [← userSpaceEnd_toNat]
      exact BitVec.lt_def.mp (not_not.mp below)
  refine ⟨low, ?_⟩
  obtain ⟨page, user, same⟩ := exists_userPage low
  refine ⟨page, user, ?_⟩
  rcases unmapPage_cases wf (AddressSpace.unmap_eq result) with
    ⟨unmapped, rfl, rfl⟩ | ⟨middle, pt, cost, opens, mapped, rfl, rfl⟩
  · have absent := wf.walk_none same unmapped
    exact ⟨absent.symm, absent, fun _ _ _ => rfl⟩
  · obtain ⟨-, elsewhere, here⟩ := opens.writeLeaf 0
    refine ⟨?_, ?_, ?_⟩
    · rw [opens.walk_eq same]
      simp only [decode, mapped, if_true, user.aligned]
      exact congrArg some (BitVec.add_zero _).symm
    · rw [here page same, decode_absent (by decide)]
    · intro other otherUser distinct
      refine elsewhere other fun equal => distinct ?_
      exact otherUser.eq user (equal.trans same.symm)

/-- Protecting maps no page to another frame. -/
theorem protect_effect (wf : Wf space s) {done : Bool}
    (result : AddressSpace.protect s space virt flags = some (done, later))
    (page : BitVec 64) : walk later space page = walk s space page := by
  rcases AddressSpace.protect_cases result with rfl | ⟨allowed, result⟩
  · rfl
  · exact (protectLeaf_effect wf (userFlags_clear allowed) result).1 page

/-! ### Leaves of user pages -/

theorem leafOf_absent {level : Nat} (upper : level < 4)
    (reached : s.tableAt space (indices virt level) = some t)
    (absent : has (s.read t (index virt level)) present = false) : leafOf s space virt = none := by
  have below : indices virt (level + 1) <:+ indices virt 4 :=
    indices_suffix (by omega)
  rw [leafOf, stop_of_leaf reached (child_absent absent) below,
    Option.filter_some, if_neg (ne_true_of_eq_false absent)]

theorem leafOf_bottom {pt : BitVec 64} (reached : s.tableAt space (indices virt 3) = some pt)
    (mapped : has (s.read pt (index virt 3)) present = true) :
    leafOf s space virt = some (3, s.read pt (index virt 3)) := by
  have size := length_indices virt 3
  have below : indices virt (3 + 1) <:+ indices virt 4 := List.suffix_refl _
  rw [leafOf, stop_of_leaf reached (by rw [size]; exact child_bottom _) below,
    Option.filter_some, size, if_pos mapped]

/-- An address of the user half is mapped in the last of its tables. -/
theorem HugeFree.leafOf_some (free : HugeFree s space) (wf : Wf space s)
    (low : virt.toNat < 2 ^ 47) {leaf : Nat × BitVec 64} :
    leafOf s space virt = some leaf ↔
      ∃ pt, s.tableAt space (indices virt 3) = some pt ∧
        has (s.read pt (index virt 3)) present = true ∧
        leaf = (3, s.read pt (index virt 3)) := by
  constructor
  · intro mapped
    -- descend level by level: an entry that is present is not huge
    have descend : ∀ level < 3, ∀ t,
        s.tableAt space (indices virt level) = some t →
          ∃ u, s.tableAt space (indices virt (level + 1)) = some u := by
      intro level upper t reached
      cases found : has (s.read t (index virt level)) present with
      | false =>
        rw [leafOf_absent (by omega) reached found] at mapped
        cases mapped
      | true =>
        have flat : has (s.read t (index virt level)) huge = false := by
          cases level with
          | zero =>
            cases reached
            exact wf.topTables _ found
          | succ level =>
            have own : Own (indices virt (level + 1)) :=
              own_indices.mpr (index_user low)
            exact free _ _ _ own (by rw [length_indices]; omega) reached found
        exact ⟨_, tableAt_descend level upper reached found flat⟩
    obtain ⟨pdpt, one⟩ := descend 0 (by omega) space rfl
    obtain ⟨pd, two⟩ := descend 1 (by omega) pdpt one
    obtain ⟨pt, three⟩ := descend 2 (by omega) pd two
    refine ⟨pt, three, ?_⟩
    cases found : has (s.read pt (index virt 3)) present with
    | false =>
      rw [leafOf_absent (by omega) three found] at mapped
      cases mapped
    | true =>
      rw [leafOf_bottom three found] at mapped
      exact ⟨rfl, (Option.some.inj mapped).symm⟩
  · rintro ⟨pt, reached, mapped, rfl⟩
    exact leafOf_bottom reached mapped

theorem HugeFree.walk_some (free : HugeFree s space) (wf : Wf space s)
    {page frame : BitVec 64} (user : UserPage page) :
    walk s space page = some frame ↔
      ∃ pt, s.tableAt space (indices page 3) = some pt ∧
        has (s.read pt (index page 3)) present = true ∧
        s.read pt (index page 3) &&& addrMask = frame := by
  have bottom : ∀ {entry}, has entry present = true →
      decode page 3 entry = some (entry &&& addrMask) := by
    intro entry mapped
    simp only [decode, mapped, if_true, user.aligned]
    exact congrArg some (BitVec.add_zero _)
  rw [walk_leafOf wf, Option.bind_eq_some_iff]
  constructor
  · rintro ⟨leaf, found, decoded⟩
    obtain ⟨pt, reached, mapped, rfl⟩ := (free.leafOf_some wf user.1).mp found
    rw [bottom mapped] at decoded
    exact ⟨pt, reached, mapped, Option.some.inj decoded⟩
  · rintro ⟨pt, reached, mapped, rfl⟩
    exact ⟨_, leafOf_bottom reached mapped, bottom mapped⟩

end

end Eonos.Spaces
