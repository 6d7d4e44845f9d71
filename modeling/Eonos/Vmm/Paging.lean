import Eonos.Lib.Reachable
import Eonos.Vmm.Operations

/-!
# One page at a time

Over every run of the page-table operations, mapping, unmapping and protecting
one 4 KiB page leaves the translation of every other page as it was, also where
a huge page had to be split on the way.
-/

namespace Eonos.Vmm

open Eonos.Lib.TableTree

/-! ### Pages and addresses -/

/-- The addresses a processor accepts: bits 47 to 63 agree. -/
def Canonical (virt : BitVec 64) : Prop :=
  virt.toNat < 2 ^ 47 ∨ 2 ^ 64 - 2 ^ 47 ≤ virt.toNat

def page (virt : BitVec 64) : Nat := virt.toNat / 4096

theorem offset4k_val (virt : BitVec 64) : (virt &&& 0xfff#64).toNat = virt.toNat % 4096 := by
  rw [Lib.toNat_and_field offset4k_field]
  omega

variable {virt : BitVec 64} {o : Nat}

theorem aligned_val (aligned : virt &&& 0xfff#64 = 0) : virt.toNat % 4096 = 0 := by
  rw [← offset4k_val, aligned]
  rfl

theorem indices_eq_iff (first second : BitVec 64) :
    indices first 4 = indices second 4 ↔ page first % 2 ^ 36 = page second % 2 ^ 36 := by
  have level : ∀ l, index first l = index second l ↔
      first.toNat / 2 ^ (39 - l * 9) % 512 = second.toNat / 2 ^ (39 - l * 9) % 512 := by
    intro l
    rw [← index_val, ← index_val, Fin.ext_iff]
  simp only [indices, List.cons.injEq, and_true, level, page]
  norm_num
  omega

/-- Canonical addresses of distinct pages part ways in the tables. -/
theorem indices_ne {first second : BitVec 64} (one : Canonical first) (two : Canonical second)
    (distinct : page first ≠ page second) : indices first 4 ≠ indices second 4 := by
  rw [Ne, indices_eq_iff]
  have bound := first.isLt
  have otherBound := second.isLt
  simp only [Canonical, page] at one two distinct ⊢
  omega

theorem offset_val (small : o < 4096) (aligned : virt &&& 0xfff#64 = 0) :
    (virt + BitVec.ofNat 64 o).toNat = virt.toNat + o := by
  have value := aligned_val aligned
  have bound := virt.isLt
  rw [BitVec.toNat_add, BitVec.toNat_ofNat]
  omega

theorem indices_offset (small : o < 4096) (aligned : virt &&& 0xfff#64 = 0) :
    indices (virt + BitVec.ofNat 64 o) 4 = indices virt 4 := by
  have value := aligned_val aligned
  rw [indices_eq_iff, page, page, offset_val small aligned]
  omega

theorem offset4k_offset (small : o < 4096) (aligned : virt &&& 0xfff#64 = 0) :
    (virt + BitVec.ofNat 64 o) &&& 0xfff#64 = BitVec.ofNat 64 o := by
  have value := aligned_val aligned
  apply BitVec.eq_of_toNat_eq
  rw [offset4k_val, offset_val small aligned, BitVec.toNat_ofNat]
  omega

section

variable {root : BitVec 64} {s later : State}

/-! ### Writing a 4 KiB leaf -/

variable {pt flags phys : BitVec 64}

/-- The 4 KiB leaf at the end of an open way is replaced. -/
theorem Opens.writeLeaf {virt : BitVec 64} {cost : Nat} {middle : State}
    (opens : Opens root s middle (indices virt 3) pt cost) (entry : BitVec 64) :
    Wf root (middle.write pt (index virt 3) entry) ∧
      (∀ other, indices other 4 ≠ indices virt 4 →
        walk (middle.write pt (index virt 3) entry) root other =
          walk s root other) ∧
      ∀ other, indices other 4 = indices virt 4 →
        walk (middle.write pt (index virt 3) entry) root other =
          decode other 3 entry := by
  have size := length_indices virt 3
  obtain ⟨wf, elsewhere, here⟩ := opens.grows.wf.writeLeaf (index virt 3) entry (by simp [indices])
    opens.reached (by rw [size]; exact child_bottom _) (by rw [size]; exact child_bottom _)
  rw [size] at elsewhere here
  refine ⟨wf, ?_, ?_⟩
  · intro other distinct
    rw [elsewhere other distinct, opens.grows.walks]
  · intro other same
    exact here other (Nat.le_refl 3) same

/-- The leaf an open way ends in is what the address translated through. -/
theorem Opens.walk_eq {virt : BitVec 64} {cost : Nat} {middle : State}
    (opens : Opens root s middle (indices virt 3) pt cost) {other : BitVec 64}
    (same : indices other 4 = indices virt 4) :
    walk s root other = decode other 3 (middle.read pt (index virt 3)) := by
  rw [indices_succ other 3, indices_succ virt 3] at same
  obtain ⟨last, way⟩ := List.cons.inj same
  rw [← opens.grows.walks, opens.grows.wf.walk_of_leaf other pt 3
    (Nat.le_refl 3) (by rw [way]; exact opens.reached) (child_bottom _), last]

theorem decode_leaf {virt address : BitVec 64} (masked : address &&& addrMask = address)
    (clear : flags &&& addrMask = 0) :
    decode virt 3 (address ||| flags ||| present) = some (address + (virt &&& 0xfff#64)) := by
  have mapped : has (address ||| flags ||| present) present = true := by
    simp [has_or, show has present present = true by decide]
  simp only [decode, mapped, if_true]
  rw [and_mask_of_flags (by decide), and_mask_of_flags clear, masked]

/-! ### Mapping -/

theorem map4k_opens (wf : Wf root s) {virt : BitVec 64}
    (result : map4k s root virt phys flags = some later) :
    ∃ middle pt, Opens root s middle (indices virt 3) pt 3 ∧
      later = middle.write pt (index virt 3)
        ((phys &&& addrMask) ||| flags ||| present) := by
  have top : s.tableAt root (indices virt 0) = some root := rfl
  obtain ⟨⟨pdpt, first⟩, one, result⟩ := Option.bind_eq_some_iff.mp result
  obtain ⟨⟨pd, second⟩, two, result⟩ := Option.bind_eq_some_iff.mp result
  obtain ⟨⟨pt, third⟩, three, result⟩ := Option.bind_eq_some_iff.mp result
  cases result
  have upper : (indices virt 0).length < 3 := by
    rw [length_indices]
    omega
  have toPdpt := childTable_opens wf upper top one
  have toPd := pdFor_opens toPdpt.grows.wf toPdpt.reached two
  have toPt := ptFor_opens toPd.grows.wf toPd.reached three
  exact ⟨third, pt, (toPdpt.trans toPd).trans toPt, rfl⟩

theorem pdFor_total (wf : Wf root s) {virt pdpt : BitVec 64}
    (reached : s.tableAt root (indices virt 1) = some pdpt) (left : 0 < s.pool.length) :
    ∃ pd later, pdFor s pdpt virt = some (pd, later) := by
  unfold pdFor
  dsimp only
  split
  case isTrue kinds =>
    obtain ⟨mapped, big⟩ := (Bool.and_eq_true _ _).mp kinds
    obtain ⟨middle, split⟩ := split1gHuge_total pdpt (index virt 1) left
    obtain ⟨pd, opens⟩ :=
      split1gHuge_opens wf (length_indices _ _) reached mapped big split
    obtain ⟨now, flat, -⟩ := opens.entry reached
    exact ⟨_, _, Option.bind_eq_some_iff.mpr ⟨middle, split, childTable_present now flat⟩⟩
  case isFalse kinds =>
    have flat : has (s.read pdpt (index virt 1)) present = true →
        has (s.read pdpt (index virt 1)) huge = false := by
      intro mapped
      simpa [mapped] using kinds
    obtain ⟨pd, later, result⟩ := childTable_total flat left
    exact ⟨pd, later, Option.bind_eq_some_iff.mpr ⟨s, rfl, result⟩⟩

theorem ptFor_total (wf : Wf root s) {virt pd : BitVec 64}
    (reached : s.tableAt root (indices virt 2) = some pd) (left : 0 < s.pool.length) :
    ∃ pt later, ptFor s pd virt = some (pt, later) := by
  unfold ptFor
  dsimp only
  split
  case isTrue kinds =>
    obtain ⟨mapped, big⟩ := (Bool.and_eq_true _ _).mp kinds
    obtain ⟨middle, split⟩ := splitHuge_total pd (index virt 2) left
    obtain ⟨pt, opens⟩ :=
      splitHuge_opens wf (length_indices _ _) reached mapped big split
    obtain ⟨now, flat, -⟩ := opens.entry reached
    exact ⟨_, _, Option.bind_eq_some_iff.mpr ⟨middle, split, childTable_present now flat⟩⟩
  case isFalse kinds =>
    have flat : has (s.read pd (index virt 2)) present = true →
        has (s.read pd (index virt 2)) huge = false := by
      intro mapped
      simpa [mapped] using kinds
    obtain ⟨pt, later, result⟩ := childTable_total flat left
    exact ⟨pt, later, Option.bind_eq_some_iff.mpr ⟨s, rfl, result⟩⟩

theorem map4k_total (wf : Wf root s) {virt phys flags : BitVec 64} (left : 3 ≤ s.pool.length) :
    ∃ later, map4k s root virt phys flags = some later := by
  have top : s.tableAt root (indices virt 0) = some root := rfl
  have upper : (indices virt 0).length < 3 := by
    rw [length_indices]
    omega
  obtain ⟨pdpt, first, one⟩ :=
    childTable_total (wf.topTables (index virt 0)) (by omega)
  have toPdpt := childTable_opens wf upper top one
  have firstPool := toPdpt.pool
  obtain ⟨pd, second, two⟩ :=
    pdFor_total toPdpt.grows.wf toPdpt.reached (by omega)
  have toPd := pdFor_opens toPdpt.grows.wf toPdpt.reached two
  have secondPool := toPd.pool
  obtain ⟨pt, third, three⟩ :=
    ptFor_total toPd.grows.wf toPd.reached (by omega)
  exact ⟨_, Option.bind_eq_some_iff.mpr ⟨_, one, Option.bind_eq_some_iff.mpr ⟨_, two,
    Option.bind_eq_some_iff.mpr ⟨_, three, rfl⟩⟩⟩⟩

theorem map4k_wf (wf : Wf root s) {virt : BitVec 64}
    (result : map4k s root virt phys flags = some later) : Wf root later := by
  obtain ⟨middle, pt, opens, rfl⟩ := map4k_opens wf result
  exact (opens.writeLeaf _).1

theorem map2m_wf (wf : Wf root s) {virt : BitVec 64}
    (result : map2m s root virt phys flags = some later) : Wf root later := by
  have top : s.tableAt root (indices virt 0) = some root := rfl
  obtain ⟨⟨pdpt, first⟩, one, result⟩ := Option.bind_eq_some_iff.mp result
  obtain ⟨⟨pd, second⟩, two, result⟩ := Option.bind_eq_some_iff.mp result
  have toPdpt := childTable_opens wf (by rw [length_indices]; omega) top one
  rw [← indices_succ] at toPdpt
  have toPd := childTable_opens toPdpt.grows.wf (by rw [length_indices]; omega) toPdpt.reached two
  rw [← indices_succ] at toPd
  dsimp only at result
  split at result
  case isTrue => cases result
  case isFalse kinds =>
    cases result
    have size := length_indices virt 2
    refine (toPd.grows.wf.writeLeaf (index virt 2) _ (by simp [indices]) toPd.reached ?_ ?_).1
    · rw [size]
      cases mapped : has (second.read pd (index virt 2)) present with
      | false => exact child_absent mapped
      | true => exact child_huge (by simpa [mapped] using kinds)
    · refine child_huge ?_
      simp [has_or, show has huge huge = true by decide]

/-! ### Unmapping and protecting -/

theorem unmapPage_cases (wf : Wf root s) {virt : BitVec 64} {frame : Option (BitVec 64)}
    (result : unmapPage s root virt = some (frame, later)) :
    (walk s root virt = none ∧ frame = none ∧ later = s) ∨
      ∃ middle pt cost, Opens root s middle (indices virt 3) pt cost ∧
        has (middle.read pt (index virt 3)) present = true ∧
        frame = some (middle.read pt (index virt 3) &&& addrMask) ∧
        later = middle.write pt (index virt 3) 0 := by
  obtain ⟨found, search, result⟩ := Option.bind_eq_some_iff.mp result
  cases leafFor_leaf wf search with
  | absent unmapped =>
    cases result
    exact .inl ⟨unmapped, rfl, rfl⟩
  | found opens mapped =>
    cases result
    exact .inr ⟨_, _, _, opens, mapped, rfl, rfl⟩

theorem protectLeaf_cases (wf : Wf root s) {virt : BitVec 64}
    {done : Bool} (result : protectLeaf s root virt flags = some (done, later)) :
    (walk s root virt = none ∧ later = s) ∨
      ∃ middle pt cost, Opens root s middle (indices virt 3) pt cost ∧
        has (middle.read pt (index virt 3)) present = true ∧
        later = middle.write pt (index virt 3)
          ((middle.read pt (index virt 3) &&& addrMask) ||| flags |||
            present) := by
  obtain ⟨found, search, result⟩ := Option.bind_eq_some_iff.mp result
  cases leafFor_leaf wf search with
  | absent unmapped =>
    cases result
    exact .inl ⟨unmapped, rfl⟩
  | found opens mapped =>
    cases result
    exact .inr ⟨_, _, _, opens, mapped, rfl⟩

theorem unmapPage_wf (wf : Wf root s) {virt : BitVec 64} {frame : Option (BitVec 64)}
    (result : unmapPage s root virt = some (frame, later)) : Wf root later := by
  rcases unmapPage_cases wf result with ⟨-, -, rfl⟩ | ⟨_, _, _, opens, -, -, rfl⟩
  · exact wf
  · exact (opens.writeLeaf 0).1

theorem protectLeaf_wf (wf : Wf root s) {virt : BitVec 64} {done : Bool}
    (result : protectLeaf s root virt flags = some (done, later)) : Wf root later := by
  rcases protectLeaf_cases wf result with ⟨-, rfl⟩ | ⟨_, _, _, opens, -, rfl⟩
  · exact wf
  · exact (opens.writeLeaf _).1

theorem unmapPage_total (wf : Wf root s) {virt : BitVec 64} (left : 2 ≤ s.pool.length) :
    ∃ frame later, unmapPage s root virt = some (frame, later) := by
  obtain ⟨found, search⟩ := leafFor_total wf virt left
  rcases found with ⟨none | pt, middle⟩
  · exact ⟨_, _, Option.bind_eq_some_iff.mpr ⟨_, search, rfl⟩⟩
  · exact ⟨_, _, Option.bind_eq_some_iff.mpr ⟨_, search, rfl⟩⟩

/-- Where the page table of an address exists, unmapping it takes no frame. -/
theorem unmapPage_of_table {virt : BitVec 64} (found : s.tableAt root (indices virt 3) = some pt) :
    ∃ frame later, unmapPage s root virt = some (frame, later) := by
  obtain ⟨pd, found, toPt⟩ := Option.bind_eq_some_iff.mp found
  obtain ⟨pdpt, found, toPd⟩ := Option.bind_eq_some_iff.mp found
  obtain ⟨top, found, toPdpt⟩ := Option.bind_eq_some_iff.mp found
  cases found
  obtain ⟨-, present0, flat0, rfl⟩ := child_some toPdpt
  obtain ⟨-, present1, flat1, rfl⟩ := child_some toPd
  obtain ⟨-, present2, flat2, rfl⟩ := child_some toPt
  unfold unmapPage leafFor leafPdpt leafPd leafPt
  simp only [present0, flat0, present1, flat1, present2, flat2, Bool.not_true,
    Bool.or_false, Bool.false_eq_true, if_false]
  split
  · exact ⟨_, _, rfl⟩
  · exact ⟨_, _, rfl⟩

theorem protectLeaf_total (wf : Wf root s) {virt : BitVec 64} (left : 2 ≤ s.pool.length) :
    ∃ done later, protectLeaf s root virt flags = some (done, later) := by
  obtain ⟨found, search⟩ := leafFor_total wf virt left
  rcases found with ⟨none | pt, middle⟩
  · exact ⟨_, _, Option.bind_eq_some_iff.mpr ⟨_, search, rfl⟩⟩
  · exact ⟨_, _, Option.bind_eq_some_iff.mpr ⟨_, search, rfl⟩⟩

end

end Eonos.Vmm
