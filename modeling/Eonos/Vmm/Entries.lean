import Eonos.Lib.Bits
import Eonos.Vmm.Model

/-!
# Entries bit by bit

What the masks keep of an entry, which entries the split of a huge page writes,
and how the indices of an address make up its offset in a page.
-/

namespace Eonos.Vmm

open Eonos.Lib

theorem addrMask_field : IsField addrMask 12 52 :=
  isField_of_forall (by decide) (by decide +kernel)

theorem huge2mMask_field : IsField huge2mMask 21 52 :=
  isField_of_forall (by decide) (by decide +kernel)

theorem huge1gMask_field : IsField huge1gMask 30 52 :=
  isField_of_forall (by decide) (by decide +kernel)

theorem offset4k_field : IsField 0xfff#64 0 12 :=
  isField_of_forall (by decide) (by decide +kernel)

theorem offset2m_field : IsField (huge2m - 1) 0 21 :=
  isField_of_forall (by decide) (by decide +kernel)

theorem offset1g_field : IsField (huge1g - 1) 0 30 :=
  isField_of_forall (by decide) (by decide +kernel)

theorem index_field : IsField 0x1ff#64 0 9 :=
  isField_of_forall (by decide) (by decide +kernel)

theorem index_val (virt : BitVec 64) (level : Nat) :
    (index virt level : Nat) = virt.toNat / 2 ^ (39 - level * 9) % 512 := by
  change ((virt >>> (39 - level * 9)) &&& 0x1ff#64).toNat = _
  rw [toNat_and_field index_field, BitVec.toNat_ushiftRight, Nat.shiftRight_eq_div_pow]
  norm_num

/-! ### Flags -/

theorem has_or (first second flag : BitVec 64) :
    has (first ||| second) flag = (has first flag || has second flag) := by
  have split : (first ||| second) &&& flag = (first &&& flag) ||| (second &&& flag) := by
    ext i
    simp [Bool.and_or_distrib_right]
  rw [has, has, has, split, Bool.eq_iff_iff]
  simp only [bne_iff_ne, ne_eq, Bool.or_eq_true, BitVec.ofNat_eq_ofNat, BitVec.or_eq_zero_iff]
  exact not_and_or

theorem and_mask_of_flags {address flags mask : BitVec 64} (clear : flags &&& mask = 0) :
    (address ||| flags) &&& mask = address &&& mask := by
  have split : (address ||| flags) &&& mask = (address &&& mask) ||| (flags &&& mask) := by
    ext i
    simp [Bool.and_or_distrib_right]
  rw [split, clear]
  exact BitVec.or_zero

variable {x : BitVec 64}

theorem and_addrMask_of_aligned (small : x.toNat < 2 ^ 52)
    (aligned : x.toNat % 4096 = 0) : x &&& addrMask = x := by
  apply BitVec.eq_of_toNat_eq
  rw [toNat_and_field addrMask_field, Nat.mod_eq_of_lt small]
  omega

theorem toNat_of_addrMask (masked : x &&& addrMask = x) :
    x.toNat < 2 ^ 52 ∧ x.toNat % 4096 = 0 := by
  have value := toNat_and_field addrMask_field x
  rw [masked] at value
  omega

theorem frame_of_masked (masked : x &&& addrMask = x) : Frame x :=
  ⟨(toNat_of_addrMask masked).2⟩

theorem addrMask_idem (x : BitVec 64) : (x &&& addrMask) &&& addrMask = x &&& addrMask := by
  rw [BitVec.and_assoc, BitVec.and_self]

/-! ### The entry that links a table -/

def linkEntry (phys : BitVec 64) : BitVec 64 :=
  phys ||| present ||| writable ||| user

theorem linkEntry_addr {phys : BitVec 64} (masked : phys &&& addrMask = phys) :
    linkEntry phys &&& addrMask = phys := by
  rw [linkEntry, and_mask_of_flags (by decide), and_mask_of_flags (by decide),
    and_mask_of_flags (by decide), masked]

theorem linkEntry_present (phys : BitVec 64) : has (linkEntry phys) present = true := by
  simp [linkEntry, has_or, show has present present = true by decide]

theorem has_huge_of_masked (masked : x &&& addrMask = x) : has x huge = false := by
  have clear : x &&& huge = 0 := by
    rw [← masked, BitVec.and_assoc]
    simp [show addrMask &&& huge = 0 by decide]
  simp [has, clear]

theorem linkEntry_huge {phys : BitVec 64} (masked : phys &&& addrMask = phys) :
    has (linkEntry phys) huge = false := by
  simp [linkEntry, has_or, has_huge_of_masked masked, show has present huge = false by decide, show
    has writable huge = false by decide, show has user huge = false by decide]

/-! ### Splitting -/

theorem kept_flags_clear (entry mask : BitVec 64) (inside : addrMask &&& mask = mask) :
    (entry &&& ~~~addrMask &&& ~~~huge) &&& mask = 0 := by
  have disjoint : ~~~addrMask &&& mask = 0 := by
    rw [← inside, ← BitVec.and_assoc]
    simp [show ~~~addrMask &&& addrMask = 0 by decide]
  rw [BitVec.and_assoc, BitVec.and_comm (~~~huge), ← BitVec.and_assoc,
    BitVec.and_assoc entry, disjoint]
  simp

theorem has_present_kept {entry : BitVec 64} (mapped : has entry present = true) :
    has (entry &&& ~~~addrMask &&& ~~~huge) present = true := by
  have same : (entry &&& ~~~addrMask &&& ~~~huge) &&& present = entry &&& present := by
    rw [BitVec.and_assoc, BitVec.and_assoc]
    congr 1
  rw [has, same]
  exact mapped

theorem splitEntry_present {entry : BitVec 64} (i : Fin 512) (mapped : has entry present = true) :
    has (splitEntry entry i) present = true := by
  unfold splitEntry
  dsimp only
  split <;> simp [has_or, has_present_kept mapped]

theorem splitEntry_addr (entry : BitVec 64) (i : Fin 512) :
    splitEntry entry i &&& addrMask =
      (entry &&& huge2mMask) + BitVec.ofNat 64 i * BitVec.ofNat 64 pageSize := by
  have bound := i.isLt
  have base := toNat_and_field huge2mMask_field entry
  have value : ((entry &&& huge2mMask) +
      BitVec.ofNat 64 i * BitVec.ofNat 64 pageSize).toNat =
        entry.toNat % 2 ^ 52 / 2 ^ 21 * 2 ^ 21 + i * 4096 := by
    rw [BitVec.toNat_add, BitVec.toNat_mul, base, BitVec.toNat_ofNat, BitVec.toNat_ofNat, pageSize]
    omega
  have kept : ((entry &&& huge2mMask) +
      BitVec.ofNat 64 i * BitVec.ofNat 64 pageSize) &&& addrMask =
        (entry &&& huge2mMask) +
          BitVec.ofNat 64 i * BitVec.ofNat 64 pageSize :=
    and_addrMask_of_aligned (by omega) (by omega)
  have clear := kept_flags_clear entry addrMask (by decide)
  unfold splitEntry
  dsimp only
  split
  · rw [← BitVec.or_assoc, and_mask_of_flags (by decide), and_mask_of_flags clear, kept]
  · rw [and_mask_of_flags clear, kept]

theorem split1gEntry_present (entry : BitVec 64) (i : Fin 512) :
    has (split1gEntry entry i) present = true := by
  simp [split1gEntry, has_or, show has present present = true by decide]

theorem split1gEntry_huge (entry : BitVec 64) (i : Fin 512) :
    has (split1gEntry entry i) huge = true := by
  simp [split1gEntry, has_or, show has huge huge = true by decide]

theorem split1gEntry_addr (entry : BitVec 64) (i : Fin 512) :
    split1gEntry entry i &&& huge2mMask = (entry &&& huge1gMask) + BitVec.ofNat 64 i * huge2m := by
  have bound := i.isLt
  have base := toNat_and_field huge1gMask_field entry
  have value : ((entry &&& huge1gMask) + BitVec.ofNat 64 i * huge2m).toNat =
      entry.toNat % 2 ^ 52 / 2 ^ 30 * 2 ^ 30 + i * 0x200000 := by
    rw [BitVec.toNat_add, BitVec.toNat_mul, base, BitVec.toNat_ofNat,
      show huge2m.toNat = 0x200000 by decide]
    omega
  have kept : ((entry &&& huge1gMask) + BitVec.ofNat 64 i * huge2m) &&&
      huge2mMask = (entry &&& huge1gMask) + BitVec.ofNat 64 i * huge2m := by
    apply BitVec.eq_of_toNat_eq
    rw [toNat_and_field huge2mMask_field, value]
    omega
  have clear := kept_flags_clear entry huge2mMask (by decide)
  unfold split1gEntry
  dsimp only
  rw [and_mask_of_flags (by decide), and_mask_of_flags (by decide)]
  split
  · rw [← BitVec.or_assoc, and_mask_of_flags (by decide), and_mask_of_flags clear, kept]
  · rw [and_mask_of_flags clear, kept]

/-! ### Offsets -/

theorem offset2m_split (virt : BitVec 64) :
    BitVec.ofNat 64 (index virt 3) * BitVec.ofNat 64 pageSize +
      (virt &&& 0xfff#64) = virt &&& (huge2m - 1) := by
  apply BitVec.eq_of_toNat_eq
  have value := index_val virt 3
  rw [BitVec.toNat_add, BitVec.toNat_mul, toNat_and_field offset4k_field, toNat_and_field
    offset2m_field, BitVec.toNat_ofNat, BitVec.toNat_ofNat, pageSize, value]
  omega

theorem offset1g_split (virt : BitVec 64) :
    BitVec.ofNat 64 (index virt 2) * huge2m + (virt &&& (huge2m - 1)) = virt &&& (huge1g - 1) := by
  apply BitVec.eq_of_toNat_eq
  have value := index_val virt 2
  rw [BitVec.toNat_add, BitVec.toNat_mul, toNat_and_field offset2m_field, toNat_and_field
    offset1g_field, BitVec.toNat_ofNat, value, show huge2m.toNat = 0x200000 by decide]
  omega

end Eonos.Vmm
