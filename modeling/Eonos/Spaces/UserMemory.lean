import Eonos.Vmm.UserCopySafety
import Eonos.Spaces.Mapping

/-!
# User memory of a space

A mapping that a user copy follows leads through tables of the space and ends
in a frame mapped into it.  So a range stays valid while nobody works on the
space, and a copy to it succeeds and disturbs no table.
-/

namespace Eonos.Spaces

open Eonos.Vmm

section

variable {sys later : System} {space virt pdpt pd pt leaf : BitVec 64}
  {addr : BitVec 64} {write : Bool} {len : Nat}

theorem Inv.currentCr3 (inv : Inv sys) (member : space ∈ sys.spaces) : currentCr3 space = space :=
  (inv.space space member).wf.masked

theorem present_of_user {entry : BitVec 64} (all : hasAll entry (present ||| user) = true) :
    has entry present = true :=
  has_of_hasAll all (by decide) (by decide)

theorem present_of_userFlags {entry : BitVec 64} (all : hasAll entry (Vmm.userFlags write) = true) :
    has entry present = true := by
  cases write with
  | false => exact has_of_hasAll all (by decide) (by decide)
  | true => exact has_of_hasAll all (by decide) (by decide)

/-- The tables a user mapping leads through. -/
theorem Inv.userMapped_tables (inv : Inv sys) (member : space ∈ sys.spaces) {flags : BitVec 64}
    (mapped : UserMapped flags sys.machine.mem space virt pdpt pd pt leaf) :
    sys.view.tableAt space (indices virt 1) = some pdpt ∧
      sys.view.tableAt space (indices virt 2) = some pd ∧
      sys.view.tableAt space (indices virt 3) = some pt := by
  have top : sys.view.tableAt space (indices virt 0) = some space := rfl
  have first := tableAt_descend 0 (by omega) top (present_of_user mapped.top)
    ((inv.space space member).wf.flat _ (present_of_user mapped.top))
  have pdptAt : sys.view.read space (index virt 0) &&& addrMask = pdpt :=
    mapped.pdptAt
  rw [pdptAt] at first
  have second := tableAt_descend 1 (by omega) first
    (present_of_user mapped.second) mapped.secondTable
  have pdAt : sys.view.read pdpt (index virt 1) &&& addrMask = pd :=
    mapped.pdAt
  rw [pdAt] at second
  have third := tableAt_descend 2 (by omega) second (present_of_user mapped.third) mapped.thirdTable
  have ptAt : sys.view.read pd (index virt 2) &&& addrMask = pt := mapped.ptAt
  rw [ptAt] at third
  exact ⟨first, second, third⟩

theorem Inv.userMapped_own (inv : Inv sys) (member : space ∈ sys.spaces) (low : virt.toNat < 2 ^ 47)
    {flags table : BitVec 64} (mapped : UserMapped flags sys.machine.mem space virt pdpt pd pt leaf)
    (one : table ∈ [space, pdpt, pd, pt]) : OwnTable sys.view space table := by
  obtain ⟨first, second, third⟩ := inv.userMapped_tables member mapped
  simp only [List.mem_cons, List.not_mem_nil, or_false] at one
  rcases one with rfl | rfl | rfl | rfl
  · exact ownTable_root _ _
  · exact ⟨_, own_way low 1, first⟩
  · exact ⟨_, own_way low 2, second⟩
  · exact ⟨_, own_way low 3, third⟩

theorem Inv.userMapped_walk (inv : Inv sys) (member : space ∈ sys.spaces) {page : BitVec 64}
    (userPage : UserPage page) (same : indices page 4 = indices virt 4)
    (mapped : UserMapped (Vmm.userFlags write) sys.machine.mem space virt pdpt pd pt leaf) :
    walk sys.view space page = some (leaf &&& addrMask) := by
  obtain ⟨-, -, third⟩ := inv.userMapped_tables member mapped
  obtain ⟨last, way⟩ := List.cons.inj same
  refine ((inv.space space member).hugeFree.walk_some (inv.wf member) userPage).mpr ⟨pt, ?_, ?_, ?_⟩
  · rw [show indices page 3 = indices virt 3 from way]
    exact third
  · rw [show index page 3 = index virt 3 from last]
    have entry : sys.view.read pt (index virt 3) = leaf := mapped.leafAt
    rw [entry]
    exact present_of_userFlags mapped.allowed
  · rw [show index page 3 = index virt 3 from last]
    exact congrArg (· &&& addrMask) mapped.leafAt

theorem Inv.userMapped_frame (inv : Inv sys) (member : space ∈ sys.spaces)
    (low : virt.toNat < 2 ^ 47)
    (mapped : UserMapped (Vmm.userFlags write) sys.machine.mem space virt pdpt pd pt leaf) :
    leaf &&& addrMask ∈ sys.mapped space := by
  obtain ⟨page, userPage, same⟩ := exists_userPage low
  exact ((inv.space space member).frames _).mpr
    ⟨page, userPage, inv.userMapped_walk member userPage same mapped⟩

/-! ### Ranges -/

/-- A space whose tables read as before maps what it mapped. -/
theorem Inv.userMapped_keep (inv : Inv sys) (member : space ∈ sys.spaces)
    (low : virt.toNat < 2 ^ 47) {flags : BitVec 64} (same : SameOwn space sys.view later.view)
    (mapped : UserMapped flags sys.machine.mem space virt pdpt pd pt leaf) :
    UserMapped flags later.machine.mem space virt pdpt pd pt leaf := by
  refine mapped.congr fun table one i => ?_
  exact same i (inv.userMapped_own member low mapped one)

theorem byteAt_low {k : Nat} (inside : k < len) (fits : addr.toNat + len ≤ userSpaceEnd.toNat) :
    (byteAt addr k).toNat < 2 ^ 47 := by
  rw [byteAt_val inside fits]
  rw [userSpaceEnd_toNat] at fits
  omega

theorem Inv.userRange_keep (inv : Inv sys) (member : space ∈ sys.spaces)
    (same : SameOwn space sys.view later.view)
    (range : UserRange write sys.machine.mem space addr len) :
    UserRange write later.machine.mem space addr len := by
  rcases range with empty | ⟨small, fits, mapped⟩
  · exact .inl empty
  · refine .inr ⟨small, fits, fun k inside => ?_⟩
    obtain ⟨pdpt, pd, pt, leaf, here⟩ := mapped k inside
    rw [inv.currentCr3 member] at here ⊢
    exact ⟨pdpt, pd, pt, leaf, inv.userMapped_keep member (byteAt_low inside fits) same here⟩

/-- The bytes of a range lie in frames of processes. -/
theorem Inv.translates_owned (inv : Inv sys) (member : space ∈ sys.spaces)
    (fits : addr.toNat + len ≤ userSpaceEnd.toNat) {k b : Nat} (inside : k < len)
    (here : Translates write sys.machine.mem space addr k b) :
    ∃ frame, sys.Owned frame ∧ InFrame frame b := by
  obtain ⟨pdpt, pd, pt, leaf, mapped, rfl⟩ := here
  rw [inv.currentCr3 member] at mapped
  refine ⟨leaf &&& addrMask, .inr ⟨space, member, ?_⟩, ?_⟩
  · exact inv.userMapped_frame member (byteAt_low inside fits) mapped
  · rw [InFrame, leafByte_val]
    omega

theorem Inv.tablesApart (inv : Inv sys) (member : space ∈ sys.spaces)
    (fits : addr.toNat + len ≤ userSpaceEnd.toNat) :
    TablesApart sys.machine.mem space addr len := by
  intro k inside j alsoInside pdpt pd pt leaf pdpt' pd' pt' leaf' one two among
  rw [inv.currentCr3 member] at one two among
  have own := inv.userMapped_own member (byteAt_low alsoInside fits) two among
  have owned : sys.Owned (leaf &&& addrMask) := .inr ⟨space, member,
    inv.userMapped_frame member (byteAt_low inside fits) one⟩
  exact inv.owned_not_table owned member own

theorem Inv.framesDistinct (inv : Inv sys) (member : space ∈ sys.spaces)
    (fits : addr.toNat + len ≤ userSpaceEnd.toNat) :
    FramesDistinct sys.machine.mem space addr len := by
  intro k inside j alsoInside pdpt pd pt leaf pdpt' pd' pt' leaf' one two apart same
  rw [inv.currentCr3 member] at one two
  obtain ⟨first, firstPage, firstWay⟩ :=
    exists_userPage (byteAt_low inside fits)
  obtain ⟨second, secondPage, secondWay⟩ :=
    exists_userPage (byteAt_low alsoInside fits)
  have left := inv.userMapped_walk member firstPage firstWay one
  have right := inv.userMapped_walk member secondPage secondWay two
  rw [← same] at right
  have equal := (inv.space space member).once first second _ firstPage secondPage left right
  have pages := (indices_eq_iff (byteAt addr k) (byteAt addr j)).mp
    (by rw [← firstWay, ← secondWay, equal])
  have low := byteAt_low inside fits
  have alsoLow := byteAt_low alsoInside fits
  refine apart ?_
  simp only [page] at pages ⊢
  omega

/-! ### Writing to user memory -/

/-- Memory changes in frames of callers and processes only. -/
def System.fill (sys : System) (mem : Memory) : System :=
  { sys with machine := { sys.machine with mem } }

/-- `mem` differs from the memory of `sys` in owned frames at most. -/
def System.Fills (sys : System) (mem : Memory) : Prop :=
  ∀ b, (∀ frame, sys.Owned frame → ¬ InFrame frame b) →
    mem b = sys.machine.mem b

section

variable {mem : Memory}

theorem Inv.fill_read (inv : Inv sys) (fills : sys.Fills mem) {t : BitVec 64}
    (masked : t &&& addrMask = t) (table : ∀ frame, sys.Owned frame → frame ≠ t) (i : Fin 512) :
    (sys.fill mem).view.read t i = sys.view.read t i := by
  refine read_of_bytes fun b inside => fills b fun frame owned hit => ?_
  have lent := inv.lent frame owned.mem_ledger
  exact (frame_of_masked lent.masked).apart (frame_of_masked masked)
    (table frame owned) hit inside.inFrame

theorem Inv.fill_sameOwn (inv : Inv sys) (fills : sys.Fills mem) (member : space ∈ sys.spaces) :
    SameOwn space sys.view (sys.fill mem).view := by
  intro t i own
  refine inv.fill_read fills (inv.ownTable_lent member own).masked ?_ i
  rintro frame owned rfl
  exact inv.owned_not_table owned member own

theorem Inv.fill (inv : Inv sys) (fills : sys.Fills mem) : Inv (sys.fill mem) := by
  have sameKernel : SameKernel sys.kernel sys.view (sys.fill mem).view := by
    intro path t i found
    obtain ⟨lent, outside⟩ := inv.kernelLent path t found
    refine inv.fill_read fills lent.masked ?_ i
    rintro frame owned rfl
    exact outside owned.mem_ledger
  refine inv.quiet rfl (List.Sublist.refl _) rfl rfl rfl ⟨inv.sound.frames, inv.sound.small⟩
    sameKernel (fun _ member => inv.fill_sameOwn fills member) inv.ledger ?_ ?_
  · intro f inside
    obtain ⟨whole, loan⟩ := inv.lent f inside
    exact ⟨whole, loan⟩
  · intro path t found
    obtain ⟨⟨whole, loan⟩, outside⟩ := inv.kernelLent path t found
    exact ⟨⟨whole, loan⟩, outside⟩

end

/-- Copying to a valid range succeeds and writes to user memory only; the
process can read back what was copied. -/
theorem Inv.copyToUser (inv : Inv sys) (member : space ∈ sys.spaces) {src : List UInt8}
    (range : UserRange true sys.machine.mem space addr src.length) :
    ∃ mem, copyToUser sys.machine.mem space addr src = (true, mem) ∧
      sys.Fills mem ∧ ∀ k < src.length, ∃ b,
        Translates true mem space addr k b ∧ src[k]? = some (mem b) := by
  rcases range with empty | ⟨small, fits, mapped⟩
  · refine ⟨sys.machine.mem, ?_, fun _ _ => rfl, ?_⟩
    · obtain ⟨mem, copied, kept, -⟩ := copyToUser_copies
        (m := sys.machine.mem) (.inl empty : UserRange true _ space addr _)
        (fun k inside => absurd inside (by omega))
      have same : mem = sys.machine.mem := by
        funext b
        refine kept b fun k inside => ?_
        omega
      rw [copied, same]
    · intro k inside
      omega
  · obtain ⟨mem, copied, kept, holds⟩ := copyToUser_copies
      (.inr ⟨small, fits, mapped⟩) (inv.tablesApart member fits)
    have fills : sys.Fills mem := by
      intro b outside
      refine kept b fun k inside here => ?_
      obtain ⟨frame, owned, hit⟩ := inv.translates_owned member fits inside here
      exact outside frame owned hit
    refine ⟨mem, copied, fills, fun k inside => ?_⟩
    obtain ⟨b, here, value⟩ := holds (inv.framesDistinct member fits) k inside
    refine ⟨b, ?_, value⟩
    obtain ⟨pdpt, pd, pt, leaf, through, rfl⟩ := here
    rw [inv.currentCr3 member] at through
    refine ⟨pdpt, pd, pt, leaf, ?_, rfl⟩
    rw [inv.currentCr3 member]
    exact @Inv.userMapped_keep sys (sys.fill mem) _ _ _ _ _ _ inv member
      (byteAt_low inside fits) _ (inv.fill_sameOwn fills member) through

end

end Eonos.Spaces
