import Eonos.Spaces.Teardown

/-!
# Events keep the ownership of frames

An operation on a space writes to the space's own tables and to frames it takes
from the pool, an operation on the kernel's tables only adds tables to them.
-/

namespace Eonos.Spaces

open Eonos.Vmm
open Eonos.Lib.TableTree

section

variable {sys : System} {space other virt : BitVec 64} {s : Vmm.State}
  {used : List (BitVec 64)}

theorem System.used_eq (taken : sys.machine.pool = used ++ s.pool) : sys.used s = used := by
  unfold System.used
  rw [taken, List.length_append, Nat.add_sub_cancel, List.take_left]

theorem own_way (low : virt.toNat < 2 ^ 47) (level : Nat) : Own (indices virt level) := by
  cases level with
  | zero => exact own_nil
  | succ level => exact own_indices.mpr (index_user low)

theorem System.ledger_perm (member : space ∈ sys.spaces) :
    sys.ledger.Perm (sys.held ++ ((sys.tables space ++ sys.mapped space) ++
      (sys.spaces.erase space).flatMap fun other =>
        sys.tables other ++ sys.mapped other)) := by
  unfold System.ledger
  refine List.Perm.append_left _ ?_
  have front := (List.perm_cons_erase member).flatMap_right fun other =>
    sys.tables other ++ sys.mapped other
  rw [List.flatMap_cons] at front
  exact front

/-! ### Operations on a space -/

section

variable (inv : Inv sys) (member : space ∈ sys.spaces)
  (low : virt.toNat < 2 ^ 47) (down : Descends space virt 4 sys.view s)

include inv

theorem Inv.not_pool {f : BitVec 64} (lent : sys.machine.Lent f) : f ∉ sys.view.pool :=
  fun inPool => inv.sound.pool_not_lent inPool lent

include member low down

theorem Inv.read_foreign {u : BitVec 64} (lent : sys.machine.Lent u)
    (foreign : ¬ OwnTable sys.view space u) (j : Fin 512) : s.read u j = sys.view.read u j := by
  refine down.read_other (inv.wf member) lent.masked (inv.not_pool lent) ?_
  rintro l below t found ⟨rfl, -⟩
  exact foreign ⟨_, own_way low l, found⟩

theorem Inv.sameKernel_space : SameKernel sys.kernel sys.view s := by
  intro path t i found
  refine inv.read_foreign member low down (inv.kernelLent path t found).1 ?_ i
  intro own
  exact (inv.space space member).wf.foreign own found

theorem Inv.sameOwn_space (another : other ∈ sys.spaces)
    (distinct : other ≠ space) : SameOwn other sys.view s := by
  intro t i own
  exact inv.read_foreign member low down (inv.ownTable_lent another own)
    (inv.own_disjoint another member distinct own) i

theorem Inv.read_upper {i : Fin 512} (high : 256 ≤ i.val) :
    s.read space i = sys.view.read space i := by
  have wf := inv.wf member
  have lent := inv.ownTable_lent member (ownTable_root sys.view space)
  refine down.read_other wf lent.masked (inv.not_pool lent) ?_
  rintro l below t found ⟨rfl, rfl⟩
  have top : sys.view.tableAt t [] = some t := rfl
  have size := congrArg List.length (wf.apart found top)
  rw [length_indices, List.length_nil] at size
  subst size
  have slot := index_user low
  omega

end

/-- The system after an operation on `space` that ended in `s`, with the frames
that were in the callers' hands or mapped shared out anew. -/
def System.moved (sys : System) (space : BitVec 64) (s : Vmm.State)
    (held mapped : List (BitVec 64)) : System :=
  { sys.onSpace space s with
    held := held
    mapped := Function.update sys.mapped space mapped }

section

variable {held mapped : List (BitVec 64)} (inv : Inv sys)
  (member : space ∈ sys.spaces) (taken : sys.view.pool = used ++ s.pool)

include inv taken

theorem Inv.moved_view : (sys.moved space s held mapped).view = s :=
  (inv.sound.after taken).2.1

theorem Inv.moved_lent {f : BitVec 64} :
    (sys.moved space s held mapped).machine.Lent f ↔ sys.machine.Lent f ∨ f ∈ used :=
  inv.sound.lent_after taken

theorem Inv.used_not_lent {f : BitVec 64} (fresh : f ∈ used) : ¬ sys.machine.Lent f := by
  refine inv.sound.pool_not_lent ?_
  change f ∈ sys.view.pool
  rw [taken]
  exact List.mem_append_left _ fresh

include member

/-- The ledger gains the frames taken from the pool. -/
theorem Inv.moved_ledger (moves : (held ++ mapped).Perm (sys.held ++ sys.mapped space)) :
    (sys.moved space s held mapped).ledger.Perm (used ++ sys.ledger) := by
  have others : ∀ another ∈ sys.spaces.erase space, another ≠ space := by
    rintro another inside rfl
    exact inv.nodup.not_mem_erase inside
  have rest : ((sys.spaces.erase space).flatMap fun other =>
      (sys.moved space s held mapped).tables other ++
        (sys.moved space s held mapped).mapped other) =
      (sys.spaces.erase space).flatMap fun other =>
        sys.tables other ++ sys.mapped other := by
    refine List.flatMap_congr fun another inside => ?_
    exact congrArg₂ _ (Function.update_of_ne (others another inside) _ _)
      (Function.update_of_ne (others another inside) _ _)
  have tables : (sys.moved space s held mapped).tables space = sys.tables space ++ used := by
    rw [← System.used_eq taken]
    exact Function.update_self _ _ _
  have frames : (sys.moved space s held mapped).mapped space = mapped :=
    Function.update_self _ _ _
  have later : (sys.moved space s held mapped).ledger.Perm _ :=
    System.ledger_perm member
  have before := System.ledger_perm member
  refine later.trans (List.Perm.trans ?_ (before.symm.append_left used))
  change (held ++ (_ ++ (sys.spaces.erase space).flatMap _)).Perm _
  rw [rest, tables, frames]
  refine List.perm_iff_count.mpr fun f => ?_
  have count := moves.count_eq f
  simp only [List.count_append] at count ⊢
  omega

variable (low : virt.toNat < 2 ^ 47) (down : Descends space virt 4 sys.view s)

include low down

theorem Inv.moved_kernel : Wf sys.kernel (sys.moved space s held mapped).view := by
  refine SameKernel.wf ?_ inv.kernel (inv.sound.after taken).1 ?_
  · have same := inv.sameKernel_space member low down
    rw [← inv.moved_view taken] at same
    exact same
  · intro path t found
    exact (inv.moved_lent taken).mpr (.inl (inv.kernelLent path t found).1)

theorem Inv.moved_other (another : other ∈ sys.spaces) (distinct : other ≠ space) :
    SpaceInv (sys.moved space s held mapped) other := by
  have view : (sys.moved space s held mapped).view = s := inv.moved_view taken
  have sameKernel := inv.sameKernel_space member low down
  have records := inv.space other another
  refine records.keep (inv.wf another) rfl (inv.moved_kernel member taken low down) (inv.sound.after
    taken).1 ?_ ?_ ?_ ?_ rfl (Function.update_of_ne distinct _ _) (Function.update_of_ne distinct _
    _)
  · rw [view]
    exact inv.sameOwn_space member low down another distinct
  · intro i _
    rw [view]
    exact sameKernel [] _ i rfl
  · intro t path own found
    rw [view, sameKernel.tableAt] at found
    exact records.wf.foreign own found
  · intro t inside
    exact (inv.moved_lent taken).mpr
      (.inl (inv.ownTable_lent another ((records.tables t).mp inside)))

omit inv member taken in
theorem ownTable_after
    (new : ∀ path t, s.tableAt space path = some t →
      sys.view.tableAt space path = some t ∨
        t ∈ used ∧ path <:+ indices virt 4)
    (linked : ∀ t ∈ used, ∃ path, path <:+ indices virt 4 ∧ s.tableAt space path = some t)
    (t : BitVec 64) : OwnTable s space t ↔ OwnTable sys.view space t ∨ t ∈ used := by
  constructor
  · rintro ⟨path, own, found⟩
    rcases new path t found with old | ⟨fresh, -⟩
    · exact .inl ⟨path, own, old⟩
    · exact .inr fresh
  · rintro (⟨path, own, found⟩ | fresh)
    · exact ⟨path, own, down.tables found⟩
    · obtain ⟨path, below, found⟩ := linked t fresh
      exact ⟨path, (own_way low 4).suffix below, found⟩

theorem Inv.moved_space (tables : ∀ t, OwnTable s space t ↔ OwnTable sys.view space t ∨ t ∈ used)
    (free : HugeFree s space)
    (frames : ∀ f, f ∈ mapped ↔ ∃ page, UserPage page ∧ walk s space page = some f)
    (once : ∀ first second f, UserPage first → UserPage second →
      walk s space first = some f → walk s space second = some f →
        first = second) : SpaceInv (sys.moved space s held mapped) space := by
  have view : (sys.moved space s held mapped).view = s := inv.moved_view taken
  have sameKernel := inv.sameKernel_space member low down
  have records := inv.space space member
  have upper : ∀ i : Fin 512, 256 ≤ i.val → s.read space i = sys.view.read space i :=
    fun i high => inv.read_upper member low down high
  have kernelRoot : ∀ i, s.read sys.kernel i = sys.view.read sys.kernel i :=
    fun i => sameKernel [] _ i rfl
  have spaceWf : SpaceWf sys.kernel space s := by
    refine ⟨records.wf.masked, ?_, down.wf.topTables, ?_, ?_⟩
    · intro i high present
      rw [upper i high] at present ⊢
      rw [kernelRoot]
      exact records.wf.shares i high present
    · intro first second t _ _ one two
      exact down.wf.apart one two
    · intro t path own found
      rw [sameKernel.tableAt] at found
      rcases (tables t).mp own with old | fresh
      · exact records.wf.foreign old found
      · exact inv.used_not_lent taken fresh (inv.kernelLent path t found).1
  have recorded : (sys.moved space s held mapped).tables space = sys.tables space ++ used := by
    rw [← System.used_eq taken]
    exact Function.update_self _ _ _
  have placed : (sys.moved space s held mapped).mapped space = mapped :=
    Function.update_self _ _ _
  refine ⟨view.symm ▸ spaceWf, view.symm ▸ free, ?_, ?_, ?_, ?_⟩
  · intro t
    rw [recorded, view, tables, List.mem_append, records.tables]
  · intro f
    rw [placed, view]
    exact frames f
  · rw [view]
    exact once
  · intro i high populated
    rw [view]
    change has (s.read space i) present = true ∧ s.read space i = s.read sys.kernel i
    rw [upper i high, kernelRoot]
    exact records.agree i high populated

end

/-- An operation on a space that keeps its records right. -/
theorem Inv.moved (inv : Inv sys) (member : space ∈ sys.spaces) (low : virt.toNat < 2 ^ 47)
    (down : Descends space virt 4 sys.view s) (free : HugeFree s space)
    {held mapped : List (BitVec 64)} (moves : (held ++ mapped).Perm (sys.held ++ sys.mapped space))
    (frames : ∀ f, f ∈ mapped ↔ ∃ page, UserPage page ∧ walk s space page = some f)
    (once : ∀ first second f, UserPage first → UserPage second →
      walk s space first = some f → walk s space second = some f →
        first = second) : Inv (sys.moved space s held mapped) := by
  obtain ⟨used, taken, new, linked⟩ := down.taken
  have view : (sys.moved space s held mapped).view = s := inv.moved_view taken
  have ledger := inv.moved_ledger member taken moves
  have lent : ∀ {f}, (sys.moved space s held mapped).machine.Lent f ↔
      sys.machine.Lent f ∨ f ∈ used := inv.moved_lent taken
  refine ⟨(inv.sound.after taken).1, inv.moved_kernel member taken low down,
    inv.nodup, ?_, ?_, ?_, ?_⟩
  · refine ledger.nodup_iff.mpr (List.nodup_append.mpr ⟨?_, inv.ledger, ?_⟩)
    · have nodup : sys.view.pool.Nodup := inv.sound.pool_nodup
      rw [taken] at nodup
      exact (List.nodup_append.mp nodup).1
    · rintro f fresh g old rfl
      exact inv.used_not_lent taken fresh (inv.lent f old)
  · intro f inside
    rw [ledger.mem_iff, List.mem_append] at inside
    exact lent.mpr (inside.symm.imp_left (inv.lent f))
  · intro path t found
    rw [view] at found
    change s.tableAt sys.kernel path = some t at found
    rw [(inv.sameKernel_space member low down).tableAt] at found
    obtain ⟨onLoan, outside⟩ := inv.kernelLent path t found
    refine ⟨lent.mpr (.inl onLoan), fun inside => ?_⟩
    rw [ledger.mem_iff, List.mem_append] at inside
    rcases inside with fresh | old
    · exact inv.used_not_lent taken fresh onLoan
    · exact outside old
  · intro another inside
    by_cases same : another = space
    · subst same
      exact inv.moved_space member taken low down (ownTable_after low down (fun _ _ found => new
        found) linked) free frames once
    · exact inv.moved_other member taken low down inside same

end

end Eonos.Spaces
