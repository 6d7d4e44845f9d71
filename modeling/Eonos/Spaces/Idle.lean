import Eonos.Spaces.Accounts

/-!
# Runs that touch no page table

While callers only take, fill and return frames of their own, no address of any
space changes its meaning, and the number of free frames moves against the
number on loan.
-/

namespace Eonos.Spaces

open Eonos.Vmm

/-- The events of a caller that uses single frames of its own. -/
def Event.Idle : Event → Prop
  | .alloc | .free _ | .store _ _ => True
  | _ => False

def IdleRun : System → System → Prop :=
  Relation.ReflTransGen fun sys later =>
    ∃ event : Event, event.Idle ∧ sys.perform event = some later

/-- All frames the allocator manages, on loan or not. -/
def Machine.managed (m : Machine) : Nat :=
  m.frames.pmm.freeFrames + m.frames.loans.card

section

variable {sys later : System} {space : BitVec 64}

theorem IdleRun.lifetime (run : IdleRun sys later) (space : BitVec 64) :
    Lifetime space sys later := by
  refine Relation.ReflTransGen.mono ?_ _ _ run
  rintro sys later ⟨event, idle, result⟩
  refine ⟨event, ?_, result⟩
  cases event <;> first | exact trivial | cases idle

/-- What an idle run leaves as it is. -/
structure Untouched (sys later : System) : Prop where
  inv : Inv later
  kernel : later.kernel = sys.kernel
  spaces : later.spaces = sys.spaces
  tables : later.tables = sys.tables
  mapped : later.mapped = sys.mapped
  sameKernel : SameKernel sys.kernel sys.view later.view
  sameOwn : ∀ space ∈ sys.spaces, SameOwn space sys.view later.view
  managed : later.machine.managed = sys.machine.managed

theorem Untouched.refl (inv : Inv sys) : Untouched sys sys :=
  ⟨inv, rfl, rfl, rfl, rfl, fun _ _ _ _ => rfl, fun _ _ _ _ _ => rfl, rfl⟩

theorem Untouched.trans {middle : System} (first : Untouched sys middle)
    (second : Untouched middle later) : Untouched sys later := by
  refine ⟨second.inv, second.kernel.trans first.kernel, second.spaces.trans first.spaces,
    second.tables.trans first.tables, second.mapped.trans first.mapped, ?_, ?_, second.managed.trans
    first.managed⟩
  · intro path t i found
    have still := first.sameKernel.tableAt path
    rw [second.sameKernel path t i (by rw [first.kernel, still, found]),
      first.sameKernel path t i found]
  · intro space member t i own
    have same : SameOwn space sys.view middle.view :=
      first.sameOwn space member
    rw [second.sameOwn space (first.spaces ▸ member) i (same.ownTable.mpr own), same i own]

theorem Machine.Sound.managed_alloc {m later : Machine} {frame : BitVec 64} (sound : m.Sound)
    (result : m.allocFrame = some (frame, later)) : later.managed = m.managed := by
  obtain ⟨⟨phys, rest⟩, granted, equal⟩ := Option.map_eq_some_iff.mp result
  cases equal
  have taken := sound.frames.taken granted
  have fresh : phys / 4096 ∉ m.frames.loans := fun loan =>
    (sound.frames.lent _ loan).2 taken.clear
  have loans : rest.loans = insert (phys / 4096) m.frames.loans := taken.loans
  have counter := taken.counter
  unfold Machine.managed
  dsimp only
  rw [loans, Finset.card_insert_of_notMem fresh]
  omega

theorem Machine.Sound.managed_free {m : Machine} {frame : BitVec 64} (sound : m.Sound)
    (lent : m.Lent frame) : (m.freeFrame frame).managed = m.managed := by
  have aligned := (toNat_of_addrMask lent.masked).2
  have small := sound.small
  have freed := sound.frames.freed_one (by omega) aligned lent.loan
  have loans : (m.freeFrame frame).frames.loans =
      m.frames.loans.erase (frameNo frame) := freed.loans
  have counter : (m.freeFrame frame).frames.pmm.freeFrames =
      m.frames.pmm.freeFrames + 1 := freed.counter
  have card := Finset.card_erase_of_mem lent.loan
  have positive := Finset.card_pos.mpr ⟨_, lent.loan⟩
  unfold Machine.managed
  rw [loans, counter, card]
  omega

theorem Inv.untouched {event : Event} (inv : Inv sys) (idle : event.Idle)
    (result : sys.perform event = some later) : Untouched sys later := by
  have after := inv.perform result
  cases event with
  | alloc =>
    cases result
    revert after
    unfold System.alloc
    cases granted : sys.machine.allocFrame with
    | none => exact fun _ => .refl inv
    | some taken =>
      intro after
      obtain ⟨frame, machine⟩ := taken
      have reads : ∀ t i, machine.view.read t i = sys.view.read t i := by
        intro t i
        exact congrArg (fun m => readEntry m t i) (inv.sound.allocFrame granted).2
      exact ⟨after, rfl, rfl, rfl, rfl, fun _ t i _ => reads t i,
        fun _ _ t i _ => reads t i, inv.sound.managed_alloc granted⟩
  | free frame =>
    obtain ⟨ours, result⟩ := Option.ite_none_right_eq_some.mp result
    cases result
    have lent := inv.lent frame (List.mem_append_left _ ours)
    exact ⟨after, rfl, rfl, rfl, rfl, fun _ _ _ _ => rfl,
      fun _ _ _ _ _ => rfl, inv.sound.managed_free lent⟩
  | store frame bytes =>
    obtain ⟨owned, result⟩ := Option.ite_none_right_eq_some.mp result
    cases result
    exact ⟨after, rfl, rfl, rfl, rfl, inv.store_sameKernel owned,
      fun _ member => inv.store_sameOwn owned member, rfl⟩
  | create | map | unmap | protect | drop | mapPage | unmapPage | protectPage
  | allocContiguous | reclaim => cases idle

theorem IdleRun.untouched (run : IdleRun sys later) (inv : Inv sys) : Untouched sys later := by
  induction run with
  | refl => exact .refl inv
  | tail _ taken induction =>
    obtain ⟨event, idle, result⟩ := taken
    exact induction.trans (induction.inv.untouched idle result)

theorem Untouched.sameTables (same : Untouched sys later) (inv : Inv sys)
    (member : space ∈ sys.spaces) : SameKernel space sys.view later.view := by
  -- a table of a space is its own or one of the kernel's
  intro path t i found
  by_cases own : Own path
  · exact same.sameOwn space member i ⟨path, own, found⟩
  · exact same.sameKernel path t i ((inv.space space member).wf.shared_path own found)

/-- Every address of every space means what it meant. -/
theorem Untouched.sameAt (same : Untouched sys later) (inv : Inv sys) (member : space ∈ sys.spaces)
    (virt : BitVec 64) : SameAt sys later space virt :=
  sameAt_of_leafOf (inv.wf member)
    (same.inv.wf (same.spaces.symm ▸ member))
    ((same.sameTables inv member).leafOf virt)

/-- With the callers' frames back where they were, the same frames are on
loan. -/
theorem IdleRun.loans (run : IdleRun sys later) (inv : Inv sys) (back : later.held.Perm sys.held) :
    later.machine.frames.loans = sys.machine.frames.loans ∧
      later.machine.frames.pmm.freeFrames =
        sys.machine.frames.pmm.freeFrames := by
  have same := run.untouched inv
  have conserves := ((run.lifetime 0).keeps inv).2.1
  have ledger : later.ledger.Perm sys.ledger := by
    unfold System.ledger
    rw [same.spaces, same.tables, same.mapped]
    exact back.append_right _
  have lent : ∀ f, later.machine.Lent f ↔ sys.machine.Lent f := by
    intro f
    have account := conserves f
    have before := inv.lent f
    have after := same.inv.lent f
    rw [ledger.mem_iff] at account after
    by_cases listed : f ∈ sys.ledger
    · exact iff_of_true (after listed) (before listed)
    · exact ⟨fun held => (account.mp ⟨held, listed⟩).1, fun held => (account.mpr ⟨held, listed⟩).1⟩
  have loans : later.machine.frames.loans = sys.machine.frames.loans := by
    ext n
    rw [same.inv.sound.mem_loans, inv.sound.mem_loans]
    simp only [lent]
  have total := same.managed
  unfold Machine.managed at total
  rw [loans] at total
  exact ⟨loans, Nat.add_right_cancel total⟩

end

end Eonos.Spaces
