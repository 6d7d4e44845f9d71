import Eonos.Physical.Safety
import Eonos.Physical.Search

/-!
# The frames an allocator will hand out

As long as nothing is freed, the allocator is a list of frames.  `supply` is
that list: it holds every clear frame once, and `drain` takes from its front.
Code that only allocates can be followed on the list alone.
-/

namespace Eonos.Physical

namespace State

/-- `alloc_frame`; the frame goes on loan. -/
def allocFrame (s : State) : Option (Nat × State) :=
  (Physical.allocFrame s.pmm).map fun result =>
    (result.1,
      { s with
        pmm := result.2
        loans := s.loans ∪ rangeFrames result.1 1 })

/-- `free_frame`; what the allocator rejects stays on loan. -/
def freeFrame (s : State) (phys : Nat) : State :=
  { s with
    pmm := Physical.freeFrames s.pmm phys 1
    loans :=
      match (s.pmm.free phys 1).1 with
      | .ok _ => s.loans \ rangeFrames phys 1
      | .error _ => s.loans }

def supplyLoop : Nat → State → List Nat
  | 0, _ => []
  | fuel + 1, s =>
    s.allocFrame.elim [] fun result =>
      result.1 :: supplyLoop fuel result.2

/-- The frames the next calls of `alloc_frame` return. -/
def supply (s : State) : List Nat := supplyLoop s.pmm.freeFrames s

/-- The state after `count` calls of `alloc_frame`. -/
def drain : Nat → State → State
  | 0, s => s
  | count + 1, s => s.allocFrame.elim s fun result => drain count result.2

end State

theorem rangeFrames_one (phys : Nat) : rangeFrames phys 1 = {phys / pageSize} := by
  ext f
  simp only [rangeFrames, Finset.mem_Ico, Finset.mem_singleton]
  omega

/-! ## One allocation -/

/-- What a successful `alloc_frame` does. -/
structure Taken (s t : State) (phys : Nat) : Prop where
  inv : Inv t
  aligned : phys % pageSize = 0
  clear : phys / pageSize ∈ clearFrames s.pmm.bitmap
  clearLeft : clearFrames t.pmm.bitmap =
    (clearFrames s.pmm.bitmap).erase (phys / pageSize)
  loans : t.loans = insert (phys / pageSize) s.loans
  counter : t.pmm.freeFrames + 1 = s.pmm.freeFrames
  totalFrames : t.pmm.totalFrames = s.pmm.totalFrames

section

variable {s t : State} {phys : Nat}

theorem State.allocFrame_step (result : s.allocFrame = some (phys, t)) : Step s t := by
  obtain ⟨⟨found, p⟩, granted, equal⟩ := Option.map_eq_some_iff.mp result
  cases equal
  exact .allocFrame granted

theorem Inv.taken (inv : Inv s) (result : s.allocFrame = some (phys, t)) : Taken s t phys := by
  have after := inv.step (State.allocFrame_step result)
  obtain ⟨⟨found, p⟩, granted, equal⟩ := Option.map_eq_some_iff.mp result
  cases equal
  have takes := Pmm.allocOne_takes inv.layout.words granted
  have inside : found / pageSize ∈ clearFrames s.pmm.bitmap :=
    takes.clear (by rw [rangeFrames_one]; exact Finset.mem_singleton_self _)
  have clearLeft : clearFrames p.bitmap = (clearFrames s.pmm.bitmap).erase (found / pageSize) := by
    have filled : clearFrames p.bitmap = clearFrames s.pmm.bitmap \ rangeFrames found 1 :=
      takes.filled.clearFrames_of_used
    rw [filled, rangeFrames_one, Finset.sdiff_singleton_eq_erase]
  have positive : 0 < (clearFrames s.pmm.bitmap).card :=
    Finset.card_pos.mpr ⟨_, inside⟩
  refine ⟨after, takes.aligned, inside, clearLeft, ?_, ?_, takes.layout.totalFrames⟩
  · rw [rangeFrames_one, Finset.union_comm, Finset.insert_eq]
  · have counter := takes.counter
    rw [inv.counter] at counter ⊢
    dsimp only
    omega

/-- `alloc_frame` fails only when every frame is in use. -/
theorem Inv.allocFrame_none (inv : Inv s) : s.allocFrame = none ↔ s.pmm.freeFrames = 0 := by
  rw [State.allocFrame, Option.map_eq_none_iff, Physical.allocFrame, Pmm.allocOne_none_iff
    inv.layout.words (Nat.le_of_eq inv.counter.symm), inv.counter, Finset.card_eq_zero]

/-! ## One release -/

/-- What an accepted `free_frame` does. -/
structure Freed (s t : State) (phys : Nat) : Prop where
  inv : Inv t
  accepted : (s.pmm.free phys 1).1 = .ok ()
  clearNow : clearFrames t.pmm.bitmap =
    insert (phys / pageSize) (clearFrames s.pmm.bitmap)
  loans : t.loans = s.loans.erase (phys / pageSize)
  counter : t.pmm.freeFrames = s.pmm.freeFrames + 1
  totalFrames : t.pmm.totalFrames = s.pmm.totalFrames

/-- A whole frame on loan is taken back. -/
theorem Inv.freed_one (inv : Inv s) (small : s.pmm.totalFrames < 2 ^ 64)
    (aligned : phys % pageSize = 0) (lent : phys / pageSize ∈ s.loans) :
    Freed s (s.freeFrame phys) phys := by
  obtain ⟨available, notClear⟩ := inv.lent _ lent
  have below := inv.layout.available_lt available
  have fits : s.pmm.totalFrames ≤ 64 * s.pmm.bitmap.length := by
    rw [inv.layout.words]
    exact inv.layout.fits
  have used : s.pmm.bitmap.testBit (phys / pageSize) = true := by
    rw [mem_clearFrames] at notClear
    cases bit : s.pmm.bitmap.testBit (phys / pageSize) with
    | true => rfl
    | false => exact absurd ⟨by omega, bit⟩ notClear
  have accepted : (s.pmm.free phys 1).1 = .ok () := by
    unfold Pmm.free
    rw [if_neg (by omega), if_neg (not_not.mpr aligned)]
    dsimp only
    rw [if_neg (by omega), if_neg (by omega), if_neg]
    simp [used]
  have onLoan : rangeFrames phys 1 ⊆ s.loans := by
    rw [rangeFrames_one]
    exact Finset.singleton_subset_iff.mpr lent
  have after : Inv (s.freeFrame phys) := inv.freed phys 1 onLoan
  rcases s.pmm.free_cases phys 1 fits with
    unchanged | ⟨-, same, inside, filled, -, counter⟩
  · exfalso
    have bit : (s.pmm.free phys 1).2.bitmap.testBit (phys / pageSize) =
        false := by
      unfold Pmm.free
      rw [if_neg (by omega), if_neg (not_not.mpr aligned)]
      dsimp only
      rw [if_neg (by omega), if_neg (by omega), if_neg (by simp [used])]
      dsimp only
      rw [Bitmap.testBit_fillRange _ _ _ _ _ (by omega)]
      simp
    rw [unchanged, used] at bit
    cases bit
  · refine ⟨after, accepted, ?_, ?_, counter, same.totalFrames⟩
    · have clear : clearFrames (s.pmm.free phys 1).2.bitmap =
          clearFrames s.pmm.bitmap ∪ rangeFrames phys 1 :=
        filled.clearFrames_of_unused (by omega)
      rw [State.freeFrame, Physical.freeFrames]
      dsimp only
      rw [clear, rangeFrames_one, Finset.union_comm, Finset.insert_eq]
    · simp only [State.freeFrame, accepted, rangeFrames_one, Finset.sdiff_singleton_eq_erase]

end

/-! ## The supply -/

section

variable {s t : State} {phys : Nat}

theorem supply_none (inv : Inv s) (failed : s.allocFrame = none) : s.supply = [] := by
  rw [State.supply, inv.allocFrame_none.mp failed, State.supplyLoop]

theorem supply_some (inv : Inv s) (result : s.allocFrame = some (phys, t)) :
    s.supply = phys :: t.supply := by
  rw [State.supply, ← (inv.taken result).counter, State.supplyLoop, result,
    Option.elim_some, State.supply]

theorem Inv.supply_spec (inv : Inv s) :
    s.supply.Nodup ∧ s.supply.length = s.pmm.freeFrames ∧
      ∀ phys, phys ∈ s.supply ↔ phys % pageSize = 0 ∧
        phys / pageSize ∈ clearFrames s.pmm.bitmap := by
  generalize left : s.pmm.freeFrames = n
  induction n generalizing s with
  | zero =>
    have failed := inv.allocFrame_none.mpr left
    have empty : clearFrames s.pmm.bitmap = ∅ := by
      rw [← Finset.card_eq_zero, ← inv.counter, left]
    rw [supply_none inv failed, empty]
    simp
  | succ n induction =>
    cases result : s.allocFrame with
    | none =>
      rw [inv.allocFrame_none.mp result] at left
      cases left
    | some taken =>
      obtain ⟨first, rest⟩ := taken
      have taken := inv.taken result
      have counter := taken.counter
      obtain ⟨nodup, length, members⟩ := induction taken.inv (by omega)
      rw [supply_some inv result, List.nodup_cons, List.length_cons]
      refine ⟨⟨?_, nodup⟩, by omega, ?_⟩
      · rw [members, taken.clearLeft]
        intro again
        exact Finset.notMem_erase _ _ again.2
      · intro phys
        rw [List.mem_cons, members, taken.clearLeft, Finset.mem_erase]
        constructor
        · rintro (rfl | ⟨aligned, -, clear⟩)
          · exact ⟨taken.aligned, taken.clear⟩
          · exact ⟨aligned, clear⟩
        · rintro ⟨aligned, clear⟩
          by_cases same : phys = first
          · exact .inl same
          · refine .inr ⟨aligned, ?_, clear⟩
            have firstAligned := taken.aligned
            unfold pageSize at aligned firstAligned ⊢
            omega

/-- What is left after some frames were taken. -/
theorem Inv.drain_spec (inv : Inv s) {count : Nat} (enough : count ≤ s.supply.length) :
    Inv (s.drain count) ∧ (s.drain count).supply = s.supply.drop count ∧
      (∀ f, f ∈ (s.drain count).loans ↔
        f ∈ s.loans ∨ ∃ phys ∈ s.supply.take count, phys / pageSize = f) ∧
      (s.drain count).pmm.totalFrames = s.pmm.totalFrames := by
  induction count generalizing s with
  | zero => exact ⟨inv, rfl, by simp [State.drain], rfl⟩
  | succ count induction =>
    cases result : s.allocFrame with
    | none =>
      rw [supply_none inv result] at enough
      cases enough
    | some taken =>
      obtain ⟨first, rest⟩ := taken
      have taken := inv.taken result
      have supply := supply_some inv result
      rw [supply, List.length_cons] at enough
      obtain ⟨after, left, loans, total⟩ :=
        induction taken.inv (Nat.le_of_succ_le_succ enough)
      rw [State.drain, result, Option.elim_some, supply, List.drop_succ_cons, List.take_succ_cons]
      refine ⟨after, left, ?_, total.trans taken.totalFrames⟩
      intro f
      rw [loans, taken.loans, Finset.mem_insert]
      simp only [List.mem_cons, exists_eq_or_imp]
      tauto

end

end Eonos.Physical
