import Eonos.Elf.Model
import Eonos.Spaces.Idle

/-!
# The frames of the pages

Whatever `populate` does and however it ends, it is a run in which a caller
takes frames and fills them, and the frames it holds in addition are those of
its pages.  Freeing them undoes the run.
-/

namespace Eonos.Elf

open Eonos.Vmm
open Eonos.Spaces

/-! ### The map of pages -/

section

variable {pages : Std.TreeMap Nat Page} {va : Nat} {page other : Page}

theorem toList_nodup (pages : Std.TreeMap Nat Page) : pages.toList.Nodup := by
  have distinct : pages.toList.Pairwise fun a b => ¬ compare a.1 b.1 = .eq :=
    Std.TreeMap.distinct_keys_toList
  refine distinct.imp ?_
  rintro a b apart rfl
  exact apart Std.ReflCmp.compare_self

theorem toList_insert_fresh (absent : pages[va]? = none) (page : Page) :
    (pages.insert va page).toList.Perm ((va, page) :: pages.toList) := by
  refine Std.TreeMap.toList_insert_perm.trans (List.Perm.cons _ ?_)
  rw [List.filter_eq_self.mpr]
  rintro ⟨key, value⟩ member
  have found := Std.TreeMap.mem_toList_iff_getElem?_eq_some.mp member
  have apart : va ≠ key := by
    rintro rfl
    rw [absent] at found
    cases found
  simpa using apart

theorem toList_split (present : pages[va]? = some page) :
    pages.toList.Perm ((va, page) ::
      pages.toList.filter fun entry => ¬ (va == entry.1) = true) := by
  refine (List.perm_ext_iff_of_nodup (toList_nodup pages) ?_).mpr ?_
  · refine List.nodup_cons.mpr ⟨?_, (toList_nodup pages).filter _⟩
    simp
  · rintro ⟨key, value⟩
    rw [List.mem_cons, List.mem_filter, Std.TreeMap.mem_toList_iff_getElem?_eq_some]
    by_cases same : va = key
    · subst same
      rw [present]
      simp [eq_comm]
    · have apart : ¬ (key, value) = (va, page) := fun equal =>
        same (Prod.mk.inj equal).1.symm
      simp [same, apart]

theorem toList_insert_present (present : pages[va]? = some page)
    (other : Page) (same : other.phys = page.phys) :
    ((pages.insert va other).toList.map fun entry => entry.2.phys).Perm
      (pages.toList.map fun entry => entry.2.phys) := by
  have after := (Std.TreeMap.toList_insert_perm (t := pages) (k := va)
    (v := other)).map fun entry => entry.2.phys
  have before := (toList_split present).map fun entry => entry.2.phys
  rw [List.map_cons] at after before
  dsimp only at after before
  rw [same] at after
  exact after.trans before.symm

end

/-! ### The run -/

/-- The loader works in `sys`: an idle run leads to its machine, and the frames
of its pages are in the caller's hands besides those from before. -/
def Building (sys : System) (st : Loader) : Prop :=
  ∃ later, IdleRun sys later ∧ later.machine = st.machine ∧
    later.held.Perm (st.frames ++ sys.held)

section

variable {sys : System} {st : Loader} {va : Nat} {page : Page}

theorem building_start (sys : System) : Building sys ⟨∅, sys.machine⟩ := by
  refine ⟨sys, .refl, rfl, ?_⟩
  have empty : (⟨∅, sys.machine⟩ : Loader).frames = [] := by
    unfold Loader.frames
    rw [List.map_eq_nil_iff, List.eq_nil_iff_forall_not_mem]
    rintro ⟨key, value⟩ member
    have found := Std.TreeMap.mem_toList_iff_getElem?_eq_some.mp member
    rw [Std.TreeMap.getElem?_emptyc] at found
    cases found
  rw [empty]
  exact List.Perm.refl _

theorem Loader.mem_frames (found : st.pages[va]? = some page) : page.phys ∈ st.frames :=
  List.mem_map.mpr ⟨(va, page),
    Std.TreeMap.mem_toList_iff_getElem?_eq_some.mpr found, rfl⟩

/-- The frames of the pages are distinct frames on loan. -/
theorem Building.frames (building : Building sys st) (inv : Inv sys) :
    st.machine.Sound ∧ st.frames.Nodup ∧ ∀ f ∈ st.frames, st.machine.Lent f := by
  obtain ⟨later, run, machine, held⟩ := building
  have after := (run.untouched inv).inv
  have listed : ∀ f ∈ st.frames, f ∈ later.held := fun f inside =>
    held.mem_iff.mpr (List.mem_append_left _ inside)
  have nodup := held.nodup_iff.mp (List.nodup_append.mp after.ledger).1
  refine ⟨machine ▸ after.sound, (List.nodup_append.mp nodup).1, ?_⟩
  intro f inside
  rw [← machine]
  exact after.lent f (List.mem_append_left _ (listed f inside))

theorem Building.apart (building : Building sys st) (inv : Inv sys) {first second : Nat}
    {one two : Page} (left : st.pages[first]? = some one) (right : st.pages[second]? = some two)
    (same : one.phys = two.phys) : first = second := by
  have nodup := (building.frames inv).2.1
  have inj := List.inj_on_of_nodup_map nodup (Std.TreeMap.mem_toList_iff_getElem?_eq_some.mpr left)
    (Std.TreeMap.mem_toList_iff_getElem?_eq_some.mpr right) same
  exact (Prod.mk.inj inj).1

theorem Building.lent (building : Building sys st) (inv : Inv sys)
    (found : st.pages[va]? = some page) : st.machine.Lent page.phys :=
  (building.frames inv).2.2 _ (Loader.mem_frames found)

theorem Building.alloc (building : Building sys st) (absent : st.pages[va]? = none)
    {frame : BitVec 64} {machine : Machine}
    (result : st.machine.allocFrameZeroed = some (frame, machine)) (writable executable : Bool) :
    Building sys ⟨st.pages.insert va ⟨frame, writable, executable⟩, machine⟩ := by
  obtain ⟨later, run, same, held⟩ := building
  obtain ⟨⟨found, rest⟩, granted, equal⟩ := Option.map_eq_some_iff.mp result
  cases equal
  rw [← same] at granted
  have taken : later.alloc = { later with machine := rest, held := found :: later.held } := by
    unfold System.alloc
    rw [granted]
    rfl
  have owned : later.alloc.Owned found := by
    rw [taken]
    exact .inl List.mem_cons_self
  have stored : later.alloc.perform (.store found fun _ => 0) =
      some (later.alloc.store found fun _ => 0) := if_pos owned
  refine ⟨later.alloc.store found fun _ => 0, ?_, ?_, ?_⟩
  · exact (run.tail ⟨.alloc, trivial, rfl⟩).tail ⟨.store found fun _ => 0, trivial, stored⟩
  · rw [taken]
    rfl
  · rw [taken]
    have frames := (toList_insert_fresh absent
      ⟨found, writable, executable⟩).map fun entry => entry.2.phys
    exact (held.cons found).trans (frames.symm.append_right _)

theorem Building.share (building : Building sys st) (found : st.pages[va]? = some page)
    {other : Page} (same : other.phys = page.phys) :
    Building sys { st with pages := st.pages.insert va other } := by
  obtain ⟨later, run, machine, held⟩ := building
  refine ⟨later, run, machine, held.trans ?_⟩
  exact (toList_insert_present found other same).symm.append_right _

/-- Bytes copied into a page. -/
theorem Building.copy (building : Building sys st) (found : st.pages[va]? = some page)
    {inPage n : Nat} (fits : inPage + n ≤ pageSize) (src : Nat → UInt8) :
    Building sys { st with machine :=
          { st.machine with
            mem := copyBytes st.machine.mem (page.phys.toNat + inPage) src
              n } } := by
  obtain ⟨later, run, same, held⟩ := building
  let bytes : Nat → UInt8 := fun k =>
    copyBytes st.machine.mem (page.phys.toNat + inPage) src n (page.phys.toNat + k)
  have owned : later.Owned page.phys :=
    .inl (held.mem_iff.mpr (List.mem_append_left _ (Loader.mem_frames found)))
  have stored : later.perform (.store page.phys bytes) =
      some (later.store page.phys bytes) := if_pos owned
  refine ⟨later.store page.phys bytes, run.tail ⟨.store page.phys bytes, trivial, stored⟩, ?_, held⟩
  -- writing the whole frame with the bytes copied is copying the bytes
  have mem : overwrite later.machine.mem page.phys bytes =
      copyBytes st.machine.mem (page.phys.toNat + inPage) src n := by
    funext b
    unfold overwrite
    split
    · rename_i inside
      change copyBytes _ _ _ _ (page.phys.toNat + (b - page.phys.toNat)) = _
      rw [Nat.add_sub_cancel' inside.1]
    · rename_i outside
      rw [same, copyBytes, if_neg (by omega)]
  change (⟨overwrite later.machine.mem page.phys bytes, later.machine.frames⟩ : Machine) = _
  rw [mem, same]

theorem Outcome.andThen_eq {first : Outcome} {next : Loader → Outcome}
    {result : Except ElfError Unit} {later : Loader} (run : first.andThen next = (result, later)) :
    (∃ middle, first = (.ok (), middle) ∧ next middle = (result, later)) ∨
      ∃ e, first = (.error e, later) ∧ result = .error e := by
  obtain ⟨outcome, middle⟩ := first
  cases outcome with
  | ok value => exact .inl ⟨middle, rfl, run⟩
  | error e =>
    cases run
    exact .inr ⟨e, rfl, rfl⟩

/-! Every part of `populate` keeps the account, however it ends. -/

variable {s : Segment} {later : Loader} {result : Except ElfError Unit}

theorem touchPage_building (building : Building sys st)
    (run : touchPage s va st = (result, later)) : Building sys later := by
  unfold touchPage at run
  split at run
  case h_1 page found =>
    cases run
    exact building.share found rfl
  case h_2 absent =>
    cases taken : st.machine.allocFrameZeroed with
    | none =>
      rw [taken] at run
      cases run
      exact building
    | some result =>
      rw [taken] at run
      cases run
      exact building.alloc absent taken _ _

theorem pageLoop_building {last fuel : Nat} (building : Building sys st)
    (run : pageLoop s last fuel va st = (result, later)) : Building sys later := by
  induction fuel generalizing va st with
  | zero =>
    cases run
    exact building
  | succ fuel induction =>
    unfold pageLoop at run
    split at run
    · rcases Outcome.andThen_eq run with ⟨middle, first, rest⟩ | ⟨e, first, -⟩
      · exact induction (touchPage_building building first) rest
      · exact touchPage_building building first
    · cases run
      exact building

variable {image : List UInt8}

theorem copyLoop_building {fuel copied : Nat} (building : Building sys st)
    (run : copyLoop image s fuel copied st = (result, later)) : Building sys later := by
  induction fuel generalizing copied st with
  | zero =>
    cases run
    exact building
  | succ fuel induction =>
    unfold copyLoop at run
    split at run
    · dsimp only at run
      split at run
      case h_1 =>
        cases run
        exact building
      case h_2 page found =>
        refine induction (building.copy found ?_ _) run
        have inPage : s.vaddr + copied - alignDown (s.vaddr + copied) ≤
            pageSize := by
          unfold alignDown pageSize
          omega
        omega
    · cases run
      exact building

theorem populateSegment_building (building : Building sys st)
    (run : populateSegment image s st = (result, later)) : Building sys later := by
  rcases Outcome.andThen_eq run with ⟨middle, first, rest⟩ | ⟨e, first, -⟩
  · exact copyLoop_building (pageLoop_building building first) rest
  · exact pageLoop_building building first

theorem populateSegments_building {segments : List Segment} (building : Building sys st)
    (run : populateSegments image segments st = (result, later)) : Building sys later := by
  induction segments generalizing st with
  | nil =>
    cases run
    exact building
  | cons s rest induction =>
    rcases Outcome.andThen_eq run with ⟨middle, first, more⟩ | ⟨e, first, -⟩
    · exact induction (populateSegment_building building first) more
    · exact populateSegment_building building first

theorem populate_building {segments : List Segment} (building : Building sys st)
    (run : populate image segments st = (result, later)) : Building sys later := by
  rcases Outcome.andThen_eq run with ⟨middle, first, rest⟩ | ⟨e, first, -⟩
  · have built := populateSegments_building building first
    split at rest <;> (cases rest; exact built)
  · exact populateSegments_building building first

/-- Freeing the pages ends the run where it started. -/
theorem Building.freePages (building : Building sys st) :
    ∃ later, IdleRun sys later ∧ later.machine = freePages st ∧ later.held.Perm sys.held := by
  obtain ⟨middle, run, machine, held⟩ := building
  unfold Elf.freePages
  rw [← machine]
  clear machine
  generalize st.frames = frames at held
  induction frames generalizing middle with
  | nil => exact ⟨middle, run, rfl, held⟩
  | cons frame rest induction =>
    have ours : frame ∈ middle.held := held.mem_iff.mpr List.mem_cons_self
    have freed : middle.perform (.free frame) = some (middle.free frame) :=
      if_pos ours
    refine induction (middle.free frame) (run.tail ⟨.free frame, trivial, freed⟩) ?_
    have erased := held.erase frame
    rw [List.cons_append, List.erase_cons_head] at erased
    exact erased

end

end Eonos.Elf
