import Eonos.Vmm.UserCopy
import Eonos.Spaces.Idle

/-!
# Mapping a page in full

What one `map` changes: the leaf of its page, the tables on the way to it, and
the frames they take from the allocator.
-/

namespace Eonos.Spaces

open Eonos.Vmm
open Eonos.Lib.TableTree

section

variable {space virt phys flags : BitVec 64} {s later : Vmm.State}

/-! ### Leaves -/

theorem leafOf_congr {other : BitVec 64} (same : indices other 4 = indices virt 4) :
    leafOf s space other = leafOf s space virt := by
  rw [leafOf, leafOf, same]

/-- Nothing is mapped where no leaf is. -/
theorem leafOf_none_iff (wf : Wf space s) (free : HugeFree s space) (low : virt.toNat < 2 ^ 47) :
    leafOf s space virt = none ↔ walk s space virt = none := by
  rw [walk_leafOf wf]
  cases found : leafOf s space virt with
  | none => exact iff_of_true rfl rfl
  | some leaf =>
    obtain ⟨pt, -, mapped, rfl⟩ := (free.leafOf_some wf low).mp found
    refine iff_of_false (fun none => by cases none) ?_
    rw [Option.bind_some]
    simp [decode, mapped]

theorem map_leafOf (wf : Wf space s) (free : HugeFree s space) (masked : phys &&& addrMask = phys)
    (result : AddressSpace.map s space virt phys flags = some later) :
    leafOf later space virt = some (3, phys ||| flags ||| present) ∧
      ∀ page, UserPage page → page ≠ virt →
        leafOf later space page = leafOf s space page := by
  obtain ⟨user, -, -, elsewhere⟩ := map_effect wf masked result
  have written := (AddressSpace.map_eq result).2.2.2.2.2
  have down := map4k_descends wf written
  have after := map4k_hugeFree wf free user.1 written
  constructor
  · obtain ⟨middle, pt, opens, rfl⟩ := map4k_opens wf written
    have kept := opens.grows.wf.writeLeaf_descends
      ((phys &&& addrMask) ||| flags ||| present) (by omega) opens.reached
      (child_bottom _) (child_bottom _)
    have there := kept.tables opens.reached
    have entry : (middle.write pt (index virt 3)
        ((phys &&& addrMask) ||| flags ||| present)).read pt (index virt 3) =
          phys ||| flags ||| present := by
      rw [masked]
      exact readEntry_writeEntry _ _ _ _
    rw [leafOf_bottom there, entry]
    rw [entry, has_or]
    simp [show has present present = true by decide]
  · intro page other distinct
    cases found : leafOf s space page with
    | none =>
      rw [leafOf_none_iff down.wf after other.1, elsewhere page other distinct,
        ← leafOf_none_iff wf free other.1, found]
    | some leaf =>
      obtain ⟨pt, reached, mapped, rfl⟩ := (free.leafOf_some wf other.1).mp found
      have same : later.read pt (index page 3) = s.read pt (index page 3) := by
        refine down.read_other wf (wf.masked reached)
          (fun inPool => wf.poolFresh pt inPool _ reached) ?_
        rintro level below t onWay ⟨rfl, index⟩
        have path := wf.apart onWay reached
        have size := congrArg List.length path
        rw [length_indices, length_indices] at size
        subst size
        refine distinct (other.eq user ?_)
        rw [indices_succ page 3, indices_succ virt 3, path, index]
      rw [leafOf_bottom (down.tables reached) (by rw [same]; exact mapped), same]

/-! ### Links -/

/-- Every table of the user half is linked with all rights, so the leaf of a
page decides what is allowed there. -/
def Linked (s : Vmm.State) (space : BitVec 64) : Prop :=
  Upper Own (fun entry => ∃ u, u &&& addrMask = u ∧ entry = linkEntry u) s space

theorem map_linked (wf : Wf space s) (free : HugeFree s space) (linked : Linked s space)
    (result : AddressSpace.map s space virt phys flags = some later) : Linked later space := by
  obtain ⟨low, -, -, -, -, written⟩ := AddressSpace.map_eq result
  have user : virt.toNat < 2 ^ 47 := by
    rw [← userSpaceEnd_toNat]
    exact BitVec.lt_def.mp low
  exact map4k_upper wf free user (fun u masked => ⟨u, masked, rfl⟩) linked written

/-- What a processor checks on its way to an address: all four entries must
allow the access. -/
def Grants (allows : BitVec 64 → Bool) (s : Vmm.State) (root virt : BitVec 64) : Prop :=
  ∀ level < 4, ∃ t, s.tableAt root (indices virt level) = some t ∧
    allows (s.read t (index virt level)) = true

/-- A process may write at `virt`. -/
def Writable : Vmm.State → BitVec 64 → BitVec 64 → Prop :=
  Grants fun entry => hasAll entry (present ||| user ||| writable)

/-- A process may execute at `virt`. -/
def Executable : Vmm.State → BitVec 64 → BitVec 64 → Prop :=
  Grants fun entry => hasAll entry (present ||| user) && !has entry noExecute

theorem has_of_hasAll {entry flags flag : BitVec 64} (all : hasAll entry flags)
    (part : flags &&& flag = flag) (proper : flag ≠ 0) : has entry flag = true := by
  have same : entry &&& flags = flags := by simpa [hasAll] using all
  have kept : entry &&& flag = flag := by
    rw [← part, ← BitVec.and_assoc, same]
  rw [has, kept]
  exact bne_iff_ne.mpr proper

theorem Linked.grants_iff (linked : Linked s space) (wf : Wf space s) (free : HugeFree s space)
    (low : virt.toNat < 2 ^ 47) {allows : BitVec 64 → Bool}
    (links : ∀ u, u &&& addrMask = u → allows (linkEntry u) = true)
    (mapped : ∀ entry, allows entry = true → has entry present = true) :
    Grants allows s space virt ↔
      ∃ entry, leafOf s space virt = some (3, entry) ∧ allows entry = true := by
  constructor
  · intro granted
    obtain ⟨pt, reached, allowed⟩ := granted 3 (by omega)
    exact ⟨_, leafOf_bottom reached (mapped _ allowed), allowed⟩
  · rintro ⟨entry, found, allowed⟩ level below
    obtain ⟨pt, reached, -, equal⟩ := (free.leafOf_some wf low).mp found
    cases equal
    rcases Nat.lt_or_ge level 3 with upper | bottom
    · -- the table below shows that the entry is present, so it is a link
      obtain ⟨t, there⟩ := tableAt_suffix (indices_suffix (show level ≤ 3 by omega)) reached
      obtain ⟨next, further⟩ := tableAt_suffix
        (indices_suffix (show level + 1 ≤ 3 by omega)) reached
      rw [indices_succ, tableAt_cons there] at further
      have own : Own (index virt level :: indices virt level) :=
        own_indices.mpr (index_user low)
      obtain ⟨u, masked, link⟩ := linked _ t (index virt level) own
        (by rw [length_indices]; exact upper) there (child_some further).2.1
      exact ⟨t, there, by rw [link]; exact links u masked⟩
    · obtain rfl : level = 3 := by omega
      exact ⟨pt, reached, allowed⟩

/-! ### Fresh spaces -/

/-- Nothing hangs below the user half of a space. -/
def Fresh (s : Vmm.State) (space : BitVec 64) : Prop :=
  ∀ i : Fin 512, i.val < 256 → has (s.read space i) present = false

theorem Fresh.tableAt_none (fresh : Fresh s space) {path : List (Fin 512)}
    (own : Own path) (below : path ≠ []) : s.tableAt space path = none := by
  induction path with
  | nil => exact absurd rfl below
  | cons i path induction =>
    cases path with
    | nil =>
      have top : s.tableAt space [] = some space := rfl
      rw [State.tableAt, tableAt_cons top]
      exact child_absent (fresh i (own_singleton.mp own))
    | cons j path =>
      have above := induction own.tail (List.cons_ne_nil _ _)
      rw [State.tableAt, tableAt]
      exact Option.bind_eq_none_iff.mpr fun t found => by
        cases above.symm.trans found

theorem Fresh.linked (fresh : Fresh s space) : Linked s space := by
  intro path t i own short found mapped
  cases path with
  | nil =>
    cases found
    rw [fresh i (own_singleton.mp own)] at mapped
    cases mapped
  | cons j path =>
    rw [fresh.tableAt_none own.tail (List.cons_ne_nil _ _)] at found
    cases found

theorem Fresh.leafOf_none (fresh : Fresh s space) (low : virt.toNat < 2 ^ 47) :
    leafOf s space virt = none := by
  have top : s.tableAt space (indices virt 0) = some space := rfl
  exact leafOf_absent (by omega) top (fresh _ (index_user low))

end

/-! ### The price of a mapping -/

/-- The tables between the root and the leaf of an address, by their paths. -/
def waypoints (virt : BitVec 64) : Finset (List (Fin 512)) :=
  {indices virt 1, indices virt 2, indices virt 3}

/-- The paths where no table is yet. -/
def unlinked (s : Vmm.State) (space : BitVec 64)
    (paths : Finset (List (Fin 512))) : Finset (List (Fin 512)) :=
  paths.filter fun path => s.tableAt space path = none

section

variable {space virt phys flags : BitVec 64} {s later : Vmm.State}

theorem mem_waypoints {path : List (Fin 512)} :
    path ∈ waypoints virt ↔ ∃ level < 3, path = indices virt (level + 1) := by
  unfold waypoints
  simp only [Finset.mem_insert, Finset.mem_singleton]
  constructor
  · rintro (rfl | rfl | rfl)
    · exact ⟨0, by omega, rfl⟩
    · exact ⟨1, by omega, rfl⟩
    · exact ⟨2, by omega, rfl⟩
  · rintro ⟨level, below, rfl⟩
    interval_cases level <;> simp

/-- One step down: a table that is missing costs a frame. -/
theorem childTable_cost (wf : Wf space s) (free : HugeFree s space)
    (low : virt.toNat < 2 ^ 47) {level : Nat} (upper : level < 3)
    {t : BitVec 64} (reached : s.tableAt space (indices virt level) = some t) :
    (childTable s t (index virt level) = none ∧
      s.pool.length < (unlinked s space (waypoints virt)).card) ∨
    ∃ u later, childTable s t (index virt level) = some (u, later) ∧
      later.pool.length + (unlinked s space (waypoints virt)).card =
        s.pool.length + (unlinked later space (waypoints virt)).card ∧
      ∀ path, (later.tableAt space path = none ↔
        s.tableAt space path = none ∧ path ≠ indices virt (level + 1)) := by
  have short : (indices virt level).length < 3 := by
    rw [length_indices]
    exact upper
  have step : s.tableAt space (indices virt (level + 1)) =
      child level (s.read t (index virt level)) := by
    rw [indices_succ, State.tableAt, tableAt_cons reached, length_indices]
  cases mapped : has (s.read t (index virt level)) present with
  | true =>
    have flat : has (s.read t (index virt level)) huge = false :=
      free _ _ _ (own_way low level) short reached mapped
    refine .inr ⟨_, _, childTable_present mapped flat, rfl, ?_⟩
    intro path
    refine ⟨fun absent => ⟨absent, ?_⟩, fun absent => absent.1⟩
    rintro rfl
    rw [step, child_table upper mapped flat] at absent
    cases absent
  | false =>
    have absent : s.tableAt space (indices virt (level + 1)) = none := by
      rw [step, child_absent mapped]
    have member : indices virt (level + 1) ∈ unlinked s space (waypoints virt) :=
      Finset.mem_filter.mpr ⟨mem_waypoints.mpr ⟨level, upper, rfl⟩, absent⟩
    cases found : childTable s t (index virt level) with
    | none =>
      refine .inl ⟨rfl, ?_⟩
      have empty : s.pool.length = 0 := by
        by_contra left
        obtain ⟨u, later, granted⟩ := childTable_total
          (fun present => by rw [mapped] at present; cases present)
          (Nat.pos_of_ne_zero left)
        rw [found] at granted
        cases granted
      rw [empty]
      exact Finset.card_pos.mpr ⟨_, member⟩
    | some result =>
      obtain ⟨u, later⟩ := result
      refine .inr ⟨u, later, rfl, ?_⟩
      rcases childTable_cases found with ⟨now, -⟩ | ⟨-, shape, linked⟩
      · rw [mapped] at now
        cases now
      have links := wf.links_zeroed (i := index virt level) reached shape
      rw [← linked] at links
      have tables := wf.link_tableAt short reached links
        (child_absent mapped) (fun j => child_absent (by decide))
      have linkedOnly : ∀ path, later.tableAt space path = none ↔
          s.tableAt space path = none ∧
            path ≠ indices virt (level + 1) := by
        intro path
        rw [tables path, indices_succ]
        split_ifs with here
        · simp [here]
        · simp [here]
      refine ⟨?_, linkedOnly⟩
      have rest : unlinked later space (waypoints virt) =
          (unlinked s space (waypoints virt)).erase
            (indices virt (level + 1)) := by
        ext path
        simp only [unlinked, Finset.mem_filter, Finset.mem_erase, linkedOnly]
        tauto
      rw [rest, Finset.card_erase_of_mem member, shape, List.length_cons]
      have positive := Finset.card_pos.mpr ⟨_, member⟩
      omega

/-- Mapping takes a frame for each table that is missing, and fails where there
are too few. -/
theorem map4k_cost (wf : Wf space s) (free : HugeFree s space) (low : virt.toNat < 2 ^ 47) :
    (map4k s space virt phys flags = none ∧
      s.pool.length < (unlinked s space (waypoints virt)).card) ∨
    ∃ later, map4k s space virt phys flags = some later ∧
      later.pool.length + (unlinked s space (waypoints virt)).card =
        s.pool.length ∧
      ∀ path, (later.tableAt space path = none ↔
        s.tableAt space path = none ∧ path ∉ waypoints virt) := by
  have top : s.tableAt space (indices virt 0) = some space := rfl
  rw [map4k_flat wf free low]
  rcases childTable_cost wf free low (by omega) top with
    ⟨failed, dear⟩ | ⟨pdpt, first, one, priceOne, tablesOne⟩
  · exact .inl ⟨by rw [failed]; rfl, dear⟩
  obtain ⟨firstWf, firstFree, toPdpt⟩ :=
    childTable_way wf free (by omega) top one
  rw [one, Option.bind_some]
  rcases childTable_cost firstWf firstFree low (by omega) toPdpt with
    ⟨failed, dear⟩ | ⟨pd, second, two, priceTwo, tablesTwo⟩
  · exact .inl ⟨by rw [failed]; rfl, by omega⟩
  obtain ⟨secondWf, secondFree, toPd⟩ :=
    childTable_way firstWf firstFree (by omega) toPdpt two
  rw [two, Option.bind_some]
  rcases childTable_cost secondWf secondFree low (by omega) toPd with
    ⟨failed, dear⟩ | ⟨pt, third, three, priceThree, tablesThree⟩
  · exact .inl ⟨by rw [failed]; rfl, by omega⟩
  obtain ⟨thirdWf, -, toPt⟩ :=
    childTable_way secondWf secondFree (by omega) toPd three
  rw [three, Option.bind_some]
  refine .inr ⟨_, rfl, ?_, ?_⟩
  · have all : unlinked third space (waypoints virt) = ∅ := by
      refine Finset.filter_eq_empty_iff.mpr fun path member => ?_
      obtain ⟨level, below, rfl⟩ := mem_waypoints.mp member
      rw [tablesThree, tablesTwo, tablesOne]
      interval_cases level <;> simp
    rw [all, Finset.card_empty] at priceThree
    have same : (third.write pt (index virt 3)
      ((phys &&& addrMask) ||| flags ||| present)).pool = third.pool := rfl
    rw [same]
    omega
  · intro path
    have kept := writeLeaf_tables thirdWf toPt ((phys &&& addrMask) ||| flags ||| present) path
    rw [kept, tablesThree, tablesTwo, tablesOne, mem_waypoints]
    constructor
    · rintro ⟨⟨⟨absent, one⟩, two⟩, three⟩
      refine ⟨absent, ?_⟩
      rintro ⟨level, below, rfl⟩
      interval_cases level
      · exact one rfl
      · exact two rfl
      · exact three rfl
    · rintro ⟨absent, off⟩
      exact ⟨⟨⟨absent, fun same => off ⟨0, by omega, same⟩⟩, fun same => off ⟨1, by omega, same⟩⟩,
        fun same => off ⟨2, by omega, same⟩⟩

end

/-! ### Frames of callers -/

section

variable {sys later : System} {space frame : BitVec 64}

theorem Inv.create_fresh (inv : Inv sys) (created : sys.create.spaces = space :: sys.spaces) :
    Fresh sys.create.view space := by
  unfold System.create at created ⊢
  cases result : sys.machine.createAddressSpace sys.kernel with
  | none =>
    rw [result, Option.elim_none] at created
    exact absurd created.symm (List.cons_ne_self _ _)
  | some made =>
    obtain ⟨made, machine⟩ := made
    rw [result, Option.elim_some] at created
    cases (List.cons.inj created).1
    intro i below
    have empty : machine.view.read made i = 0 :=
      (inv.creates result).lower i below
    change has (machine.view.read made i) present = false
    rw [empty]
    decide

/-- An operation on a space writes to no frame of a caller or a process. -/
theorem ActsOn.byte (acts : ActsOn sys space later) (inv : Inv sys) (member : space ∈ sys.spaces)
    (owned : sys.Owned frame) {b : Nat} (inside : InFrame frame b) :
    later.machine.mem b = sys.machine.mem b := by
  obtain ⟨virt, s, held, mapped, low, down, -, rfl⟩ := acts
  have lent := inv.lent frame owned.mem_ledger
  refine down.byte_other (inv.wf member) lent.masked (inv.not_pool lent) ?_ inside
  intro path found
  by_cases own : Own path
  · exact inv.owned_not_table owned member ⟨path, own, found⟩
  · have shared := (inv.space space member).wf.shared_path own found
    exact (inv.kernelLent path frame shared).2 owned.mem_ledger

theorem ActsOn.owned (acts : ActsOn sys space later) (member : space ∈ sys.spaces)
    (owned : sys.Owned frame) : later.Owned frame := by
  obtain ⟨virt, s, held, mapped, -, -, moves, rfl⟩ := acts
  have here : frame ∈ sys.held ++ sys.mapped space →
      (sys.moved space s held mapped).Owned frame := by
    intro inside
    rcases List.mem_append.mp (moves.mem_iff.mpr inside) with ours | placed
    · exact .inl ours
    · refine .inr ⟨space, member, ?_⟩
      change frame ∈ Function.update sys.mapped space mapped space
      rw [Function.update_self]
      exact placed
  rcases owned with ours | ⟨other, another, placed⟩
  · exact here (List.mem_append_left _ ours)
  · by_cases same : other = space
    · subst same
      exact here (List.mem_append_right _ placed)
    · refine .inr ⟨other, another, ?_⟩
      change frame ∈ Function.update sys.mapped space mapped other
      rw [Function.update_of_ne same]
      exact placed

/-! ### Taking and mapping a frame -/

variable {phys : BitVec 64}

theorem alloc_none_iff {m : Machine}
    (sound : m.Sound) : m.allocFrameZeroed = none ↔ m.pool.length = 0 := by
  unfold Machine.allocFrameZeroed Machine.allocFrame
  rw [Option.map_eq_none_iff, Option.map_eq_none_iff, sound.frames.allocFrame_none,
    Machine.pool_length, sound.frames.supply_spec.2.1]

/-- A zeroed frame went into the caller's hands. -/
structure Took (sys later : System) (phys : BitVec 64) : Prop where
  run : IdleRun sys later
  held : later.held = phys :: sys.held
  zero : ∀ b, InFrame phys b → later.machine.mem b = 0
  bytes : ∀ frame b, sys.Owned frame → InFrame frame b →
    later.machine.mem b = sys.machine.mem b
  pool : sys.machine.pool = phys :: later.machine.pool

theorem took_of_alloc {m : Machine} (inv : Inv sys)
    (result : sys.machine.allocFrameZeroed = some (phys, m)) :
    ∃ later, later.machine = m ∧ Took sys later phys := by
  obtain ⟨takes, mem⟩ := inv.sound.allocFrameZeroed result
  obtain ⟨⟨found, rest⟩, granted, equal⟩ := Option.map_eq_some_iff.mp result
  cases equal
  have taken : sys.alloc = { sys with machine := rest, held := found :: sys.held } := by
    unfold System.alloc
    rw [granted]
    rfl
  have owned : sys.alloc.Owned found := by
    rw [taken]
    exact .inl List.mem_cons_self
  have stored : sys.alloc.perform (.store found fun _ => 0) =
      some (sys.alloc.store found fun _ => 0) := if_pos owned
  have inPool : found ∈ sys.machine.pool := by
    rw [takes.pool]
    exact List.mem_cons_self
  have machine : (sys.alloc.store found fun _ => 0).machine =
      { rest with mem := zeroFrame rest.mem found } := by
    rw [taken]
    rfl
  refine ⟨sys.alloc.store found fun _ => 0, machine, ?_, ?_, ?_, ?_, ?_⟩
  · exact (Relation.ReflTransGen.single ⟨.alloc, trivial, rfl⟩).tail
      ⟨.store found fun _ => 0, trivial, stored⟩
  · rw [taken]
    rfl
  · intro b inside
    rw [machine]
    exact if_pos inside
  · intro frame b others inside
    have lent := inv.lent frame others.mem_ledger
    have apart : ¬ InFrame found b := by
      refine (frame_of_masked lent.masked).apart
        (frame_of_masked (inv.sound.pool_spec inPool).1) ?_ inside
      rintro rfl
      exact inv.sound.pool_not_lent inPool lent
    rw [machine, mem]
    exact zeroFrame_byte apart
  · rw [machine]
    exact takes.pool

/-- A frame of the caller was mapped. -/
structure Placed (sys later : System) (space virt phys flags : BitVec 64) :
    Prop where
  event : sys.perform (.map space virt phys flags) = some later
  inv : Inv later
  spaces : later.spaces = sys.spaces
  held : later.held = sys.held.erase phys
  mapped : later.mapped space = phys :: sys.mapped space
  here : leafOf later.view space virt = some (3, phys ||| flags ||| present)
  elsewhere : ∀ page, UserPage page → page ≠ virt →
    leafOf later.view space page = leafOf sys.view space page
  bytes : ∀ frame b, sys.Owned frame → InFrame frame b →
    later.machine.mem b = sys.machine.mem b
  price : later.machine.pool.length +
    (unlinked sys.view space (waypoints virt)).card = sys.machine.pool.length
  tables : ∀ path, later.view.tableAt space path = none ↔
    sys.view.tableAt space path = none ∧ path ∉ waypoints virt

theorem placed_of_map {virt flags : BitVec 64} {s : Vmm.State} (inv : Inv sys)
    (alive : space ∈ sys.spaces) (ours : phys ∈ sys.held)
    (written : AddressSpace.map sys.machine.view space virt phys flags = some s) :
    ∃ later, later.machine = sys.machine.after s ∧ Placed sys later space virt phys flags := by
  have result : sys.map space virt phys flags = some _ :=
    Option.map_eq_some_iff.mpr ⟨s, written, rfl⟩
  have event : sys.perform (.map space virt phys flags) = some _ :=
    (if_pos ⟨alive, ours⟩).trans result
  obtain ⟨after, acts⟩ := inv.map alive ours result
  have wf := inv.wf alive
  have free := (inv.space space alive).hugeFree
  have lent := inv.lent _ (List.mem_append_left _ ours)
  obtain ⟨used, taken, -, -⟩ :=
    (map4k_descends wf (AddressSpace.map_eq written).2.2.2.2.2).taken
  have view : (sys.machine.after s).view = s := (inv.sound.after taken).2.1
  obtain ⟨here, elsewhere⟩ := map_leafOf wf free lent.masked written
  have low : virt.toNat < 2 ^ 47 := (map_effect wf lent.masked written).1.1
  obtain ⟨price, tables⟩ : s.pool.length +
      (unlinked sys.view space (waypoints virt)).card =
        sys.machine.pool.length ∧
      ∀ path, s.tableAt space path = none ↔
        sys.view.tableAt space path = none ∧ path ∉ waypoints virt := by
    have made := (AddressSpace.map_eq written).2.2.2.2.2
    obtain ⟨failed, -⟩ | ⟨other, same, price, tables⟩ :=
      map4k_cost wf free low
    · cases made.symm.trans failed
    · cases made.symm.trans same
      exact ⟨price, tables⟩
  have pool : (sys.machine.after s).pool = s.pool := congrArg State.pool view
  refine ⟨_, rfl, event, after, rfl, rfl, Function.update_self _ _ _, ?_, ?_,
    fun frame b owned inside => acts.byte inv alive owned inside, ?_, ?_⟩
  · change leafOf (sys.machine.after s).view space _ = _
    rw [view]
    exact here
  · intro page user apart
    change leafOf (sys.machine.after s).view space _ = _
    rw [view]
    exact elsewhere page user apart
  · change (sys.machine.after s).pool.length + _ = _
    rw [pool]
    exact price
  · change ∀ path, (sys.machine.after s).view.tableAt space path = none ↔ _
    rw [view]
    exact tables

/-- Mapping a page where nothing is fails only for want of frames. -/
theorem map_none_iff {virt flags : BitVec 64} (inv : Inv sys) (alive : space ∈ sys.spaces)
    (ours : phys ∈ sys.held) (user : UserPage virt) (known : flags ∈ AddressSpace.userFlags)
    (blank : leafOf sys.view space virt = none) :
    AddressSpace.map sys.machine.view space virt phys flags = none ↔
      sys.machine.pool.length <
        (unlinked sys.view space (waypoints virt)).card := by
  have wf := inv.wf alive
  have free := (inv.space space alive).hugeFree
  have masked := (inv.lent _ (List.mem_append_left _ ours)).masked
  have low : virt < userSpaceEnd := by
    rw [BitVec.lt_def, userSpaceEnd_toNat]
    exact user.1
  have whole : phys &&& 0xfff#64 = 0 := by
    apply BitVec.eq_of_toNat_eq
    rw [offset4k_val]
    exact (toNat_of_addrMask masked).2
  have absent : (AddressSpace.translate sys.machine.view space virt).isSome =
      false := by
    have nothing : walk sys.view space virt = none :=
      (leafOf_none_iff wf free user.1).mp blank
    exact Option.isSome_eq_false_iff.mpr (Option.isNone_iff_eq_none.mpr nothing)
  unfold AddressSpace.map
  rw [if_neg (not_not.mpr low), if_neg (not_not.mpr user.aligned), if_neg (not_not.mpr whole),
    if_neg (not_not.mpr known), absent, if_neg Bool.false_ne_true]
  obtain ⟨failed, dear⟩ | ⟨s, made, price, -⟩ :=
    @map4k_cost space virt phys flags sys.view wf free user.1
  · exact iff_of_true failed dear
  · refine iff_of_false ?_ ?_
    · intro none
      cases made.symm.trans none
    · change s.pool.length + _ = sys.machine.pool.length at price
      omega

/-- Part of the life of a space, after which the callers hold the frames they
held before. -/
structure Tends (space : BitVec 64) (first sys : System) : Prop where
  inv : Inv sys
  alive : space ∈ sys.spaces
  life : Lifetime space first sys
  held : sys.held.Perm first.held

theorem Tends.trans {first middle last : System} (one : Tends space first middle)
    (two : Tends space middle last) : Tends space first last :=
  ⟨two.inv, two.alive, one.life.trans two.life, two.held.trans one.held⟩

end

end Eonos.Spaces
