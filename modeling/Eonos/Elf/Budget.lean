import Eonos.Elf.Acceptance
import Eonos.Elf.Loading

/-!
# What loading costs

`populate` takes one frame for each page the segments touch and fails where
there are fewer; the mapping pass takes one for each page table that is not
there yet, and panics where there are fewer.
-/

namespace Eonos.Elf

open Eonos.Vmm
open Eonos.Spaces

/-! ### The pages of an image -/

def Segment.pageSet (s : Segment) : Finset Nat :=
  (Finset.range s.pages).image fun i => alignDown s.vaddr + i * pageSize

/-- The pages the segments touch. -/
def imagePages : List Segment → Finset Nat
  | [] => ∅
  | s :: rest => s.pageSet ∪ imagePages rest

theorem Segment.mem_pageSet {s : Segment} {a : Nat} :
    a ∈ s.pageSet ↔ Strides (alignDown s.vaddr) (alignUp s.finish) a := by
  unfold Segment.pageSet Segment.pages Strides alignDown alignUp pageSize
  simp only [Finset.mem_image, Finset.mem_range]
  constructor
  · rintro ⟨i, below, rfl⟩
    omega
  · rintro ⟨low, high, stride⟩
    exact ⟨(a - s.vaddr / 4096 * 4096) / 4096, by omega, by omega⟩

theorem mem_imagePages {segments : List Segment}
    (positive : ∀ s ∈ segments, 0 < s.memsz) {a : Nat} :
    a ∈ imagePages segments ↔
      a % 4096 = 0 ∧ ∃ s ∈ segments, s.Touches a := by
  induction segments with
  | nil => simp [imagePages]
  | cons s rest induction =>
    rw [imagePages, Finset.mem_union, Segment.mem_pageSet,
      strides_iff (positive s List.mem_cons_self),
      induction fun s member => positive s (List.mem_cons_of_mem _ member)]
    simp only [List.mem_cons, exists_eq_or_imp]
    tauto

/-- The pages a loader has. -/
def Loader.keys (st : Loader) : Finset Nat :=
  (st.pages.toList.map Prod.fst).toFinset

section

variable {sys : System} {st later : Loader} {s : Segment} {va : Nat}

theorem Loader.mem_keys : va ∈ st.keys ↔ st.pages[va]? ≠ none := by
  unfold Loader.keys
  rw [List.mem_toFinset, List.mem_map]
  constructor
  · rintro ⟨⟨key, page⟩, member, rfl⟩
    rw [Std.TreeMap.mem_toList_iff_getElem?_eq_some.mp member]
    exact Option.some_ne_none page
  · intro found
    obtain ⟨page, there⟩ := Option.ne_none_iff_exists'.mp found
    exact ⟨(va, page), Std.TreeMap.mem_toList_iff_getElem?_eq_some.mpr there, rfl⟩

theorem Loader.keys_insert (page : Page) {machine : Machine} :
    (⟨st.pages.insert va page, machine⟩ : Loader).keys = insert va st.keys := by
  ext a
  rw [Finset.mem_insert, Loader.mem_keys, Loader.mem_keys, lookup_insert]
  split
  · rename_i same
    simp [same]
  · rename_i other
    simp [other]

/-- The frames of the pages were taken from a supply of `start`. -/
def Paid (start : Nat) (st : Loader) : Prop :=
  st.machine.pool.length + st.keys.card = start

/-- A part of `populate` that is to add the pages of `more`: it has them all, or
the allocator ran dry before. -/
def Spends (start : Nat) (st : Loader) (more : Finset Nat) (run : Outcome) : Prop :=
  Paid start run.2 ∧
    ((run.1 = .ok () ∧ run.2.keys = st.keys ∪ more) ∨
      (run.1 = .error .noMemory ∧ run.2.machine.pool.length = 0 ∧
        run.2.keys ⊂ st.keys ∪ more))

variable {start : Nat}

theorem Spends.andThen {more others : Finset Nat} {first : Outcome} {next : Loader → Outcome}
    (one : Spends start st more first)
    (two : ∀ middle, first = (.ok (), middle) → Spends start middle others (next middle)) :
    Spends start st (more ∪ others) (first.andThen next) := by
  obtain ⟨outcome, middle⟩ := first
  obtain ⟨paid, ⟨done, keys⟩ | ⟨failed, dry, part⟩⟩ := one
  · cases done
    have rest := two middle rfl
    dsimp only at keys
    unfold Spends at rest
    rw [keys, Finset.union_assoc] at rest
    exact rest
  · cases failed
    refine ⟨paid, .inr ⟨rfl, dry, part.trans_subset ?_⟩⟩
    exact Finset.union_subset_union_right Finset.subset_union_left

theorem touchPage_spends (sound : st.machine.Sound)
    (paid : Paid start st) : Spends start st {va} (touchPage s va st) := by
  unfold touchPage
  split
  case h_1 page found =>
    have known : va ∈ st.keys := by
      rw [Loader.mem_keys, found]
      exact Option.some_ne_none page
    have same : insert va st.keys = st.keys := Finset.insert_eq_of_mem known
    unfold Spends Paid
    rw [Loader.keys_insert, same]
    exact ⟨paid, .inl ⟨rfl, (Finset.union_eq_left.mpr
      (Finset.singleton_subset_iff.mpr known)).symm⟩⟩
  case h_2 absent =>
    have unknown : va ∉ st.keys := by
      rw [Loader.mem_keys, absent]
      exact fun there => there rfl
    cases taken : st.machine.allocFrameZeroed with
    | none =>
      have dry := (alloc_none_iff sound).mp taken
      refine ⟨paid, .inr ⟨rfl, dry, ?_⟩⟩
      rw [Finset.union_comm, ← Finset.insert_eq]
      exact Finset.ssubset_insert unknown
    | some result =>
      obtain ⟨frame, machine⟩ := result
      have pool := (sound.allocFrameZeroed taken).1.pool
      have count := congrArg List.length pool
      rw [List.length_cons] at count
      unfold Spends Paid
      rw [Option.elim_some, Loader.keys_insert, Finset.card_insert_of_notMem unknown]
      unfold Paid at paid
      refine ⟨by dsimp only; omega, .inl ⟨rfl, ?_⟩⟩
      rw [Finset.insert_eq, Finset.union_comm]

theorem pageLoop_spends {last fuel : Nat} {more : Finset Nat} (inv : Inv sys)
    (building : Building sys st) (paid : Paid start st) (enough : last ≤ va + fuel * 4096)
    (pages : ∀ a, a ∈ more ↔ Strides va last a) :
    Spends start st more (pageLoop s last fuel va st) := by
  induction fuel generalizing va st more with
  | zero =>
    have none : more = ∅ := by
      refine Finset.eq_empty_of_forall_notMem fun a member => ?_
      have inside := (pages a).mp member
      unfold Strides at inside
      omega
    rw [none]
    exact ⟨paid, .inl ⟨rfl, (Finset.union_empty _).symm⟩⟩
  | succ fuel induction =>
    unfold pageLoop
    split
    · rename_i below
      have rest : ∀ a, a ∈ more.erase va ↔ Strides (va + pageSize) last a := by
        intro a
        rw [Finset.mem_erase, pages, strides_succ below]
        unfold Strides pageSize
        omega
      have whole : more = {va} ∪ more.erase va := by
        rw [← Finset.insert_eq, Finset.insert_erase]
        rw [pages, strides_succ below]
        exact .inl rfl
      rw [whole]
      have spent : Spends start st {va} (touchPage s va st) :=
        touchPage_spends (building.frames inv).1 paid
      refine spent.andThen ?_
      intro middle touched
      rw [touched] at spent
      exact induction (touchPage_building building touched) spent.1 (by unfold pageSize; omega) rest
    · rename_i done
      have none : more = ∅ := by
        refine Finset.eq_empty_of_forall_notMem fun a member => ?_
        have inside := (pages a).mp member
        unfold Strides at inside
        omega
      rw [none]
      exact ⟨paid, .inl ⟨rfl, (Finset.union_empty _).symm⟩⟩

/-- Copying finds the pages it needs and takes no frame. -/
theorem copyLoop_done {image : List UInt8} {fuel copied : Nat}
    (there : ∀ a, s.vaddr ≤ a → a < s.vaddr + s.filesz → (st.pages[alignDown a]?).isSome)
    (enough : s.filesz < copied + fuel) :
    (copyLoop image s fuel copied st).1 = .ok () ∧
      (copyLoop image s fuel copied st).2.pages = st.pages ∧
      (copyLoop image s fuel copied st).2.machine.frames =
        st.machine.frames := by
  induction fuel generalizing copied st with
  | zero => exact ⟨rfl, rfl, rfl⟩
  | succ fuel induction =>
    unfold copyLoop
    split
    · rename_i left
      dsimp only
      obtain ⟨page, found⟩ := Option.isSome_iff_exists.mp
        (there (s.vaddr + copied) (Nat.le_add_right _ _) (by omega))
      rw [found]
      dsimp only
      have progress : 0 < min (s.filesz - copied)
          (pageSize - (s.vaddr + copied - alignDown (s.vaddr + copied))) := by
        unfold alignDown pageSize
        omega
      exact induction there (by omega)
    · exact ⟨rfl, rfl, rfl⟩

theorem populateSegment_spends {image : List UInt8} (inv : Inv sys) (building : Building sys st)
    (paid : Paid start st) (positive : 0 < s.memsz) (within : s.filesz ≤ s.memsz) :
    Spends start st s.pageSet (populateSegment image s st) := by
  unfold populateSegment
  dsimp only
  have enough : alignUp s.finish ≤ alignDown s.vaddr +
      ((alignUp s.finish - alignDown s.vaddr) / pageSize + 1) * 4096 := by
    unfold pageSize
    omega
  have spends := pageLoop_spends (s := s) inv building paid enough fun a => Segment.mem_pageSet
  rw [← Finset.union_empty s.pageSet]
  refine spends.andThen ?_
  intro middle looped
  rw [looped] at spends
  obtain ⟨done, pages, frames⟩ := @copyLoop_done middle s image
    (s.filesz + 1) 0
    (fun a low high => pageLoop_there positive within looped low high)
    (by omega)
  have keys : (copyLoop image s (s.filesz + 1) 0 middle).2.keys =
      middle.keys := by
    unfold Loader.keys
    rw [pages]
  refine ⟨?_, .inl ⟨done, ?_⟩⟩
  · unfold Paid Machine.pool
    rw [frames, keys]
    exact spends.1
  · rw [keys, Finset.union_empty]

theorem populateSegments_spends {image : List UInt8} {segments : List Segment} (inv : Inv sys)
    (building : Building sys st) (paid : Paid start st) (valid : ∀ s ∈ segments, s.Valid image) :
    Spends start st (imagePages segments) (populateSegments image segments st) := by
  induction segments generalizing st with
  | nil => exact ⟨paid, .inl ⟨rfl, (Finset.union_empty _).symm⟩⟩
  | cons s rest induction =>
    have here := valid s List.mem_cons_self
    have spends : Spends start st s.pageSet (populateSegment image s st) :=
      populateSegment_spends inv building paid here.positive here.filesz
    refine spends.andThen fun middle populated => ?_
    rw [populated] at spends
    exact induction (populateSegment_building building populated) spends.1
      fun s member => valid s (List.mem_cons_of_mem _ member)

end

/-! ### The mapping pass -/

/-- The tables on the way to some pages, by their paths. -/
def tableWays (pages : Finset Nat) : Finset (List (Fin 512)) :=
  pages.biUnion fun va => waypoints (BitVec.ofNat 64 va)

section

variable {sys : System} {space : BitVec 64}

/-- What a part needs, and what the rest needs after it. -/
theorem card_unlinked_union {s later : Vmm.State}
    {some_ others : Finset (List (Fin 512))}
    (tables : ∀ path, later.tableAt space path = none ↔
      s.tableAt space path = none ∧ path ∉ some_) :
    (unlinked s space (some_ ∪ others)).card =
      (unlinked s space some_).card + (unlinked later space others).card := by
  have split : unlinked s space (some_ ∪ others) =
      unlinked s space some_ ∪ unlinked later space others := by
    ext path
    simp only [unlinked, Finset.mem_filter, Finset.mem_union, tables]
    tauto
  rw [split, Finset.card_union_of_disjoint]
  rw [Finset.disjoint_left]
  intro path one two
  simp only [unlinked, Finset.mem_filter, tables] at one two
  exact two.2.2 one.1

theorem Page.flags_user (page : Page) : page.flags ∈ AddressSpace.userFlags := by
  unfold Page.flags
  split <;> decide

/-- The mapping pass takes a frame for each table that is missing, and panics
where there are too few. -/
theorem mapPages_cost {entries : List (Nat × Page)} (inv : Inv sys) (alive : space ∈ sys.spaces)
    {rest : List (BitVec 64)}
    (held : sys.held.Perm (entries.map (fun entry => entry.2.phys) ++ rest))
    (small : ∀ entry ∈ entries, UserPage (BitVec.ofNat 64 entry.1))
    (apart : entries.Pairwise fun a b => BitVec.ofNat 64 a.1 ≠ BitVec.ofNat 64 b.1)
    (blank : ∀ entry ∈ entries, leafOf sys.view space (BitVec.ofNat 64 entry.1) = none) :
    (entries.foldlM (mapPage space) sys.machine = none ∧
      sys.machine.pool.length < (unlinked sys.view space
        (tableWays (entries.map Prod.fst).toFinset)).card) ∨
    ∃ later : System,
      entries.foldlM (mapPage space) sys.machine = some later.machine ∧
      later.machine.pool.length + (unlinked sys.view space
        (tableWays (entries.map Prod.fst).toFinset)).card =
          sys.machine.pool.length ∧
      ∀ path, later.view.tableAt space path = none ↔
        sys.view.tableAt space path = none ∧
          path ∉ tableWays (entries.map Prod.fst).toFinset := by
  induction entries generalizing sys with
  | nil => exact .inr ⟨sys, rfl, by simp [tableWays, unlinked], by simp [tableWays]⟩
  | cons entry entries induction =>
    have ways : tableWays ((entry :: entries).map Prod.fst).toFinset =
        waypoints (BitVec.ofNat 64 entry.1) ∪
          tableWays (entries.map Prod.fst).toFinset := by
      unfold tableWays
      rw [List.map_cons, List.toFinset_cons, Finset.biUnion_insert]
    have ours : entry.2.phys ∈ sys.held :=
      held.mem_iff.mpr List.mem_cons_self
    have decided := map_none_iff inv alive ours (small entry List.mem_cons_self) entry.2.flags_user
      (blank entry List.mem_cons_self)
    rw [ways, List.foldlM_cons]
    cases made : AddressSpace.map sys.machine.view space
        (BitVec.ofNat 64 entry.1) entry.2.phys entry.2.flags with
    | none =>
      have dear := decided.mp made
      refine .inl ⟨?_, dear.trans_le (Finset.card_le_card ?_)⟩
      · unfold mapPage
        rw [made]
        rfl
      · exact Finset.filter_subset_filter _ Finset.subset_union_left
    | some s =>
      obtain ⟨middle, machine, placed⟩ :=
        placed_of_map inv alive ours made
      have one : mapPage space sys.machine entry = some middle.machine := by
        unfold mapPage
        rw [made, machine]
        rfl
      obtain ⟨distinct, others⟩ := List.pairwise_cons.mp apart
      have left : middle.held.Perm (entries.map (fun entry => entry.2.phys) ++ rest) := by
        rw [placed.held]
        have erased := held.erase entry.2.phys
        rw [List.map_cons, List.cons_append, List.erase_cons_head] at erased
        exact erased
      have price := placed.price
      rw [one, card_unlinked_union placed.tables]
      change (entries.foldlM (mapPage space) middle.machine = none ∧ _) ∨ ∃ later : System,
        entries.foldlM (mapPage space) middle.machine = some later.machine ∧ _
      obtain ⟨failed, dear⟩ | ⟨later, done, paid, tables⟩ :=
        induction placed.inv (placed.spaces.symm ▸ alive) left (fun entry member => small entry
          (List.mem_cons_of_mem _ member)) others (by
            intro other member
            rw [placed.elsewhere _ (small other (List.mem_cons_of_mem _ member)) (distinct other
              member).symm]
            exact blank other (List.mem_cons_of_mem _ member))
      · exact .inl ⟨failed, by omega⟩
      · refine .inr ⟨later, done, by omega, fun path => ?_⟩
        rw [tables, placed.tables, Finset.mem_union, not_or, and_assoc]

/-! ### Loading -/

instance (s : Segment) (va : Nat) : Decidable (s.Touches va) :=
  inferInstanceAs (Decidable (_ ∧ _))

/-- Some page belongs to a writable and to an executable segment. -/
def Clash (segments : List Segment) : Prop :=
  ∃ va ∈ imagePages segments,
    (∃ s ∈ segments, s.Touches va ∧ s.writable = true) ∧
    ∃ s ∈ segments, s.Touches va ∧ s.executable = true

instance (segments : List Segment) : Decidable (Clash segments) := by
  unfold Clash
  infer_instance

/-- The program is in the space, with nothing mapped beyond its pages. -/
structure Fitted (space : BitVec 64) (pages : Finset Nat)
    (sys later : System) : Prop extends Tends space sys later where
  price : later.machine.pool.length + pages.card + (tableWays pages).card =
    sys.machine.pool.length
  tables : ∀ path, Own path → path ≠ [] →
    (later.view.tableAt space path = none ↔ path ∉ tableWays pages)
  blank : ∀ virt, UserPage virt → loadMax ≤ virt.toNat →
    leafOf later.view space virt = none

variable {image : List UInt8} {entry : Nat}

theorem own_tableWays {pages : Finset Nat} (low : ∀ va ∈ pages, va < loadMax)
    {path : List (Fin 512)} (member : path ∈ tableWays pages) : Own path ∧ path ≠ [] := by
  obtain ⟨va, inside, way⟩ := Finset.mem_biUnion.mp member
  obtain ⟨level, -, rfl⟩ := mem_waypoints.mp way
  have below := low va inside
  unfold loadMax at below
  have user : (BitVec.ofNat 64 va).toNat < 2 ^ 47 := by
    rw [BitVec.toNat_ofNat]
    omega
  exact ⟨own_way user _, by rw [indices_succ]; exact List.cons_ne_nil _ _⟩

/-- A page of both kinds is found by the last check of `populate`. -/
theorem clash_iff {m : Machine} {st : Loader} (valid : ∀ s ∈ loadSegments image, s.Valid image)
    (filled : populateSegments image (loadSegments image) ⟨∅, m⟩ = (.ok (), st)) :
    (st.pages.toList.any fun entry =>
      entry.2.writable && entry.2.executable) = true ↔
      Clash (loadSegments image) := by
  have positive : ∀ s ∈ loadSegments image, 0 < s.memsz :=
    fun s member => (valid s member).positive
  have writable := pages_iff valid filled mark_writable
  have executable := pages_iff valid filled mark_executable
  rw [List.any_eq_true]
  constructor
  · rintro ⟨⟨va, page⟩, member, both⟩
    have found := Std.TreeMap.mem_toList_iff_getElem?_eq_some.mp member
    rw [Bool.and_eq_true] at both
    obtain ⟨whole, s, known, touches, write⟩ :=
      (writable va).mp ⟨page, found, both.1⟩
    obtain ⟨-, t, also, again, execute⟩ :=
      (executable va).mp ⟨page, found, both.2⟩
    exact ⟨va, (mem_imagePages positive).mpr ⟨whole, s, known, touches⟩,
      ⟨s, known, touches, write⟩, t, also, again, execute⟩
  · rintro ⟨va, inside, ⟨s, known, touches, write⟩, t, also, again, execute⟩
    have whole := ((mem_imagePages positive).mp inside).1
    obtain ⟨page, found, one⟩ :=
      (writable va).mpr ⟨whole, s, known, touches, write⟩
    obtain ⟨same, there, two⟩ :=
      (executable va).mpr ⟨whole, t, also, again, execute⟩
    cases found.symm.trans there
    exact ⟨(va, page), Std.TreeMap.mem_toList_iff_getElem?_eq_some.mpr found,
      Bool.and_eq_true_iff.mpr ⟨one, two⟩⟩

theorem load_eq (accepted : Lib.Returns (parse image)
      (entry, loadSegments image)) (m : Machine) :
    load image space m =
      match populate image (loadSegments image) ⟨∅, m⟩ with
      | (.error e, st) => some (.error e, freePages st)
      | (.ok _, st) =>
        (st.pages.toList.foldlM (mapPage space) st.machine).map fun m =>
          (.ok entry, m) := by
  unfold load
  rw [accepted]
  rfl

theorem mapPass_decides {st : Loader} (inv : Inv sys) (alive : space ∈ sys.spaces)
    (fresh : Fresh sys.view space) (valid : ∀ s ∈ loadSegments image, s.Valid image)
    (filled : populateSegments image (loadSegments image) ⟨∅, sys.machine⟩ = (.ok (), st))
    (paid : Paid sys.machine.pool.length st) :
    (st.pages.toList.foldlM (mapPage space) st.machine = none ∧
      sys.machine.pool.length < st.keys.card + (tableWays st.keys).card) ∨
    ∃ later, st.pages.toList.foldlM (mapPage space) st.machine =
        some later.machine ∧ Fitted space st.keys sys later := by
  obtain ⟨middle, run, machine, held⟩ :=
    populateSegments_building (building_start sys) filled
  have same := run.untouched inv
  have middleAlive : space ∈ middle.spaces := same.spaces.symm ▸ alive
  have middleFresh := Fresh.untouched fresh same alive
  have user := fun (entry : Nat × Page) (member : entry ∈ st.pages.toList) =>
    entry_user valid filled member
  have low : ∀ va ∈ st.keys, va < loadMax := by
    intro va inside
    obtain ⟨entry, member, rfl⟩ :=
      List.mem_map.mp (List.mem_toFinset.mp inside)
    exact (user entry member).1
  -- a fresh space lacks every table
  have missing : unlinked middle.view space (tableWays st.keys) =
      tableWays st.keys := by
    refine Finset.filter_true_of_mem fun path member => ?_
    obtain ⟨own, proper⟩ := own_tableWays low member
    exact middleFresh.tableAt_none own proper
  have cost := mapPages_cost same.inv middleAlive held (fun entry member => (user entry member).2.1)
    (entries_apart valid filled) (fun entry member => middleFresh.leafOf_none (user entry
    member).2.1.1)
  change (_ ∧ _ < (unlinked middle.view space (tableWays st.keys)).card) ∨ (∃ later : System, _ ∧
      _ + (unlinked middle.view space (tableWays st.keys)).card = _ ∧
      ∀ path, _ ↔ _ ∧ path ∉ tableWays st.keys) at cost
  rw [missing, machine] at cost
  unfold Paid at paid
  obtain ⟨failed, dear⟩ | ⟨counted, done, price, tables⟩ := cost
  · exact .inl ⟨failed, by omega⟩
  · rw [← machine] at done
    obtain ⟨last, equal, maps⟩ := mapPages_maps same.inv middleAlive
      middleFresh.linked held (fun entry member => (user entry member).2.1)
      (entries_apart valid filled) done
    have view : counted.view = last.view := congrArg Machine.view equal.symm
    rw [view] at tables
    rw [← equal] at price done
    rw [machine] at done
    refine .inr ⟨last, done, ⟨maps.inv, maps.spaces.symm ▸ middleAlive,
      (run.lifetime space).trans maps.life, ?_⟩, by omega, ?_, ?_⟩
    · exact (List.perm_append_left_iff _).mp (maps.held.symm.trans held)
    · intro path own proper
      rw [tables]
      exact and_iff_right (middleFresh.tableAt_none own proper)
    · intro virt page above
      rw [maps.elsewhere virt page, middleFresh.leafOf_none page.1]
      rintro entry member rfl
      have below := user entry member
      omega

theorem keys_empty (m : Machine) : (⟨∅, m⟩ : Loader).keys = ∅ := by
  refine Finset.eq_empty_of_forall_notMem fun va member => ?_
  exact Loader.mem_keys.mp member Std.TreeMap.getElem?_emptyc

/-- In a fresh space the number of free frames decides how loading ends. -/
theorem load_decides (inv : Inv sys) (alive : space ∈ sys.spaces) (fresh : Fresh sys.view space)
    (accepted : Lib.Returns (parse image) (entry, loadSegments image)) :
    ((sys.machine.pool.length < (imagePages (loadSegments image)).card ∨
        Clash (loadSegments image)) ∧
      ∃ e m, load image space sys.machine = some (.error e, m)) ∨
    ((imagePages (loadSegments image)).card ≤ sys.machine.pool.length ∧
      ¬ Clash (loadSegments image) ∧
      sys.machine.pool.length < (imagePages (loadSegments image)).card +
        (tableWays (imagePages (loadSegments image))).card ∧
      load image space sys.machine = none) ∨
    (¬ Clash (loadSegments image) ∧
      ∃ later, load image space sys.machine = some (.ok entry, later.machine) ∧
        Fitted space (imagePages (loadSegments image)) sys later) := by
  obtain ⟨-, valid, -⟩ := parse_returns accepted
  have paid : Paid sys.machine.pool.length ⟨∅, sys.machine⟩ := by
    unfold Paid
    rw [keys_empty, Finset.card_empty, Nat.add_zero]
  have spends := populateSegments_spends inv (building_start sys) paid valid
  rw [load_eq accepted]
  cases run : populateSegments image (loadSegments image) ⟨∅, sys.machine⟩ with
  | mk outcome st =>
  rw [run] at spends
  obtain ⟨balance, ⟨done, keys⟩ | ⟨failed, dry, part⟩⟩ := spends
  · dsimp only at balance done keys
    subst done
    rw [keys_empty, Finset.empty_union] at keys
    have populated : populate image (loadSegments image) ⟨∅, sys.machine⟩ =
        if st.pages.toList.any fun entry =>
            entry.2.writable && entry.2.executable then
          (.error .writableExecutable, st)
        else (.ok (), st) := by
      unfold populate
      rw [run]
      rfl
    rw [populated]
    by_cases clash : Clash (loadSegments image)
    · rw [if_pos ((clash_iff valid run).mpr clash)]
      exact .inl ⟨.inr clash, _, _, rfl⟩
    · rw [if_neg fun found => clash ((clash_iff valid run).mp found), ← keys]
      unfold Paid at balance
      obtain ⟨panicked, dear⟩ | ⟨later, mapped, fitted⟩ :=
        mapPass_decides inv alive fresh valid run balance
      · refine .inr (.inl ⟨by omega, clash, dear, ?_⟩)
        dsimp only
        rw [panicked]
        rfl
      · refine .inr (.inr ⟨clash, later, ?_, fitted⟩)
        dsimp only
        rw [mapped]
        rfl
  · dsimp only at balance failed dry part
    subst failed
    have populated : populate image (loadSegments image) ⟨∅, sys.machine⟩ =
        (.error .noMemory, st) := by
      unfold populate
      rw [run]
      rfl
    rw [populated]
    refine .inl ⟨.inl ?_, _, _, rfl⟩
    have fewer := Finset.card_lt_card part
    rw [keys_empty, Finset.empty_union] at fewer
    unfold Paid at balance
    omega

end

end Eonos.Elf
