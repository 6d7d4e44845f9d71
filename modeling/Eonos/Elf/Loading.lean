import Eonos.Elf.Contents
import Eonos.Spaces.Mapping

/-!
# Loading

An image that is rejected leaves no trace.  One that is loaded is in the
address space as its headers describe it, page by page and byte by byte.
-/

namespace Eonos.Elf

open Eonos.Vmm
open Eonos.Spaces

section

variable {sys later : System} {space : BitVec 64} {m : Machine}
  {image : List UInt8}

/-! ### Rejected images -/

/-- Where `load` fails it has undone what it did. -/
theorem load_rejected {e : ElfError}
    (rejected : load image space sys.machine = some (.error e, m)) :
    ∃ later, IdleRun sys later ∧ later.machine = m ∧
      later.held.Perm sys.held := by
  obtain ⟨parsed, -, rest⟩ := Option.bind_eq_some_iff.mp rejected
  cases parsed with
  | error e =>
    cases rest
    exact ⟨sys, .refl, rfl, List.Perm.refl _⟩
  | ok parsed =>
    obtain ⟨entry, segments⟩ := parsed
    dsimp only at rest
    split at rest
    case h_1 e st failed =>
      cases rest
      exact (populate_building (building_start sys) failed).freePages
    case h_2 =>
      obtain ⟨last, -, wrong⟩ := Option.map_eq_some_iff.mp rest
      cases wrong

/-- The pages of `entries` are mapped, and nothing else has changed. -/
structure Maps (space : BitVec 64) (entries : List (Nat × Page))
    (sys later : System) : Prop where
  life : Lifetime space sys later
  inv : Inv later
  spaces : later.spaces = sys.spaces
  held : sys.held.Perm (entries.map (fun entry => entry.2.phys) ++ later.held)
  linked : Linked later.view space
  here : ∀ entry ∈ entries, leafOf later.view space (BitVec.ofNat 64 entry.1) =
    some (3, entry.2.phys ||| entry.2.flags ||| present)
  elsewhere : ∀ page, UserPage page →
    (∀ entry ∈ entries, BitVec.ofNat 64 entry.1 ≠ page) →
      leafOf later.view space page = leafOf sys.view space page
  bytes : ∀ frame b, sys.Owned frame → InFrame frame b →
    later.machine.mem b = sys.machine.mem b
  owned : ∀ frame, sys.Owned frame → later.Owned frame

theorem mapPage_maps {entry : Nat × Page} (inv : Inv sys) (alive : space ∈ sys.spaces)
    (linked : Linked sys.view space) (ours : entry.2.phys ∈ sys.held)
    (mapped : mapPage space sys.machine entry = some m) :
    ∃ later, later.machine = m ∧ Maps space [entry] sys later := by
  obtain ⟨s, written, rfl⟩ := Option.map_eq_some_iff.mp mapped
  have result : sys.map space (BitVec.ofNat 64 entry.1) entry.2.phys
      entry.2.flags = some _ := Option.map_eq_some_iff.mpr ⟨s, written, rfl⟩
  have event : sys.perform (.map space (BitVec.ofNat 64 entry.1) entry.2.phys
      entry.2.flags) = some _ := (if_pos ⟨alive, ours⟩).trans result
  obtain ⟨after, acts⟩ := inv.map alive ours result
  have wf := inv.wf alive
  have free := (inv.space space alive).hugeFree
  have lent := inv.lent _ (List.mem_append_left _ ours)
  obtain ⟨used, taken, -, -⟩ :=
    (map4k_descends wf (AddressSpace.map_eq written).2.2.2.2.2).taken
  have view : (sys.machine.after s).view = s := (inv.sound.after taken).2.1
  obtain ⟨here, elsewhere⟩ := map_leafOf wf free lent.masked written
  refine ⟨_, rfl, .single ⟨.map space (BitVec.ofNat 64 entry.1) entry.2.phys entry.2.flags, rfl,
    event⟩, after, rfl, List.perm_cons_erase ours, ?_, ?_, ?_, ?_, ?_⟩
  · change Linked (sys.machine.after s).view space
    rw [view]
    exact map_linked wf free linked written
  · intro other member
    rw [List.mem_singleton.mp member]
    change leafOf (sys.machine.after s).view space _ = _
    rw [view]
    exact here
  · intro page user apart
    change leafOf (sys.machine.after s).view space _ = _
    rw [view]
    exact elsewhere page user (apart entry List.mem_cons_self).symm
  · intro frame b owned inside
    exact acts.byte inv alive owned inside
  · intro frame owned
    exact acts.owned alive owned

theorem mapPages_maps {entries : List (Nat × Page)} (inv : Inv sys) (alive : space ∈ sys.spaces)
    (linked : Linked sys.view space) {rest : List (BitVec 64)}
    (held : sys.held.Perm (entries.map (fun entry => entry.2.phys) ++ rest))
    (small : ∀ entry ∈ entries, UserPage (BitVec.ofNat 64 entry.1))
    (apart : entries.Pairwise fun a b => BitVec.ofNat 64 a.1 ≠ BitVec.ofNat 64 b.1)
    (mapped : entries.foldlM (mapPage space) sys.machine = some m) :
    ∃ later, later.machine = m ∧ Maps space entries sys later := by
  induction entries generalizing sys with
  | nil =>
    cases mapped
    exact ⟨sys, rfl, .refl, inv, rfl, List.Perm.refl _, linked, by simp,
      fun _ _ _ => rfl, fun _ _ _ _ => rfl, fun _ owned => owned⟩
  | cons entry entries induction =>
    rw [List.foldlM_cons] at mapped
    obtain ⟨next, one, more⟩ := Option.bind_eq_some_iff.mp mapped
    have ours : entry.2.phys ∈ sys.held :=
      held.mem_iff.mpr List.mem_cons_self
    obtain ⟨middle, rfl, first⟩ := mapPage_maps inv alive linked ours one
    obtain ⟨distinct, others⟩ := List.pairwise_cons.mp apart
    have left : middle.held.Perm (entries.map (fun entry => entry.2.phys) ++ rest) :=
      (first.held.symm.trans held).cons_inv
    obtain ⟨later, rfl, second⟩ := induction first.inv (first.spaces.symm ▸ alive) first.linked left
      (fun entry member => small entry (List.mem_cons_of_mem _ member)) others more
    refine ⟨later, rfl, first.life.trans second.life, second.inv, second.spaces.trans first.spaces,
      first.held.trans (second.held.cons _), second.linked, ?_, ?_, ?_, ?_⟩
    · intro other member
      rcases List.mem_cons.mp member with rfl | member
      · rw [second.elsewhere _ (small other List.mem_cons_self)
          fun entry member => (distinct entry member).symm]
        exact first.here other List.mem_cons_self
      · exact second.here other member
    · intro page user off
      rw [second.elsewhere page user fun entry member =>
          off entry (List.mem_cons_of_mem _ member),
        first.elsewhere page user fun other member => by
          rw [List.mem_singleton.mp member]
          exact off entry List.mem_cons_self]
    · intro frame b owned inside
      rw [second.bytes frame b (first.owned frame owned) inside,
        first.bytes frame b owned inside]
    · intro frame owned
      exact second.owned frame (first.owned frame owned)

/-! ### Leaves of the image -/

theorem and_flags {phys flags mask : BitVec 64} (masked : phys &&& addrMask = phys)
    (clear : addrMask &&& mask = 0) : (phys ||| flags) &&& mask = flags &&& mask := by
  have off : phys &&& mask = 0 := by
    rw [← masked, BitVec.and_assoc, clear]
    exact BitVec.and_zero
  rw [BitVec.or_comm, and_mask_of_flags off]

theorem linkEntry_allows {u : BitVec 64} (masked : u &&& addrMask = u) :
    hasAll (linkEntry u) (present ||| user ||| Vmm.writable) = true ∧
      (hasAll (linkEntry u) (present ||| user) &&
        !has (linkEntry u) noExecute) = true := by
  rw [linkEntry, BitVec.or_assoc, BitVec.or_assoc, hasAll, hasAll, has,
    and_flags masked (by decide), and_flags masked (by decide),
    and_flags masked (by decide)]
  decide

def Page.leaf (page : Page) : BitVec 64 := page.phys ||| page.flags ||| present

section

variable {page : Page} (masked : page.phys &&& addrMask = page.phys)

include masked

theorem Page.leaf_addr : page.leaf &&& addrMask = page.phys := by
  have clear : page.flags &&& addrMask = 0 := by
    unfold Page.flags
    split <;> decide
  rw [Page.leaf, and_mask_of_flags (by decide), and_mask_of_flags clear, masked]

theorem Page.leaf_writable :
    hasAll page.leaf (present ||| user ||| Vmm.writable) = (page.writable && !page.executable) := by
  rw [hasAll, Page.leaf, BitVec.or_assoc, and_flags masked (by decide), Page.flags]
  cases page.writable <;> cases page.executable <;> decide

theorem Page.leaf_executable :
    (hasAll page.leaf (present ||| user) && !has page.leaf noExecute) =
      (page.executable && !page.writable) := by
  rw [hasAll, has, Page.leaf, BitVec.or_assoc, and_flags masked (by decide),
    and_flags masked (by decide), Page.flags]
  cases page.writable <;> cases page.executable <;> decide

end

/-! ### Accepted images -/

theorem populate_ok {segments : List Segment} {st last : Loader}
    (run : populate image segments st = (.ok (), last)) :
    populateSegments image segments st = (.ok (), last) ∧
      ∀ (va : Nat) (page : Page), last.pages[va]? = some page →
        ¬ (page.writable = true ∧ page.executable = true) := by
  rcases Outcome.andThen_eq run with ⟨middle, first, rest⟩ | ⟨e, -, failed⟩
  · split at rest
    · cases rest
    · rename_i none
      cases rest
      refine ⟨first, fun va page found both => none ?_⟩
      refine List.any_eq_true.mpr ⟨(va, page),
        Std.TreeMap.mem_toList_iff_getElem?_eq_some.mpr found, ?_⟩
      rw [both.1, both.2]
      rfl
  · cases failed

/-- The page an address lies on, and where. -/
theorem page_of {virt : BitVec 64} (low : virt.toNat < 2 ^ 47) :
    UserPage (BitVec.ofNat 64 (alignDown virt.toNat)) ∧
      indices (BitVec.ofNat 64 (alignDown virt.toNat)) 4 = indices virt 4 := by
  unfold alignDown pageSize
  constructor
  · unfold UserPage
    rw [BitVec.toNat_ofNat]
    omega
  · rw [indices_eq_iff, Vmm.page, Vmm.page, BitVec.toNat_ofNat]
    omega

/-- What `load` has done when it returns the entry point. -/
structure Loaded (image : List UInt8) (space : BitVec 64) (sys : System)
    (st : Loader) (later : System) : Prop where
  building : Building sys st
  filled : populateSegments image (loadSegments image) ⟨∅, sys.machine⟩ =
    (.ok (), st)
  exclusive : ∀ (va : Nat) (page : Page), st.pages[va]? = some page →
    ¬ (page.writable = true ∧ page.executable = true)
  inv : Inv later
  alive : space ∈ later.spaces
  linked : Linked later.view space
  leaves : ∀ virt, virt.toNat < 2 ^ 47 → leafOf later.view space virt =
    (st.pages[alignDown virt.toNat]?).map fun page => (3, page.leaf)
  bytes : ∀ (va : Nat) (page : Page), st.pages[va]? = some page → ∀ k < 4096,
    later.machine.mem (page.phys.toNat + k) =
      st.machine.mem (page.phys.toNat + k)

theorem pages_iff {segments : List Segment} {st : Loader} (valid : ∀ s ∈ segments, s.Valid image)
    (filled : populateSegments image segments ⟨∅, m⟩ = (.ok (), st)) {o : Page → Bool}
    {q : Segment → Bool} (mark : Mark o q) (va : Nat) :
    (∃ page, st.pages[va]? = some page ∧ o page = true) ↔
      va % 4096 = 0 ∧ ∃ s ∈ segments, s.Touches va ∧ q s = true := by
  have marks := populateSegments_mark mark (fun s member => (valid s member).positive) filled va
  have start : ((⟨∅, m⟩ : Loader).pages[va]?).any o = false := by
    rw [Std.TreeMap.getElem?_emptyc]
    rfl
  rw [start] at marks
  refine Iff.trans ?_ (marks.trans (or_iff_right Bool.false_ne_true))
  cases st.pages[va]? with
  | none => simp
  | some page => simp

theorem entry_user {st : Loader} (valid : ∀ s ∈ loadSegments image, s.Valid image)
    (filled : populateSegments image (loadSegments image) ⟨∅, m⟩ = (.ok (), st))
    {entry : Nat × Page} (member : entry ∈ st.pages.toList) :
    entry.1 < loadMax ∧ UserPage (BitVec.ofNat 64 entry.1) ∧
      (BitVec.ofNat 64 entry.1).toNat = entry.1 := by
  have found := Std.TreeMap.mem_toList_iff_getElem?_eq_some.mp member
  obtain ⟨whole, s, known, touches, -⟩ :=
    (pages_iff valid filled mark_present entry.1).mp ⟨entry.2, found, rfl⟩
  have high := (valid s known).high
  unfold Segment.Touches at touches
  unfold loadMax at high ⊢
  have value : (BitVec.ofNat 64 entry.1).toNat = entry.1 := by
    rw [BitVec.toNat_ofNat]
    omega
  refine ⟨by omega, ?_, value⟩
  rw [UserPage, value]
  omega

theorem entries_apart {st : Loader} (valid : ∀ s ∈ loadSegments image, s.Valid image)
    (filled : populateSegments image (loadSegments image) ⟨∅, m⟩ = (.ok (), st)) :
    st.pages.toList.Pairwise fun a b => BitVec.ofNat 64 a.1 ≠ BitVec.ofNat 64 b.1 := by
  have keys : st.pages.toList.Pairwise fun a b =>
      ¬ compare a.1 b.1 = .eq := Std.TreeMap.distinct_keys_toList
  refine List.Pairwise.imp_of_mem ?_ keys
  intro a b one two distinct equal
  have values := congrArg BitVec.toNat equal
  rw [(entry_user valid filled one).2.2, (entry_user valid filled two).2.2] at values
  rw [values] at distinct
  exact distinct Std.ReflCmp.compare_self

theorem Fresh.untouched {middle : System} (fresh : Fresh sys.view space)
    (same : Untouched sys middle) (alive : space ∈ sys.spaces) : Fresh middle.view space := by
  intro i below
  rw [same.sameOwn space alive i (ownTable_root _ _)]
  exact fresh i below

theorem load_accepted {entry : Nat} (inv : Inv sys) (alive : space ∈ sys.spaces)
    (fresh : Fresh sys.view space) (loaded : load image space sys.machine = some (.ok entry, m)) :
    Lib.Returns (parse image) (entry, loadSegments image) ∧
      ∃ st later, later.machine = m ∧ Loaded image space sys st later := by
  obtain ⟨parsed, accepted, rest⟩ := Option.bind_eq_some_iff.mp loaded
  cases parsed with
  | error e => cases rest
  | ok parsed =>
    obtain ⟨start, segments⟩ := parsed
    have returns : Lib.Returns (parse image) (start, segments) := accepted
    obtain ⟨rfl, valid, -, -⟩ := parse_returns returns
    dsimp only at rest
    split at rest
    case h_1 => cases rest
    case h_2 st populated =>
    obtain ⟨last, mapped, equal⟩ := Option.map_eq_some_iff.mp rest
    cases equal
    refine ⟨returns, st, ?_⟩
    have building := populate_building (building_start sys) populated
    obtain ⟨filled, exclusive⟩ := populate_ok populated
    have user := fun {entry : Nat × Page}
      (member : entry ∈ st.pages.toList) => entry_user valid filled member
    obtain ⟨middle, run, machine, held⟩ := id building
    have same := run.untouched inv
    have middleAlive : space ∈ middle.spaces := same.spaces.symm ▸ alive
    have middleFresh := Fresh.untouched fresh same alive
    rw [← machine] at mapped
    obtain ⟨later, rfl, maps⟩ := mapPages_maps same.inv middleAlive
      middleFresh.linked held (fun _ member => (user member).2.1)
      (entries_apart valid filled) mapped
    refine ⟨later, rfl, building, filled, exclusive, maps.inv,
      maps.spaces.symm ▸ middleAlive, maps.linked, ?_, ?_⟩
    · intro virt low
      obtain ⟨whole, way⟩ := page_of low
      rw [← leafOf_congr way]
      cases found : st.pages[alignDown virt.toNat]? with
      | some page =>
        exact maps.here (alignDown virt.toNat, page)
          (Std.TreeMap.mem_toList_iff_getElem?_eq_some.mpr found)
      | none =>
        rw [maps.elsewhere _ whole, middleFresh.leafOf_none whole.1]
        · rfl
        · intro entry member equal
          have values := congrArg BitVec.toNat equal
          have value : (BitVec.ofNat 64 (alignDown virt.toNat)).toNat =
              alignDown virt.toNat := by
            rw [BitVec.toNat_ofNat]
            unfold alignDown pageSize
            omega
          rw [(user member).2.2, value] at values
          have there := Std.TreeMap.mem_toList_iff_getElem?_eq_some.mp member
          rw [values, found] at there
          cases there
    · intro va page found k below
      rw [maps.bytes page.phys _ ?_ ⟨Nat.le_add_right _ _, ?_⟩, machine]
      · exact .inl (held.mem_iff.mpr (List.mem_append_left _ (Loader.mem_frames found)))
      · omega

section

variable {st : Loader} {virt phys : BitVec 64}
  (loaded : Loaded image space sys st later) (inv : Inv sys)
  (low : virt.toNat < 2 ^ 47)

include loaded inv

theorem Loaded.lent {va : Nat} {page : Page} (found : st.pages[va]? = some page) :
    page.phys &&& addrMask = page.phys :=
  (loaded.building.lent inv found).masked

include low

theorem Loaded.walk_eq : walk later.view space virt =
    (st.pages[alignDown virt.toNat]?).map fun page =>
      page.phys + (virt &&& 0xfff#64) := by
  rw [walk_leafOf (loaded.inv.wf loaded.alive), loaded.leaves virt low]
  cases found : st.pages[alignDown virt.toNat]? with
  | none => rfl
  | some page =>
    have masked := loaded.lent inv found
    have mapped : has page.leaf present = true := by
      rw [Page.leaf, has_or]
      simp [show has present present = true by decide]
    rw [Option.map_some, Option.map_some, Option.bind_some]
    simp only [decode, mapped, if_true]
    rw [Page.leaf_addr masked]

theorem Loaded.byte (valid : ∀ s ∈ loadSegments image, s.Valid image)
    (mapped : walk later.view space virt = some phys) :
    later.machine.mem phys.toNat = contents image (loadSegments image) (fun _ => 0) virt.toNat := by
  rw [loaded.walk_eq inv low] at mapped
  obtain ⟨page, found, rfl⟩ := Option.map_eq_some_iff.mp mapped
  have bound := (toNat_of_addrMask (loaded.lent inv found)).1
  have address : (page.phys + (virt &&& 0xfff#64)).toNat = page.phys.toNat + virt.toNat % 4096 := by
    rw [BitVec.toNat_add, offset4k_val]
    omega
  have place : alignDown virt.toNat + virt.toNat % 4096 = virt.toNat := by
    unfold alignDown pageSize
    omega
  have holds := populateSegments_holds (building_start sys) inv
    (holds_start sys.machine) valid loaded.filled
  have small : virt.toNat % 4096 < 4096 := Nat.mod_lt _ (by omega)
  rw [address, loaded.bytes _ page found _ small, holds.bytes _ page found _ small, place]

omit inv in
theorem Loaded.grants_iff (valid : ∀ s ∈ loadSegments image, s.Valid image)
    {allows : BitVec 64 → Bool} {o : Page → Bool} {q : Segment → Bool} (mark : Mark o q)
    (links : ∀ u, u &&& addrMask = u → allows (linkEntry u) = true)
    (mapped : ∀ entry, allows entry = true → has entry present = true)
    (leaf : ∀ (va : Nat) (page : Page), st.pages[va]? = some page → allows page.leaf = o page) :
    Grants allows later.view space virt ↔
      ∃ s ∈ loadSegments image, s.Touches (alignDown virt.toNat) ∧
        q s = true := by
  have wf := loaded.inv.wf loaded.alive
  have free := (loaded.inv.space space loaded.alive).hugeFree
  have whole : alignDown virt.toNat % 4096 = 0 := by
    unfold alignDown pageSize
    omega
  rw [loaded.linked.grants_iff wf free low links mapped, loaded.leaves virt low]
  refine Iff.trans ?_ ((pages_iff valid loaded.filled mark _).trans (and_iff_right whole))
  constructor
  · rintro ⟨entry, found, allowed⟩
    obtain ⟨page, there, equal⟩ := Option.map_eq_some_iff.mp found
    cases equal
    exact ⟨page, there, (leaf _ page there).symm.trans allowed⟩
  · rintro ⟨page, there, marked⟩
    exact ⟨page.leaf, by rw [there]; rfl, (leaf _ page there).trans marked⟩

end

/-- An address space holds the image as its headers describe it. -/
structure Describes (image : List UInt8) (m : Machine) (space : BitVec 64)
    (entry : Nat) : Prop where
  /-- A user page is mapped iff it meets a segment. -/
  mapped : ∀ virt, virt.toNat < 2 ^ 47 →
    ((AddressSpace.translate m.view space virt).isSome = true ↔
      ∃ s ∈ loadSegments image, s.Touches (alignDown virt.toNat))
  /-- A segment is its part of the file, and then zeros. -/
  segment : ∀ s ∈ loadSegments image, ∀ i < s.memsz, ∃ phys,
    AddressSpace.translate m.view space (BitVec.ofNat 64 (s.vaddr + i)) =
        some phys ∧
      some (m.mem phys.toNat) =
        if i < s.filesz then image[s.offset + i]? else some 0
  /-- The rest of a page is zero. -/
  outside : ∀ virt phys, virt.toNat < 2 ^ 47 →
    AddressSpace.translate m.view space virt = some phys →
    (∀ s ∈ loadSegments image,
      ¬ (s.vaddr ≤ virt.toNat ∧ virt.toNat < s.finish)) →
      m.mem phys.toNat = 0
  writable : ∀ virt, virt.toNat < 2 ^ 47 →
    (Writable m.view space virt ↔ ∃ s ∈ loadSegments image,
      s.Touches (alignDown virt.toNat) ∧ s.writable = true)
  executable : ∀ virt, virt.toNat < 2 ^ 47 →
    (Executable m.view space virt ↔ ∃ s ∈ loadSegments image,
      s.Touches (alignDown virt.toNat) ∧ s.executable = true)
  exclusive : ∀ virt, virt.toNat < 2 ^ 47 →
    ¬ (Writable m.view space virt ∧ Executable m.view space virt)
  entry : entry < 2 ^ 47 ∧ Executable m.view space (BitVec.ofNat 64 entry)

/-- Loading a file into a fresh address space, where it succeeds, makes the
image its headers describe. -/
theorem load_describes {map : Physical.MemoryMap} {entry : Nat}
    (reachable : Spaces.Reachable map sys) (alive : space ∈ sys.spaces)
    (fresh : Fresh sys.view space) (ok : load image space sys.machine = some (.ok entry, m)) :
    Describes image m space entry := by
  have inv := reachable.inv
  obtain ⟨returns, st, later, rfl, loaded⟩ := load_accepted inv alive fresh ok
  obtain ⟨-, valid, apart, s, known, executable, first, last⟩ :=
    parse_returns returns
  have below : ∀ s ∈ loadSegments image, s.finish < 2 ^ 47 := by
    intro s member
    have high := (valid s member).high
    unfold loadMax at high
    omega
  have value : ∀ a < 2 ^ 47, (BitVec.ofNat 64 a).toNat = a := by
    intro a small
    rw [BitVec.toNat_ofNat]
    omega
  have masked : ∀ {va : Nat} {page : Page}, st.pages[va]? = some page →
      page.phys &&& addrMask = page.phys := loaded.lent inv
  have writable : ∀ virt : BitVec 64, virt.toNat < 2 ^ 47 →
      (Writable later.machine.view space virt ↔ ∃ s ∈ loadSegments image,
        s.Touches (alignDown virt.toNat) ∧ s.writable = true) := by
    intro virt low
    refine loaded.grants_iff low valid mark_writable (fun u masked => (linkEntry_allows masked).1)
      (fun entry all => has_of_hasAll all (by decide) (by decide)) ?_
    intro va page found
    have one := loaded.exclusive va page found
    rw [Page.leaf_writable (masked found)]
    revert one
    cases page.writable <;> cases page.executable <;> decide
  have executes : ∀ virt : BitVec 64, virt.toNat < 2 ^ 47 →
      (Executable later.machine.view space virt ↔ ∃ s ∈ loadSegments image,
        s.Touches (alignDown virt.toNat) ∧ s.executable = true) := by
    intro virt low
    refine loaded.grants_iff low valid mark_executable
      (fun u masked => (linkEntry_allows masked).2) (fun entry all => ?_) ?_
    · exact has_of_hasAll ((Bool.and_eq_true _ _).mp all).1 (by decide) (by decide)
    · intro va page found
      have one := loaded.exclusive va page found
      rw [Page.leaf_executable (masked found)]
      revert one
      cases page.writable <;> cases page.executable <;> decide
  refine ⟨?_, ?_, ?_, writable, executes, ?_, ?_⟩
  · intro virt low
    change (walk later.view space virt).isSome = true ↔ _
    rw [loaded.walk_eq inv low, Option.isSome_map, Option.isSome_iff_exists]
    have whole : alignDown virt.toNat % 4096 = 0 := by
      unfold alignDown pageSize
      omega
    have pages := (pages_iff valid loaded.filled mark_present
      (alignDown virt.toNat)).trans (and_iff_right whole)
    simpa using pages
  · intro s member i inside
    have high := below s member
    have place : s.vaddr + i < 2 ^ 47 := by
      unfold Segment.finish at high
      omega
    have number := value _ place
    have low : (BitVec.ofNat 64 (s.vaddr + i)).toNat < 2 ^ 47 := by
      rw [number]
      exact place
    have touched := alignDown_touched (Nat.le_add_right s.vaddr i)
      (show s.vaddr + i < s.finish by unfold Segment.finish; omega)
    obtain ⟨page, found, -⟩ := (pages_iff valid loaded.filled mark_present
      (alignDown (s.vaddr + i))).mpr ⟨touched.1, s, member, touched.2, rfl⟩
    have mapped := loaded.walk_eq inv low
    rw [number, found, Option.map_some] at mapped
    refine ⟨_, mapped, ?_⟩
    rw [loaded.byte inv low valid mapped, number, contents_inside valid apart member inside]
    split
    case isTrue filled =>
      have inFile := (valid s member).inFile
      rw [List.getD_eq_getElem?_getD, List.getElem?_eq_getElem (by omega)]
      rfl
    case isFalse => rfl
  · intro virt phys low mapped outside
    rw [loaded.byte inv low valid mapped, contents_outside]
    intro s member inside
    refine outside s member ⟨inside.1, ?_⟩
    have within := (valid s member).filesz
    unfold Segment.finish
    omega
  · rintro virt low ⟨writes, runs⟩
    have whole : alignDown virt.toNat % 4096 = 0 := by
      unfold alignDown pageSize
      omega
    obtain ⟨one, found, writes⟩ := (pages_iff valid loaded.filled mark_writable
      _).mpr ⟨whole, (writable virt low).mp writes⟩
    obtain ⟨two, same, runs⟩ := (pages_iff valid loaded.filled mark_executable
      _).mpr ⟨whole, (executes virt low).mp runs⟩
    cases found.symm.trans same
    exact loaded.exclusive _ one found ⟨writes, runs⟩
  · have high := below s known
    refine ⟨by omega, ?_⟩
    have number := value entry (by omega)
    rw [executes _ (by rw [number]; omega), number]
    exact ⟨s, known, (alignDown_touched first last).2, executable⟩

/-- Two pages, of which the first four bytes are in the file. -/
theorem sample_load_describes :
    ∃ (sys : System) (m : Machine), sys.spaces = [0x105000] ∧
      load (makeTestElf 0x400000 0x400000 4 0x2000 5) 0x105000 sys.machine =
        some (.ok 0x400000, m) ∧
      Describes (makeTestElf 0x400000 0x400000 4 0x2000 5) m 0x105000
        0x400000 := by
  have evaluated : (sampleStart.map fun start =>
      (start.spaces, start.create.spaces, (load (makeTestElf 0x400000 0x400000 4 0x2000 5) 0x105000
        start.create.machine).map Prod.fst)) =
      some ([], [0x105000], some (.ok 0x400000)) := by decide +kernel
  obtain ⟨start, started, facts⟩ := Option.map_eq_some_iff.mp evaluated
  simp only [Prod.mk.injEq] at facts
  obtain ⟨before, spaces, outcome⟩ := facts
  obtain ⟨⟨result, m⟩, loaded, same⟩ := Option.map_eq_some_iff.mp outcome
  cases same
  have first : Spaces.Reachable Physical.sampleMap start :=
    Lib.Reachable.start (sampleStart_initial started)
  have reachable : Spaces.Reachable Physical.sampleMap start.create :=
    Lib.Reachable.next first ⟨.create, rfl⟩
  have fresh : Fresh start.create.view 0x105000 :=
    first.inv.create_fresh (by rw [spaces, before])
  exact ⟨start.create, m, spaces, loaded, load_describes reachable
    (by rw [spaces]; exact List.mem_cons_self) fresh loaded⟩

end

end Eonos.Elf
