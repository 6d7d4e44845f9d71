import Eonos.Physical.Supply
import Eonos.Vmm.Descent

/-!
# Page tables on top of the frame allocator

A machine is its memory together with the frame allocator.  The page-table code
only ever allocates, so each of its operations runs on the list of frames the
allocator will hand out next; `after` brings the allocator up to date with what
the operation took.
-/

namespace Eonos.Spaces

open Eonos.Vmm

/-- The number of a frame, as the allocator counts. -/
def frameNo (frame : BitVec 64) : Nat := frame.toNat / 4096

structure Machine where
  mem : Memory
  frames : Physical.State

namespace Machine

def pool (m : Machine) : List (BitVec 64) :=
  m.frames.supply.map (BitVec.ofNat 64)

/-- What the page-table code sees of a machine. -/
def view (m : Machine) : Vmm.State := ⟨m.mem, m.pool⟩

/-- The machine after the page-table code has reached `s`. -/
def after (m : Machine) (s : Vmm.State) : Machine :=
  ⟨s.mem, m.frames.drain (m.pool.length - s.pool.length)⟩

/-- `pmm::alloc_frame`. -/
def allocFrame (m : Machine) : Option (BitVec 64 × Machine) :=
  m.frames.allocFrame.map fun result =>
    (BitVec.ofNat 64 result.1, { m with frames := result.2 })

/-- `pmm::alloc_frame_zeroed`. -/
def allocFrameZeroed (m : Machine) : Option (BitVec 64 × Machine) :=
  m.allocFrame.map fun result =>
    (result.1, { result.2 with mem := zeroFrame result.2.mem result.1 })

/-- `pmm::alloc_contiguous`. -/
def allocContiguous (m : Machine) (count : Nat) : Option (List (BitVec 64) × Machine) :=
  (Physical.allocContiguous m.frames.pmm count).map fun result =>
    ((List.range count).map fun i => BitVec.ofNat 64 (result.1 + i * 4096),
      { m with
        frames :=
          { m.frames with
            pmm := result.2
            loans := m.frames.loans ∪
              Physical.rangeFrames result.1 count } })

/-- `pmm::reclaim_bootloader_memory`. -/
def reclaim (m : Machine) : Machine :=
  { m with
    frames :=
      { m.frames with
        pmm := (Physical.reclaimBootloaderMemory m.frames.pmm).2
        reclaimed := true } }

/-- `pmm::free_frame`. -/
def freeFrame (m : Machine) (frame : BitVec 64) : Machine :=
  { m with frames := m.frames.freeFrame frame.toNat }

/-- The allocator is in order and all memory is within the processor's reach. -/
structure Sound (m : Machine) : Prop where
  frames : Physical.Inv m.frames
  small : m.frames.pmm.totalFrames ≤ 2 ^ 40

/-- A whole frame on loan. -/
structure Lent (m : Machine) (frame : BitVec 64) : Prop where
  masked : frame &&& addrMask = frame
  loan : frameNo frame ∈ m.frames.loans

end Machine

theorem frameNo_inj {first second : BitVec 64}
    (one : first &&& addrMask = first) (two : second &&& addrMask = second)
    (same : frameNo first = frameNo second) : first = second := by
  have left := (toNat_of_addrMask one).2
  have right := (toNat_of_addrMask two).2
  apply BitVec.eq_of_toNat_eq
  unfold frameNo at same
  omega

namespace Machine

variable {m : Machine}

/-- A frame the allocator knows has a 52-bit address. -/
theorem Sound.address (sound : m.Sound) {phys : Nat}
    (clear : phys / 4096 ∈ Physical.clearFrames m.frames.pmm.bitmap) : phys < 2 ^ 52 := by
  have below : phys / 4096 < m.frames.pmm.totalFrames := by
    by_contra above
    exact sound.frames.high _ (Nat.le_of_not_lt above) clear
  have small := sound.small
  omega

theorem Sound.supply_lt (sound : m.Sound) {phys : Nat}
    (member : phys ∈ m.frames.supply) : phys < 2 ^ 52 :=
  sound.address ((sound.frames.supply_spec.2.2 phys).mp member).2

theorem Sound.pool_nodup (sound : m.Sound) : m.pool.Nodup := by
  refine List.Nodup.map_on ?_ sound.frames.supply_spec.1
  intro first one second two same
  have left := sound.supply_lt one
  have right := sound.supply_lt two
  have values := congrArg BitVec.toNat same
  rw [BitVec.toNat_ofNat, BitVec.toNat_ofNat] at values
  omega

theorem Sound.pool_spec (sound : m.Sound) {frame : BitVec 64} (member : frame ∈ m.pool) :
    frame &&& addrMask = frame ∧ frameNo frame ∈ Physical.clearFrames m.frames.pmm.bitmap := by
  obtain ⟨phys, inside, rfl⟩ := List.mem_map.mp member
  obtain ⟨aligned, clear⟩ := (sound.frames.supply_spec.2.2 phys).mp inside
  have bound := sound.supply_lt inside
  have value : (BitVec.ofNat 64 phys).toNat = phys := by
    rw [BitVec.toNat_ofNat]
    omega
  refine ⟨and_addrMask_of_aligned (by omega) (by rw [value]; exact aligned), ?_⟩
  rw [frameNo, value]
  exact clear

theorem Sound.pool_not_lent (sound : m.Sound) {frame : BitVec 64}
    (member : frame ∈ m.pool) : ¬ m.Lent frame := by
  intro lent
  exact (sound.frames.lent _ lent.loan).2 (sound.pool_spec member).2

/-- The allocator lends nothing below 1 MiB. -/
theorem Sound.lent_ne_zero (sound : m.Sound) {frame : BitVec 64}
    (lent : m.Lent frame) : frame ≠ 0 := by
  rintro rfl
  have low : ∀ kind, ¬ Physical.Released kind m.frames.pmm.regions (frameNo 0) := by
    rintro kind ⟨r, -, -, inside⟩
    have high := (Physical.Region.page_inside_of_mem_frames inside).1
    exact absurd high (by decide)
  rcases (sound.frames.lent _ lent.loan).1 with ⟨usable, -⟩ | ⟨-, loaded⟩
  · exact low _ usable
  · exact low _ loaded

theorem pool_length (m : Machine) :
    m.pool.length = m.frames.supply.length := List.length_map _

/-! ### After a page-table operation -/

variable {s : Vmm.State} {used : List (BitVec 64)}

theorem Sound.after (sound : m.Sound) (taken : m.pool = used ++ s.pool) :
    (m.after s).Sound ∧ (m.after s).view = s ∧
      ∀ f, f ∈ (m.after s).frames.loans ↔
        f ∈ m.frames.loans ∨ ∃ frame ∈ used, frameNo frame = f := by
  have count : m.pool.length - s.pool.length = used.length := by
    rw [taken, List.length_append, Nat.add_sub_cancel]
  have enough : used.length ≤ m.frames.supply.length := by
    rw [← pool_length, taken, List.length_append]
    exact Nat.le_add_right _ _
  obtain ⟨inv, left, loans, total⟩ := sound.frames.drain_spec enough
  refine ⟨⟨?_, ?_⟩, ?_, ?_⟩
  · rw [Machine.after, count]
    exact inv
  · rw [Machine.after, count]
    exact total ▸ sound.small
  · have pool : (m.after s).pool = s.pool := by
      rw [Machine.pool, Machine.after, count]
      dsimp only
      rw [left, List.map_drop]
      change m.pool.drop used.length = s.pool
      rw [taken, List.drop_left]
    rw [Machine.view, pool]
    rfl
  · intro f
    rw [Machine.after, count, loans]
    have front : used = (m.frames.supply.take used.length).map (BitVec.ofNat 64) := by
      rw [List.map_take]
      change used = m.pool.take used.length
      rw [taken, List.take_left]
    refine or_congr Iff.rfl ?_
    constructor
    · rintro ⟨phys, member, rfl⟩
      refine ⟨BitVec.ofNat 64 phys, ?_, ?_⟩
      · rw [front]
        exact List.mem_map_of_mem member
      · have bound := sound.supply_lt (List.mem_of_mem_take member)
        rw [frameNo, BitVec.toNat_ofNat]
        exact congrArg (· / 4096) (Nat.mod_eq_of_lt (by omega))
    · rintro ⟨frame, member, rfl⟩
      rw [front] at member
      obtain ⟨phys, inside, rfl⟩ := List.mem_map.mp member
      refine ⟨phys, inside, ?_⟩
      have bound := sound.supply_lt (List.mem_of_mem_take inside)
      rw [frameNo, BitVec.toNat_ofNat]
      exact congrArg (· / 4096) (Nat.mod_eq_of_lt (by omega)).symm

theorem Sound.lent_after (sound : m.Sound) (taken : m.pool = used ++ s.pool) {frame : BitVec 64} :
    (m.after s).Lent frame ↔ m.Lent frame ∨ frame ∈ used := by
  have loans := (sound.after taken).2.2
  constructor
  · rintro ⟨masked, loan⟩
    rcases (loans _).mp loan with old | ⟨other, member, same⟩
    · exact .inl ⟨masked, old⟩
    · refine .inr ?_
      have inPool : other ∈ m.pool := by
        rw [taken]
        exact List.mem_append_left _ member
      rw [← frameNo_inj (sound.pool_spec inPool).1 masked same]
      exact member
  · rintro (old | member)
    · exact ⟨old.masked, (loans _).mpr (.inl old.loan)⟩
    · have inPool : frame ∈ m.pool := by
        rw [taken]
        exact List.mem_append_left _ member
      exact ⟨(sound.pool_spec inPool).1, (loans _).mpr (.inr ⟨frame, member, rfl⟩)⟩

/-! ### Allocating and freeing one frame -/

variable {later : Machine} {frame : BitVec 64}

/-- What a successful allocation does. -/
structure Takes (m later : Machine) (frame : BitVec 64) : Prop where
  sound : later.Sound
  pool : m.pool = frame :: later.pool
  lent : ∀ {other}, later.Lent other ↔ m.Lent other ∨ other = frame

theorem Sound.allocFrame (sound : m.Sound) (result : m.allocFrame = some (frame, later)) :
    Takes m later frame ∧ later.mem = m.mem := by
  obtain ⟨⟨phys, rest⟩, granted, equal⟩ := Option.map_eq_some_iff.mp result
  cases equal
  have taken := sound.frames.taken granted
  have pool : m.pool = BitVec.ofNat 64 phys :: Machine.pool ⟨m.mem, rest⟩ := by
    rw [Machine.pool, Physical.supply_some sound.frames granted, List.map_cons]
    rfl
  have bound := sound.address taken.clear
  have number : frameNo (BitVec.ofNat 64 phys) = phys / 4096 := by
    rw [frameNo, BitVec.toNat_ofNat]
    exact congrArg (· / 4096) (Nat.mod_eq_of_lt (by omega))
  have inPool : BitVec.ofNat 64 phys ∈ m.pool := by
    rw [pool]
    exact List.mem_cons_self
  have masked := (sound.pool_spec inPool).1
  refine ⟨⟨⟨taken.inv, taken.totalFrames ▸ sound.small⟩, pool, ?_⟩, rfl⟩
  intro other
  have loans : rest.loans = insert (phys / 4096) m.frames.loans := taken.loans
  constructor
  · rintro ⟨otherMasked, loan⟩
    rw [loans, Finset.mem_insert] at loan
    rcases loan with same | old
    · exact .inr (frameNo_inj otherMasked masked (same.trans number.symm))
    · exact .inl ⟨otherMasked, old⟩
  · rintro (old | rfl)
    · refine ⟨old.masked, ?_⟩
      rw [loans]
      exact Finset.mem_insert_of_mem old.loan
    · refine ⟨masked, ?_⟩
      rw [loans, number]
      exact Finset.mem_insert_self _ _

/-- Writing to memory afterwards makes no difference to the allocator. -/
theorem Takes.with_mem (takes : Takes m later frame) (mem : Memory) :
    Takes m { later with mem := mem } frame := by
  refine ⟨⟨takes.sound.frames, takes.sound.small⟩, takes.pool, ?_⟩
  intro other
  rw [← takes.lent]
  exact ⟨fun ⟨masked, loan⟩ => ⟨masked, loan⟩, fun ⟨masked, loan⟩ => ⟨masked, loan⟩⟩

theorem Sound.allocFrameZeroed (sound : m.Sound)
    (result : m.allocFrameZeroed = some (frame, later)) :
    Takes m later frame ∧ later.mem = zeroFrame m.mem frame := by
  obtain ⟨⟨found, rest⟩, granted, equal⟩ := Option.map_eq_some_iff.mp result
  cases equal
  obtain ⟨takes, mem⟩ := sound.allocFrame granted
  refine ⟨takes.with_mem _, ?_⟩
  dsimp only
  rw [mem]

/-- Frames that go on loan while memory stays as it is. -/
structure Lends (m later : Machine) (frames : List (BitVec 64)) : Prop where
  sound : later.Sound
  mem : later.mem = m.mem
  nodup : frames.Nodup
  fresh : ∀ f ∈ frames, ¬ m.Lent f
  lent : ∀ {f}, later.Lent f ↔ m.Lent f ∨ f ∈ frames

theorem Sound.allocFrame_lends (sound : m.Sound) (result : m.allocFrame = some (frame, later)) :
    Lends m later [frame] := by
  obtain ⟨takes, mem⟩ := sound.allocFrame result
  refine ⟨takes.sound, mem, List.nodup_singleton _, ?_, ?_⟩
  · intro f fresh
    rw [List.mem_singleton.mp fresh]
    refine sound.pool_not_lent ?_
    rw [takes.pool]
    exact List.mem_cons_self
  · intro f
    rw [List.mem_singleton]
    exact takes.lent

theorem Sound.reclaim_lends (sound : m.Sound)
    (first : m.frames.reclaimed = false) : Lends m m.reclaim [] := by
  refine ⟨⟨sound.frames.reclaim first, sound.small⟩, rfl, List.nodup_nil,
    fun f fresh => absurd fresh List.not_mem_nil, ?_⟩
  intro f
  constructor
  · rintro ⟨masked, loan⟩
    exact .inl ⟨masked, loan⟩
  · rintro (⟨masked, loan⟩ | fresh)
    · exact ⟨masked, loan⟩
    · cases fresh

theorem Sound.allocContiguous_lends (sound : m.Sound) {count : Nat} {frames : List (BitVec 64)}
    (result : m.allocContiguous count = some (frames, later)) : Lends m later frames := by
  obtain ⟨⟨phys, p⟩, granted, equal⟩ := Option.map_eq_some_iff.mp result
  cases equal
  have inv := sound.frames
  have fits : m.frames.pmm.totalFrames ≤ 64 * m.frames.pmm.bitmap.length := by
    rw [inv.layout.words]
    exact inv.layout.fits
  have takes := Physical.allocContiguous_takes inv.layout.words fits granted
  have aligned : phys % 4096 = 0 := takes.aligned
  have clear : ∀ i < count, phys / 4096 + i ∈ Physical.clearFrames m.frames.pmm.bitmap := by
    intro i below
    exact takes.clear (Finset.mem_Ico.mpr ⟨Nat.le_add_right _ _, Nat.add_lt_add_left below _⟩)
  have number : ∀ i, (phys + i * 4096) / 4096 = phys / 4096 + i :=
    fun i => Nat.add_mul_div_right phys i (by decide)
  have address : ∀ i < count, phys + i * 4096 < 2 ^ 52 := by
    intro i below
    refine sound.address ?_
    rw [number]
    exact clear i below
  have value : ∀ i < count, (BitVec.ofNat 64 (phys + i * 4096)).toNat = phys + i * 4096 := by
    intro i below
    have small := address i below
    rw [BitVec.toNat_ofNat]
    exact Nat.mod_eq_of_lt (by omega)
  have frameNumber : ∀ i < count,
      frameNo (BitVec.ofNat 64 (phys + i * 4096)) = phys / 4096 + i := by
    intro i below
    rw [frameNo, value i below, number]
  have masked : ∀ i < count, BitVec.ofNat 64 (phys + i * 4096) &&& addrMask =
      BitVec.ofNat 64 (phys + i * 4096) := by
    intro i below
    refine and_addrMask_of_aligned ?_ ?_
    · rw [value i below]
      exact address i below
    · rw [value i below]
      omega
  refine ⟨⟨inv.takes takes, ?_⟩, rfl, ?_, ?_, ?_⟩
  · exact takes.layout.totalFrames ▸ sound.small
  · refine List.Nodup.map_on ?_ List.nodup_range
    intro i one j two same
    have left := frameNumber i (List.mem_range.mp one)
    have right := frameNumber j (List.mem_range.mp two)
    have equal := left.symm.trans ((congrArg frameNo same).trans right)
    omega
  · intro f fresh lent
    obtain ⟨i, inside, rfl⟩ := List.mem_map.mp fresh
    have below := List.mem_range.mp inside
    refine (inv.lent _ lent.loan).2 ?_
    rw [frameNumber i below]
    exact clear i below
  · intro f
    constructor
    · rintro ⟨whole, loan⟩
      rcases Finset.mem_union.mp loan with old | taken
      · exact .inl ⟨whole, old⟩
      · obtain ⟨above, below⟩ := Finset.mem_Ico.mp taken
        change phys / 4096 ≤ frameNo f at above
        change frameNo f < phys / 4096 + count at below
        have offset : frameNo f - phys / 4096 < count := by omega
        refine .inr (List.mem_map.mpr ⟨frameNo f - phys / 4096, List.mem_range.mpr offset, ?_⟩)
        refine frameNo_inj (masked _ offset) whole ?_
        rw [frameNumber _ offset]
        omega
    · rintro (⟨whole, loan⟩ | fresh)
      · exact ⟨whole, Finset.mem_union_left _ loan⟩
      · obtain ⟨i, inside, rfl⟩ := List.mem_map.mp fresh
        have below := List.mem_range.mp inside
        refine ⟨masked i below, Finset.mem_union_right _ ?_⟩
        rw [frameNumber i below]
        exact Finset.mem_Ico.mpr ⟨Nat.le_add_right _ _, Nat.add_lt_add_left below _⟩

/-- A frame on loan is taken back. -/
theorem Sound.freeFrame (sound : m.Sound) (lent : m.Lent frame) :
    (m.freeFrame frame).Sound ∧
      (m.frames.pmm.free frame.toNat 1).1 = .ok () ∧
      ∀ {other}, (m.freeFrame frame).Lent other ↔
        m.Lent other ∧ other ≠ frame := by
  have aligned := (toNat_of_addrMask lent.masked).2
  have small := sound.small
  have freed := sound.frames.freed_one (by omega) aligned lent.loan
  refine ⟨⟨freed.inv, ?_⟩, freed.accepted, ?_⟩
  · exact freed.totalFrames ▸ sound.small
  · intro other
    have loans : (m.freeFrame frame).frames.loans =
        m.frames.loans.erase (frameNo frame) := freed.loans
    constructor
    · rintro ⟨masked, loan⟩
      rw [loans, Finset.mem_erase] at loan
      refine ⟨⟨masked, loan.2⟩, ?_⟩
      rintro rfl
      exact loan.1 rfl
    · rintro ⟨old, distinct⟩
      refine ⟨old.masked, ?_⟩
      rw [loans, Finset.mem_erase]
      refine ⟨?_, old.loan⟩
      intro same
      exact distinct (frameNo_inj old.masked lent.masked same)

end Machine

end Eonos.Spaces
