import Eonos.Vmm.Tree

/-!
# The operations on page tables

Each step on the way down leaves every translation as it is and ends in the
table the caller asked for.
-/

namespace Eonos.Vmm

open Eonos.Lib.TableTree

section

variable {root : BitVec 64} {s later : State}

/-! ### Linking -/

theorem allocFrameZeroed_some {frame : BitVec 64}
    (taken : allocFrameZeroed s = some (frame, later)) :
    s.pool = frame :: later.pool ∧ later.mem = zeroFrame s.mem frame := by
  unfold allocFrameZeroed at taken
  split at taken
  case h_1 => cases taken
  case h_2 head pool shape =>
    cases taken
    exact ⟨shape, rfl⟩

theorem allocFrameZeroed_total (left : 0 < s.pool.length) :
    ∃ frame later, allocFrameZeroed s = some (frame, later) := by
  unfold allocFrameZeroed
  cases shape : s.pool with
  | nil => simp [shape] at left
  | cons frame pool => exact ⟨_, _, rfl⟩

variable {path : List (Fin 512)} {t fresh u virt pd pdpt : BitVec 64}
  {i : Fin 512} {pool : List (BitVec 64)} {cost : Nat}
  {result : Option (BitVec 64) × State}

theorem Wf.links (wf : Wf root s) {m : Memory} {contents : Fin 512 → BitVec 64}
    (reached : s.tableAt root path = some t) (shape : s.pool = fresh :: pool)
    (filled : ∀ j, readEntry m fresh j = contents j)
    (same : ∀ {u} j, Frame u → u ≠ fresh → readEntry m u j = readEntry s.mem u j) :
    Links s ⟨writeEntry m t i (linkEntry fresh), pool⟩ t i fresh contents := by
  have inPool : fresh ∈ s.pool := by
    rw [shape]
    exact List.mem_cons_self
  have frame := wf.frame reached
  have freshFrame := frame_of_masked (wf.poolMasked fresh inPool)
  have distinct : fresh ≠ t := by
    rintro rfl
    exact wf.poolFresh fresh inPool path reached
  refine ⟨shape, readEntry_writeEntry _ _ _ _, ?_, ?_⟩
  · intro j
    rw [State.read, readEntry_writeEntry_ne frame freshFrame
      (fun equal => distinct equal.1), filled]
  · intro u j uFrame elsewhere other
    rw [State.read, readEntry_writeEntry_ne frame uFrame other]
    exact same j uFrame elsewhere

theorem Wf.links_zeroed (wf : Wf root s) (reached : s.tableAt root path = some t)
    (shape : s.pool = fresh :: pool) :
    Links s ⟨writeEntry (zeroFrame s.mem fresh) t i (linkEntry fresh), pool⟩
      t i fresh (fun _ => 0) := by
  have inPool : fresh ∈ s.pool := by
    rw [shape]
    exact List.mem_cons_self
  have freshFrame := frame_of_masked (wf.poolMasked fresh inPool)
  exact wf.links reached shape (fun j => readEntry_zeroFrame s.mem fresh j)
    (fun j uFrame distinct =>
      readEntry_zeroFrame_ne j freshFrame uFrame distinct)

theorem Wf.links_filled (wf : Wf root s) (contents : Fin 512 → BitVec 64)
    (reached : s.tableAt root path = some t) (shape : s.pool = fresh :: pool) :
    Links s
      ⟨writeEntry (fillTable (zeroFrame s.mem fresh) fresh contents) t i
        (linkEntry fresh), pool⟩ t i fresh contents := by
  have inPool : fresh ∈ s.pool := by
    rw [shape]
    exact List.mem_cons_self
  have freshFrame := frame_of_masked (wf.poolMasked fresh inPool)
  refine wf.links reached shape (fun j => readEntry_fillTable freshFrame j) ?_
  intro u j uFrame distinct
  rw [readEntry_fillTable_ne j freshFrame uFrame distinct,
    readEntry_zeroFrame_ne j freshFrame uFrame distinct]

/-! ### Descending one level -/

/-- The way down to `path` is open: its last table is `t`, and every address
translates as before. -/
structure Opens (root : BitVec 64) (s later : State) (path : List (Fin 512))
    (t : BitVec 64) (cost : Nat) : Prop where
  grows : Grows root s later
  reached : later.tableAt root path = some t
  pool : s.pool.length ≤ later.pool.length + cost

theorem Opens.trans {middle : State} {further : List (Fin 512)} {first second : Nat}
    (one : Opens root s middle path t first) (two : Opens root middle later further u second) :
    Opens root s later further u (first + second) :=
  ⟨one.grows.trans two.grows, two.reached, by
    have := one.pool
    have := two.pool
    omega⟩

theorem decode_absent {entry : BitVec 64} {level : Nat}
    (absent : has entry present = false) : decode virt level entry = none := by
  simp [decode, absent]

theorem childTable_cases (result : childTable s t i = some (u, later)) :
    (has (s.read t i) present = true ∧ has (s.read t i) huge = false ∧
      u = s.read t i &&& addrMask ∧ later = s) ∨
    has (s.read t i) present = false ∧ s.pool = u :: later.pool ∧
      later = ⟨writeEntry (zeroFrame s.mem u) t i (linkEntry u),
        later.pool⟩ := by
  unfold childTable at result
  dsimp only at result
  split at result
  case isTrue mapped =>
    split at result
    case isTrue => cases result
    case isFalse table =>
      cases result
      exact .inl ⟨mapped, by simpa using table, rfl, rfl⟩
  case isFalse unmapped =>
    obtain ⟨⟨fresh, zeroed⟩, taken, rest⟩ := Option.bind_eq_some_iff.mp result
    cases rest
    obtain ⟨shape, mem⟩ := allocFrameZeroed_some taken
    refine .inr ⟨by simpa using unmapped, shape, ?_⟩
    rw [State.write, mem, linkEntry]

theorem childTable_opens (wf : Wf root s) (upper : path.length < 3)
    (reached : s.tableAt root path = some t) (result : childTable s t i = some (u, later)) :
    Opens root s later (i :: path) u 1 := by
  rcases childTable_cases result with
    ⟨mapped, flat, rfl, rfl⟩ | ⟨absent, shape, linked⟩
  · refine ⟨Grows.refl wf, ?_, Nat.le_succ _⟩
    rw [State.tableAt, tableAt_cons reached, child_table upper mapped flat]
  · have links := wf.links_zeroed (i := i) reached shape
    rw [← linked] at links
    have empty : has (0 : BitVec 64) present = false := by decide
    obtain ⟨grows, here⟩ := wf.link upper reached links (child_absent absent) (fun j => child_absent
      empty) (fun virt _ => by rw [decode_absent absent, decode_absent empty])
    refine ⟨grows, here, ?_⟩
    rw [shape]
    exact Nat.le_refl _

theorem childTable_present (mapped : has (s.read t i) present = true)
    (flat : has (s.read t i) huge = false) :
    childTable s t i = some (s.read t i &&& addrMask, s) := by
  unfold childTable
  dsimp only
  rw [if_pos mapped, if_neg (by simp [flat])]

theorem childTable_total (flat : has (s.read t i) present = true → has (s.read t i) huge = false)
    (left : 0 < s.pool.length) : ∃ u later, childTable s t i = some (u, later) := by
  unfold childTable
  dsimp only
  split
  case isTrue mapped =>
    rw [if_neg (by simp [flat mapped])]
    exact ⟨_, _, rfl⟩
  case isFalse =>
    obtain ⟨frame, zeroed, taken⟩ := allocFrameZeroed_total left
    rw [taken]
    exact ⟨_, _, rfl⟩

/-! ### Splitting a huge page -/

/-- `later` is `s` with the next frame of the pool filled and linked. -/
def Split (s later : State) (t : BitVec 64) (i : Fin 512) (fresh : BitVec 64)
    (contents : Fin 512 → BitVec 64) : Prop :=
  s.pool = fresh :: later.pool ∧
    later = ⟨writeEntry (fillTable (zeroFrame s.mem fresh) fresh contents) t i
      (linkEntry fresh), later.pool⟩

theorem splitHuge_cases (result : splitHuge s pd i = some later) :
    ∃ fresh, Split s later pd i fresh (splitEntry (s.read pd i)) := by
  obtain ⟨⟨fresh, zeroed⟩, taken, rest⟩ := Option.bind_eq_some_iff.mp result
  cases rest
  obtain ⟨shape, mem⟩ := allocFrameZeroed_some taken
  refine ⟨fresh, shape, ?_⟩
  rw [State.write, mem, linkEntry]

theorem split1gHuge_cases (result : split1gHuge s pdpt i = some later) :
    ∃ fresh, Split s later pdpt i fresh (split1gEntry (s.read pdpt i)) := by
  obtain ⟨⟨fresh, zeroed⟩, taken, rest⟩ := Option.bind_eq_some_iff.mp result
  cases rest
  obtain ⟨shape, mem⟩ := allocFrameZeroed_some taken
  refine ⟨fresh, shape, ?_⟩
  rw [State.write, mem, linkEntry]

theorem decode_splitEntry (virt : BitVec 64) {entry : BitVec 64}
    (mapped : has entry present = true) : decode virt 2 entry =
      decode virt 3 (splitEntry entry (index virt 3)) := by
  have kept := splitEntry_present (index virt 3) mapped
  simp only [decode, mapped, kept, if_true]
  rw [splitEntry_addr, BitVec.add_assoc, offset2m_split]

theorem decode_split1gEntry (virt : BitVec 64) {entry : BitVec 64}
    (mapped : has entry present = true) :
    decode virt 1 entry = decode virt 2 (split1gEntry entry (index virt 2)) := by
  have kept := split1gEntry_present entry (index virt 2)
  simp only [decode, mapped, kept, if_true]
  rw [split1gEntry_addr, BitVec.add_assoc, offset1g_split]

theorem Wf.split (wf : Wf root s) {contents : Fin 512 → BitVec 64} (upper : path.length < 3)
    (reached : s.tableAt root path = some t) (big : has (s.read t i) huge = true)
    (split : Split s later t i fresh contents)
    (childless : ∀ j, child (path.length + 1) (contents j) = none)
    (means : ∀ virt, decode virt path.length (s.read t i) =
      decode virt (path.length + 1)
        (contents (index virt (path.length + 1)))) : Opens root s later (i :: path) fresh 1 := by
  obtain ⟨shape, linked⟩ := split
  have links := wf.links_filled (i := i) contents reached shape
  rw [← linked] at links
  obtain ⟨grows, here⟩ := wf.link upper reached links (child_huge big)
    childless (fun virt _ => means virt)
  refine ⟨grows, here, ?_⟩
  rw [shape]
  exact Nat.le_refl _

theorem splitHuge_opens (wf : Wf root s) (level : path.length = 2)
    (reached : s.tableAt root path = some pd) (mapped : has (s.read pd i) present = true)
    (big : has (s.read pd i) huge = true) (result : splitHuge s pd i = some later) :
    ∃ pt, Opens root s later (i :: path) pt 1 := by
  obtain ⟨fresh, split⟩ := splitHuge_cases result
  refine ⟨fresh, wf.split (by omega) reached big split ?_ ?_⟩
  · intro j
    rw [level]
    exact child_bottom _
  · intro virt
    rw [level]
    exact decode_splitEntry virt mapped

theorem split1gHuge_opens (wf : Wf root s) (level : path.length = 1)
    (reached : s.tableAt root path = some pdpt) (mapped : has (s.read pdpt i) present = true)
    (big : has (s.read pdpt i) huge = true) (result : split1gHuge s pdpt i = some later) :
    ∃ pd, Opens root s later (i :: path) pd 1 := by
  obtain ⟨fresh, split⟩ := split1gHuge_cases result
  refine ⟨fresh, wf.split (by omega) reached big split ?_ ?_⟩
  · intro j
    exact child_huge (split1gEntry_huge _ j)
  · intro virt
    rw [level]
    exact decode_split1gEntry virt mapped

theorem splitHuge_total (pd : BitVec 64) (i : Fin 512)
    (left : 0 < s.pool.length) : ∃ later, splitHuge s pd i = some later := by
  obtain ⟨frame, zeroed, taken⟩ := allocFrameZeroed_total left
  unfold splitHuge
  rw [taken]
  exact ⟨_, rfl⟩

theorem split1gHuge_total (pdpt : BitVec 64) (i : Fin 512) (left : 0 < s.pool.length) :
    ∃ later, split1gHuge s pdpt i = some later := by
  obtain ⟨frame, zeroed, taken⟩ := allocFrameZeroed_total left
  unfold split1gHuge
  rw [taken]
  exact ⟨_, rfl⟩

/-- An open way shows in the entry it passes through. -/
theorem Opens.entry {parent : BitVec 64} (opens : Opens root s later (i :: path) t cost)
    (reached : s.tableAt root path = some parent) :
    has (later.read parent i) present = true ∧
      has (later.read parent i) huge = false ∧
      later.read parent i &&& addrMask = t := by
  have way := opens.reached
  rw [State.tableAt, tableAt_cons (opens.grows.tables reached)] at way
  obtain ⟨-, mapped, flat, address⟩ := child_some way
  exact ⟨mapped, flat, address⟩

/-- Once split, the entry leads to the new table and `child_table` follows it. -/
theorem childTable_of_opens {parent : BitVec 64} {last : State}
    (opens : Opens root s later (i :: path) t cost) (reached : s.tableAt root path = some parent)
    (result : childTable later parent i = some (u, last)) : u = t ∧ last = later := by
  obtain ⟨mapped, flat, address⟩ := opens.entry reached
  rw [childTable_present mapped flat] at result
  cases result
  exact ⟨address, rfl⟩

theorem pdFor_opens (wf : Wf root s) (reached : s.tableAt root (indices virt 1) = some pdpt)
    (result : pdFor s pdpt virt = some (pd, later)) : Opens root s later (indices virt 2) pd 1 := by
  rw [indices_succ]
  unfold pdFor at result
  dsimp only at result
  split at result
  case isTrue kinds =>
    obtain ⟨middle, split, rest⟩ := Option.bind_eq_some_iff.mp result
    obtain ⟨mapped, big⟩ := (Bool.and_eq_true _ _).mp kinds
    obtain ⟨fresh, opens⟩ := split1gHuge_opens wf (length_indices _ _) reached mapped big split
    obtain ⟨rfl, rfl⟩ := childTable_of_opens opens reached rest
    exact opens
  case isFalse =>
    obtain ⟨middle, same, rest⟩ := Option.bind_eq_some_iff.mp result
    cases same
    exact childTable_opens wf (by rw [length_indices]; omega) reached rest

theorem ptFor_opens (wf : Wf root s) {pt : BitVec 64}
    (reached : s.tableAt root (indices virt 2) = some pd)
    (result : ptFor s pd virt = some (pt, later)) : Opens root s later (indices virt 3) pt 1 := by
  rw [indices_succ]
  unfold ptFor at result
  dsimp only at result
  split at result
  case isTrue kinds =>
    obtain ⟨middle, split, rest⟩ := Option.bind_eq_some_iff.mp result
    obtain ⟨mapped, big⟩ := (Bool.and_eq_true _ _).mp kinds
    obtain ⟨fresh, opens⟩ := splitHuge_opens wf (length_indices _ _) reached mapped big split
    obtain ⟨rfl, rfl⟩ := childTable_of_opens opens reached rest
    exact opens
  case isFalse =>
    obtain ⟨middle, same, rest⟩ := Option.bind_eq_some_iff.mp result
    cases same
    exact childTable_opens wf (by rw [length_indices]; omega) reached rest

/-! ### Finding a leaf -/

/-- What a search for the leaf of `virt` finds: nothing, where the page is not
mapped, or the open way to its table. -/
inductive Leaf (root virt : BitVec 64) (s : State) :
    Option (BitVec 64) × State → Prop where
  | absent (unmapped : walk s root virt = none) : Leaf root virt s (none, s)
  | found {pt : BitVec 64} {later : State} {c : Nat}
      (opens : Opens root s later (indices virt 3) pt c)
      (mapped : has (later.read pt (index virt 3)) present = true) :
      Leaf root virt s (some pt, later)

/-- Splits on the way keep what the search finds. -/
theorem Leaf.after {middle : State} (opens : Opens root s middle path t cost)
    (mapped : walk s root virt ≠ none) (leaf : Leaf root virt middle result) :
    Leaf root virt s result := by
  cases leaf with
  | absent unmapped =>
    rw [opens.grows.walks] at unmapped
    exact absurd unmapped mapped
  | found further present => exact .found (opens.trans further) present

theorem leafPt_leaf (wf : Wf root s) {pt : BitVec 64}
    (reached : s.tableAt root (indices virt 3) = some pt) :
    Leaf root virt s (leafPt s pt virt) := by
  unfold leafPt
  split
  case isTrue mapped =>
    exact .found (c := 0) ⟨Grows.refl wf, reached, Nat.le_refl _⟩ mapped
  case isFalse unmapped =>
    refine .absent ?_
    rw [wf.walk_of_leaf virt pt 3 (Nat.le_refl 3) reached (child_bottom _)]
    exact decode_absent (by simpa using unmapped)

theorem leafPd_leaf (wf : Wf root s) (reached : s.tableAt root (indices virt 2) = some pd)
    (found : leafPd s pd virt = some result) : Leaf root virt s result := by
  unfold leafPd at found
  dsimp only at found
  have leaf := wf.walk_of_leaf virt pd 2 (by omega) reached
  split at found
  case isTrue unmapped =>
    cases found
    have absent : has (s.read pd (index virt 2)) present = false := by
      simpa using unmapped
    refine .absent ?_
    rw [leaf (child_absent absent), decode_absent absent]
  case isFalse present =>
    have mapped : has (s.read pd (index virt 2)) Vmm.present = true := by
      simpa using present
    split at found
    case isTrue big =>
      obtain ⟨middle, split, rest⟩ := Option.bind_eq_some_iff.mp found
      cases rest
      obtain ⟨pt, opens⟩ :=
        splitHuge_opens wf (length_indices _ _) reached mapped big split
      obtain ⟨-, -, address⟩ := opens.entry reached
      rw [address]
      have way := opens.reached
      rw [← indices_succ] at way
      refine Leaf.after opens ?_ (leafPt_leaf opens.grows.wf way)
      rw [leaf (child_huge big)]
      simp [decode, mapped]
    case isFalse small =>
      cases found
      exact leafPt_leaf wf (tableAt_descend 2 (by omega) reached mapped (by simpa using small))

theorem leafPdpt_leaf (wf : Wf root s) (reached : s.tableAt root (indices virt 1) = some pdpt)
    (found : leafPdpt s pdpt virt = some result) : Leaf root virt s result := by
  unfold leafPdpt at found
  dsimp only at found
  have leaf := wf.walk_of_leaf virt pdpt 1 (by omega) reached
  split at found
  case isTrue unmapped =>
    cases found
    have absent : has (s.read pdpt (index virt 1)) present = false := by
      simpa using unmapped
    refine .absent ?_
    rw [leaf (child_absent absent), decode_absent absent]
  case isFalse present =>
    have mapped : has (s.read pdpt (index virt 1)) Vmm.present = true := by
      simpa using present
    split at found
    case isTrue big =>
      obtain ⟨middle, split, rest⟩ := Option.bind_eq_some_iff.mp found
      obtain ⟨pd, opens⟩ :=
        split1gHuge_opens wf (length_indices _ _) reached mapped big split
      obtain ⟨-, -, address⟩ := opens.entry reached
      rw [address] at rest
      have way := opens.reached
      rw [← indices_succ] at way
      refine Leaf.after opens ?_ (leafPd_leaf opens.grows.wf way rest)
      rw [leaf (child_huge big)]
      simp [decode, mapped]
    case isFalse small =>
      exact leafPd_leaf wf (tableAt_descend 1 (by omega) reached mapped (by simpa using small))
        found

theorem leafFor_leaf (wf : Wf root s)
    (found : leafFor s root virt = some result) : Leaf root virt s result := by
  have top : s.tableAt root (indices virt 0) = some root := rfl
  have leaf := wf.walk_of_leaf virt root 0 (by omega) top
  unfold leafFor at found
  dsimp only at found
  split at found
  case isTrue missing =>
    cases found
    have absent : has (s.read root (index virt 0)) present = false := by
      by_contra present
      have mapped : has (s.read root (index virt 0)) Vmm.present = true := by
        simpa using present
      simp [mapped, wf.topTables _ mapped] at missing
    refine .absent ?_
    rw [leaf (child_absent absent), decode_absent absent]
  case isFalse here =>
    have kinds : has (s.read root (index virt 0)) present = true ∧
        has (s.read root (index virt 0)) huge = false := by
      simpa using here
    exact leafPdpt_leaf wf (tableAt_descend 0 (by omega) top kinds.1 kinds.2) found

theorem leafPd_total (left : 0 < s.pool.length) : ∃ result, leafPd s pd virt = some result := by
  unfold leafPd
  dsimp only
  split
  · exact ⟨_, rfl⟩
  split
  · obtain ⟨middle, split⟩ := splitHuge_total pd (index virt 2) left
    rw [split]
    exact ⟨_, rfl⟩
  · exact ⟨_, rfl⟩

theorem leafFor_total (wf : Wf root s) (virt : BitVec 64) (left : 2 ≤ s.pool.length) :
    ∃ result, leafFor s root virt = some result := by
  have top : s.tableAt root (indices virt 0) = some root := rfl
  unfold leafFor
  dsimp only
  split
  case isTrue => exact ⟨_, rfl⟩
  case isFalse here =>
    have kinds : has (s.read root (index virt 0)) present = true ∧
        has (s.read root (index virt 0)) huge = false := by
      simpa using here
    have reached := tableAt_descend 0 (by omega) top kinds.1 kinds.2
    unfold leafPdpt
    dsimp only
    split
    case isTrue => exact ⟨_, rfl⟩
    case isFalse present =>
      split
      case isTrue big =>
        have some : 0 < s.pool.length := by omega
        obtain ⟨middle, split⟩ := split1gHuge_total
          (s.read root (index virt 0) &&& addrMask) (index virt 1) some
        obtain ⟨pd, opens⟩ := split1gHuge_opens wf (length_indices _ _) reached
          (by simpa using present) big split
        have pool := opens.pool
        rw [split, Option.bind_some]
        exact leafPd_total (by omega)
      case isFalse => exact leafPd_total (by omega)

end

end Eonos.Vmm
