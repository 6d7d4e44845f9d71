import Eonos.Vmm.Runs

/-!
# What an operation leaves alone

An operation on the page of one address takes frames of the pool for the tables
it adds, and writes the entries on the way of that address.  Every other byte
of memory, and every entry that already led to a table, stays as it is.
-/

namespace Eonos.Vmm

open Eonos.Lib.TableTree

theorem read_of_bytes {s later : State} {table : BitVec 64} {i : Fin 512}
    (same : ∀ b, InEntry table i b → later.mem b = s.mem b) :
    later.read table i = s.read table i := by
  refine readWord_congr fun k small => same _ ?_
  unfold InEntry
  omega

/-! ### Descents -/

/-- `later` follows from `s` by steps on the way of `virt` down to `level`. -/
structure Descends (root virt : BitVec 64) (level : Nat) (s later : State) :
    Prop where
  wf : Wf root later
  tables : ∀ {path t}, s.tableAt root path = some t →
    later.tableAt root path = some t
  taken : ∃ used, s.pool = used ++ later.pool ∧
    (∀ {path t}, later.tableAt root path = some t →
      s.tableAt root path = some t ∨ t ∈ used ∧ path <:+ indices virt level) ∧
    ∀ t ∈ used, ∃ path, path <:+ indices virt level ∧
      later.tableAt root path = some t
  kept : ∀ {path t} i, s.tableAt root path = some t →
    (child path.length (s.read t i)).isSome = true →
      later.read t i = s.read t i
  bytes : ∀ b, (∀ frame ∈ s.pool, ¬ InFrame frame b) →
    (∀ l < level, ∀ t, s.tableAt root (indices virt l) = some t →
      ¬ InEntry t (index virt l) b) → later.mem b = s.mem b

section

variable {root virt : BitVec 64} {s middle later : State}

theorem indices_suffix {low high : Nat} (le : low ≤ high) :
    indices virt low <:+ indices virt high :=
  suffix_indices.mpr ⟨by rw [length_indices]; exact le,
    by rw [length_indices]⟩

theorem Descends.refl (wf : Wf root s) (level : Nat) : Descends root virt level s s :=
  ⟨wf, fun found => found, ⟨[], rfl, fun found => .inl found, by simp⟩,
    fun _ _ _ => rfl, fun _ _ _ => rfl⟩

theorem Descends.trans {low high : Nat} (first : Descends root virt low s middle)
    (second : Descends root virt high middle later) (le : low ≤ high) :
    Descends root virt high s later := by
  obtain ⟨usedFirst, poolFirst, newFirst, linkedFirst⟩ := first.taken
  obtain ⟨usedSecond, poolSecond, newSecond, linkedSecond⟩ := second.taken
  refine ⟨second.wf, fun found => second.tables (first.tables found), ?_, ?_, ?_⟩
  · refine ⟨usedFirst ++ usedSecond, ?_, ?_, ?_⟩
    · rw [poolFirst, poolSecond, List.append_assoc]
    · intro path t found
      rcases newSecond found with found | ⟨fresh, below⟩
      · rcases newFirst found with found | ⟨fresh, below⟩
        · exact .inl found
        · exact .inr ⟨List.mem_append_left _ fresh, below.trans (indices_suffix le)⟩
      · exact .inr ⟨List.mem_append_right _ fresh, below⟩
    · intro t fresh
      rcases List.mem_append.mp fresh with fresh | fresh
      · obtain ⟨path, below, found⟩ := linkedFirst t fresh
        exact ⟨path, below.trans (indices_suffix le), second.tables found⟩
      · exact linkedSecond t fresh
  · intro path t i found leads
    have same := first.kept i found leads
    rw [second.kept i (first.tables found) (by rw [same]; exact leads), same]
  · intro b outside apart
    rw [second.bytes b, first.bytes b outside]
    · intro l below t found
      exact apart l (Nat.lt_of_lt_of_le below le) t found
    · intro frame member
      refine outside frame ?_
      rw [poolFirst]
      exact List.mem_append_right _ member
    · intro l below t found inside
      rcases newFirst found with found | ⟨fresh, -⟩
      · exact apart l below t found inside
      · refine outside t ?_ inside.inFrame
        rw [poolFirst]
        exact List.mem_append_left _ fresh

variable {level : Nat} {t pd pdpt flags : BitVec 64}
  {found : Option (BitVec 64)}

/-- Entries of whole frames off the way read as before. -/
theorem Descends.read_other (down : Descends root virt level s later) (wf : Wf root s)
    {u : BitVec 64} {j : Fin 512} (masked : u &&& addrMask = u) (unused : u ∉ s.pool)
    (off : ∀ l < level, ∀ t, s.tableAt root (indices virt l) = some t →
      ¬ (t = u ∧ index virt l = j)) : later.read u j = s.read u j := by
  refine read_of_bytes fun b inside => down.bytes b ?_ ?_
  · intro frame member
    refine (frame_of_masked masked).apart
      (frame_of_masked (wf.poolMasked frame member)) ?_ inside.inFrame
    rintro rfl
    exact unused member
  · intro l below t found hit
    by_cases same : t = u
    · subst same
      have distinct : (index virt l).val ≠ j.val := fun equal =>
        off l below t found ⟨rfl, Fin.ext equal⟩
      unfold InEntry at inside hit
      omega
    · exact (wf.frame found).apart (frame_of_masked masked) same hit.inFrame inside.inFrame

/-- Whole frames that are neither tables nor in the pool keep their bytes. -/
theorem Descends.byte_other (down : Descends root virt level s later) (wf : Wf root s)
    {frame : BitVec 64} (masked : frame &&& addrMask = frame) (unused : frame ∉ s.pool)
    (plain : ∀ path, s.tableAt root path ≠ some frame) {b : Nat} (inside : InFrame frame b) :
    later.mem b = s.mem b := by
  refine down.bytes b ?_ ?_
  · intro other member
    refine (frame_of_masked masked).apart (frame_of_masked (wf.poolMasked other member)) ?_ inside
    rintro rfl
    exact unused member
  · intro l below t found hit
    refine (wf.frame found).apart (frame_of_masked masked) ?_ hit.inFrame inside
    rintro rfl
    exact plain _ found

/-! ### Single steps -/

theorem Wf.link_descends (wf : Wf root s) {fresh : BitVec 64} {contents : Fin 512 → BitVec 64}
    (upper : level < 3) (reached : s.tableAt root (indices virt level) = some t)
    (links : Links s later t (index virt level) fresh contents)
    (before : child level (s.read t (index virt level)) = none)
    (childless : ∀ j, child (level + 1) (contents j) = none) (grows : Grows root s later)
    (bytes : ∀ b, ¬ InFrame fresh b → ¬ InEntry t (index virt level) b → later.mem b = s.mem b) :
    Descends root virt (level + 1) s later := by
  have size := length_indices virt level
  have tables := wf.link_tableAt (by rw [size]; exact upper) reached links
    (by rw [size]; exact before) (by rw [size]; exact childless)
  rw [← indices_succ] at tables
  refine ⟨grows.wf, grows.tables, ⟨[fresh], links.pool, ?_, ?_⟩, ?_, ?_⟩
  · intro path u found
    rw [tables] at found
    split_ifs at found with here
    · cases found
      exact .inr ⟨List.mem_singleton_self _, here ▸ List.suffix_refl _⟩
    · exact .inl found
  · intro u fresh
    cases List.mem_singleton.mp fresh
    exact ⟨_, List.suffix_refl _, by rw [tables, if_pos rfl]⟩
  · intro path u j found leads
    refine wf.link_others links found ?_
    rintro ⟨rfl, rfl⟩
    rw [wf.apart found reached, size, before] at leads
    cases leads
  · intro b outside apart
    exact bytes b (outside fresh links.fresh_mem) (apart level (Nat.lt_succ_self _) t reached)

theorem childTable_descends (wf : Wf root s) {u : BitVec 64} (upper : level < 3)
    (reached : s.tableAt root (indices virt level) = some t)
    (result : childTable s t (index virt level) = some (u, later)) :
    Descends root virt (level + 1) s later := by
  have size := length_indices virt level
  have opens := childTable_opens wf (by rw [size]; exact upper) reached result
  rcases childTable_cases result with
    ⟨-, -, -, rfl⟩ | ⟨absent, shape, linked⟩
  · exact Descends.refl wf _
  · have links := wf.links_zeroed (i := index virt level) reached shape
    rw [← linked] at links
    refine wf.link_descends upper reached links (child_absent absent)
      (fun j => child_absent (by decide)) opens.grows ?_
    intro b outside apart
    rw [linked]
    exact (writeEntry_byte apart).trans (zeroFrame_byte outside)

theorem Wf.split_descends (wf : Wf root s) {fresh : BitVec 64} {contents : Fin 512 → BitVec 64}
    (upper : level < 3) (reached : s.tableAt root (indices virt level) = some t)
    (big : has (s.read t (index virt level)) huge = true)
    (split : Split s later t (index virt level) fresh contents)
    (childless : ∀ j, child (level + 1) (contents j) = none) (grows : Grows root s later) :
    Descends root virt (level + 1) s later := by
  obtain ⟨shape, linked⟩ := split
  have links := wf.links_filled (i := index virt level) contents reached shape
  rw [← linked] at links
  refine wf.link_descends upper reached links (child_huge big) childless grows ?_
  intro b outside apart
  rw [linked]
  exact (writeEntry_byte apart).trans ((fillTable_byte outside).trans (zeroFrame_byte outside))

theorem splitHuge_descends (wf : Wf root s) (reached : s.tableAt root (indices virt 2) = some pd)
    (mapped : has (s.read pd (index virt 2)) present = true)
    (big : has (s.read pd (index virt 2)) huge = true)
    (result : splitHuge s pd (index virt 2) = some later) : Descends root virt 3 s later := by
  obtain ⟨pt, opens⟩ :=
    splitHuge_opens wf (length_indices _ _) reached mapped big result
  obtain ⟨fresh, split⟩ := splitHuge_cases result
  exact wf.split_descends (by omega) reached big split (fun j => child_bottom _) opens.grows

theorem split1gHuge_descends (wf : Wf root s)
    (reached : s.tableAt root (indices virt 1) = some pdpt)
    (mapped : has (s.read pdpt (index virt 1)) present = true)
    (big : has (s.read pdpt (index virt 1)) huge = true)
    (result : split1gHuge s pdpt (index virt 1) = some later) : Descends root virt 2 s later := by
  obtain ⟨pd, opens⟩ :=
    split1gHuge_opens wf (length_indices _ _) reached mapped big result
  obtain ⟨fresh, split⟩ := split1gHuge_cases result
  exact wf.split_descends (by omega) reached big split
    (fun j => child_huge (split1gEntry_huge _ j)) opens.grows

/-- Replacing a leaf on the way. -/
theorem Wf.writeLeaf_descends (wf : Wf root s) (entry : BitVec 64) (below : 0 < level)
    (reached : s.tableAt root (indices virt level) = some t)
    (before : child level (s.read t (index virt level)) = none) (after : child level entry = none) :
    Descends root virt (level + 1) s (s.write t (index virt level) entry) := by
  have size := length_indices virt level
  have others : ∀ {whole u j}, tableAt child s.read root whole = some u →
      ¬ (u = t ∧ j = index virt level) →
        (s.write t (index virt level) entry).read u j = s.read u j :=
    fun found distinct => wf.read_write_ne _ reached found distinct
  have written : (s.write t (index virt level) entry).read t
      (index virt level) = entry := readEntry_writeEntry _ _ _ _
  have tables : ∀ path, (s.write t (index virt level) entry).tableAt root path =
        s.tableAt root path :=
    tableAt_leaf wf.apart reached others (by rw [size]; exact before)
      (by rw [size, written]; exact after)
  have wellFormed := (wf.writeLeaf (index virt level) entry
    (by intro empty; rw [empty, List.length_nil] at size; omega) reached
    (by rw [size]; exact before) (by rw [size]; exact after)).1
  refine ⟨wellFormed, ?_, ⟨[], rfl, ?_, by simp⟩, ?_, ?_⟩
  · intro path u found
    rw [tables]
    exact found
  · intro path u found
    rw [tables] at found
    exact .inl found
  · intro path u j found leads
    refine others found ?_
    rintro ⟨rfl, rfl⟩
    rw [wf.apart found reached, size, before] at leads
    cases leads
  · intro b _ apart
    exact writeEntry_byte (apart level (Nat.lt_succ_self _) t reached)

/-! ### Operations -/

theorem pdFor_descends (wf : Wf root s) (reached : s.tableAt root (indices virt 1) = some pdpt)
    (result : pdFor s pdpt virt = some (pd, later)) : Descends root virt 2 s later := by
  unfold pdFor at result
  dsimp only at result
  split at result
  case isTrue kinds =>
    obtain ⟨middle, split, rest⟩ := Option.bind_eq_some_iff.mp result
    obtain ⟨mapped, big⟩ := (Bool.and_eq_true _ _).mp kinds
    obtain ⟨fresh, opens⟩ := split1gHuge_opens wf (length_indices _ _) reached mapped big split
    obtain ⟨-, rfl⟩ := childTable_of_opens opens reached rest
    exact split1gHuge_descends wf reached mapped big split
  case isFalse =>
    obtain ⟨middle, same, rest⟩ := Option.bind_eq_some_iff.mp result
    cases same
    exact childTable_descends wf (by omega) reached rest

theorem ptFor_descends (wf : Wf root s) {pt : BitVec 64}
    (reached : s.tableAt root (indices virt 2) = some pd)
    (result : ptFor s pd virt = some (pt, later)) : Descends root virt 3 s later := by
  unfold ptFor at result
  dsimp only at result
  split at result
  case isTrue kinds =>
    obtain ⟨middle, split, rest⟩ := Option.bind_eq_some_iff.mp result
    obtain ⟨mapped, big⟩ := (Bool.and_eq_true _ _).mp kinds
    obtain ⟨fresh, opens⟩ := splitHuge_opens wf (length_indices _ _) reached mapped big split
    obtain ⟨-, rfl⟩ := childTable_of_opens opens reached rest
    exact splitHuge_descends wf reached mapped big split
  case isFalse =>
    obtain ⟨middle, same, rest⟩ := Option.bind_eq_some_iff.mp result
    cases same
    exact childTable_descends wf (by omega) reached rest

theorem map4k_descends (wf : Wf root s) {phys : BitVec 64}
    (result : map4k s root virt phys flags = some later) : Descends root virt 4 s later := by
  have top : s.tableAt root (indices virt 0) = some root := rfl
  obtain ⟨⟨pdpt, first⟩, one, result⟩ := Option.bind_eq_some_iff.mp result
  obtain ⟨⟨pd, second⟩, two, result⟩ := Option.bind_eq_some_iff.mp result
  obtain ⟨⟨pt, third⟩, three, result⟩ := Option.bind_eq_some_iff.mp result
  cases result
  have toPdpt := childTable_opens wf (by rw [length_indices]; omega) top one
  have toPd := pdFor_opens toPdpt.grows.wf toPdpt.reached two
  have toPt := ptFor_opens toPd.grows.wf toPd.reached three
  have downOne := childTable_descends wf (by omega) top one
  have downTwo := pdFor_descends toPdpt.grows.wf toPdpt.reached two
  have downThree := ptFor_descends toPd.grows.wf toPd.reached three
  have leaf := toPt.grows.wf.writeLeaf_descends
    ((phys &&& addrMask) ||| flags ||| present) (by omega)
    toPt.reached (child_bottom _) (child_bottom _)
  exact ((downOne.trans downTwo (by omega)).trans downThree (by omega)).trans leaf (by omega)

theorem map2m_descends (wf : Wf root s) {phys : BitVec 64}
    (result : map2m s root virt phys flags = some later) : Descends root virt 3 s later := by
  have top : s.tableAt root (indices virt 0) = some root := rfl
  obtain ⟨⟨pdpt, first⟩, one, result⟩ := Option.bind_eq_some_iff.mp result
  obtain ⟨⟨pd, second⟩, two, result⟩ := Option.bind_eq_some_iff.mp result
  have toPdpt := childTable_opens wf (by rw [length_indices]; omega) top one
  rw [← indices_succ] at toPdpt
  have toPd := childTable_opens toPdpt.grows.wf (by rw [length_indices]; omega) toPdpt.reached two
  rw [← indices_succ] at toPd
  have downOne := childTable_descends wf (by omega) top one
  have downTwo := childTable_descends toPdpt.grows.wf (by omega) toPdpt.reached two
  dsimp only at result
  split at result
  case isTrue => cases result
  case isFalse kinds =>
    cases result
    refine (downOne.trans downTwo (by omega)).trans (toPd.grows.wf.writeLeaf_descends _ (by omega)
      toPd.reached ?_ ?_) (by omega)
    · cases mapped : has (second.read pd (index virt 2)) present with
      | false => exact child_absent mapped
      | true => exact child_huge (by simpa [mapped] using kinds)
    · refine child_huge ?_
      simp [has_or, show has huge huge = true by decide]

theorem leafPd_descends (wf : Wf root s) (reached : s.tableAt root (indices virt 2) = some pd)
    (result : leafPd s pd virt = some (found, later)) : Descends root virt 3 s later := by
  have leafPt_same : ∀ {start : State} {pt}, (leafPt start pt virt).2 = start := by
    intro start pt
    unfold leafPt
    split_ifs <;> rfl
  unfold leafPd at result
  dsimp only at result
  split at result
  case isTrue =>
    cases result
    exact Descends.refl wf _
  case isFalse present =>
    split at result
    case isTrue big =>
      obtain ⟨middle, split, rest⟩ := Option.bind_eq_some_iff.mp result
      have same := congrArg Prod.snd (Option.some.inj rest)
      rw [leafPt_same] at same
      cases same
      exact splitHuge_descends wf reached (by simpa using present) big split
    case isFalse =>
      have same := congrArg Prod.snd (Option.some.inj result)
      rw [leafPt_same] at same
      cases same
      exact Descends.refl wf _

theorem leafPdpt_descends (wf : Wf root s) (reached : s.tableAt root (indices virt 1) = some pdpt)
    (result : leafPdpt s pdpt virt = some (found, later)) : Descends root virt 3 s later := by
  unfold leafPdpt at result
  dsimp only at result
  split at result
  case isTrue =>
    cases result
    exact Descends.refl wf _
  case isFalse present =>
    have mapped : has (s.read pdpt (index virt 1)) Vmm.present = true := by
      simpa using present
    split at result
    case isTrue big =>
      obtain ⟨middle, split, rest⟩ := Option.bind_eq_some_iff.mp result
      obtain ⟨pd, opens⟩ :=
        split1gHuge_opens wf (length_indices _ _) reached mapped big split
      obtain ⟨-, -, address⟩ := opens.entry reached
      rw [address] at rest
      have way := opens.reached
      rw [← indices_succ] at way
      exact (split1gHuge_descends wf reached mapped big split).trans
        (leafPd_descends opens.grows.wf way rest) (by omega)
    case isFalse small =>
      exact leafPd_descends wf (tableAt_descend 1 (by omega) reached mapped (by simpa using small))
        result

theorem leafFor_descends (wf : Wf root s) (result : leafFor s root virt = some (found, later)) :
    Descends root virt 3 s later := by
  have top : s.tableAt root (indices virt 0) = some root := rfl
  unfold leafFor at result
  dsimp only at result
  split at result
  case isTrue =>
    cases result
    exact Descends.refl wf _
  case isFalse here =>
    have kinds : has (s.read root (index virt 0)) present = true ∧
        has (s.read root (index virt 0)) huge = false := by
      simpa using here
    exact leafPdpt_descends wf (tableAt_descend 0 (by omega) top kinds.1 kinds.2) result

theorem leaf_write_descends (wf : Wf root s)
    (search : leafFor s root virt = some (found, middle)) (entry : BitVec 64) :
    Descends root virt 4 s middle ∧ ∀ pt, found = some pt →
      Descends root virt 4 s (middle.write pt (index virt 3) entry) := by
  have down := leafFor_descends wf search
  refine ⟨down.trans (Descends.refl down.wf 4) (by omega), ?_⟩
  intro pt located
  have leaf := leafFor_leaf wf search
  rw [located] at leaf
  cases leaf with
  | found opens mapped =>
    exact down.trans (down.wf.writeLeaf_descends _ (by omega) opens.reached
      (child_bottom _) (child_bottom _)) (by omega)

theorem unmapPage_descends (wf : Wf root s) {frame : Option (BitVec 64)}
    (result : unmapPage s root virt = some (frame, later)) : Descends root virt 4 s later := by
  obtain ⟨⟨found, middle⟩, search, result⟩ := Option.bind_eq_some_iff.mp result
  cases found with
  | none =>
    cases result
    exact (leaf_write_descends wf search 0).1
  | some pt =>
    cases result
    exact (leaf_write_descends wf search 0).2 pt rfl

theorem protectLeaf_descends (wf : Wf root s)
    {done : Bool} (result : protectLeaf s root virt flags = some (done, later)) :
    Descends root virt 4 s later := by
  obtain ⟨⟨found, middle⟩, search, result⟩ := Option.bind_eq_some_iff.mp result
  cases found with
  | none =>
    cases result
    exact (leaf_write_descends wf search 0).1
  | some pt =>
    cases result
    exact (leaf_write_descends wf search _).2 pt rfl

theorem protectPage_descends (wf : Wf root s)
    {done : Bool} (result : protectPage s root virt flags = some (done, later)) :
    Descends root virt 4 s later := by
  rcases protectPage_cases result with rfl | ⟨-, result⟩
  · exact Descends.refl wf 4
  · exact protectLeaf_descends wf result

end

end Eonos.Vmm
