import Eonos.Lib.TableTree
import Eonos.Vmm.Entries

/-!
# The tree of page tables

Well-formed tables, the walk as a descent in the tree, and the two ways the
operations write to it: a leaf is replaced, or an entry is linked to a fresh
table that means the same.
-/

namespace Eonos.Vmm

open Eonos.Lib.TableTree

/-- Entries of the three upper levels lead to a table unless they are huge. -/
def child (level : Nat) (entry : BitVec 64) : Option (BitVec 64) :=
  if level < 3 ∧ has entry present = true ∧ has entry huge = false then
    some (entry &&& addrMask)
  else none

def State.tableAt (s : State) (root : BitVec 64) (path : List (Fin 512)) : Option (BitVec 64) :=
  Lib.TableTree.tableAt child s.read root path

/-- The first indices of an address, deepest first. -/
def indices (virt : BitVec 64) : Nat → List (Fin 512)
  | 0 => []
  | level + 1 => index virt level :: indices virt level

/-- What an entry the walk ends at says about an address. -/
def decode (virt : BitVec 64) (level : Nat) (entry : BitVec 64) : Option (BitVec 64) :=
  if has entry present then
    match level with
    | 1 => some ((entry &&& huge1gMask) + (virt &&& (huge1g - 1)))
    | 2 => some ((entry &&& huge2mMask) + (virt &&& (huge2m - 1)))
    | 3 => some ((entry &&& addrMask) + (virt &&& 0xfff#64))
    | _ => none
  else none

/-- No table is shared, no top-level entry is huge, and the frames still to be
handed out are distinct whole frames that no table uses. -/
structure Wf (root : BitVec 64) (s : State) : Prop where
  rootMasked : root &&& addrMask = root
  apart : Apart child s.read root
  topTables : ∀ i, has (s.read root i) present = true →
    has (s.read root i) huge = false
  poolNodup : s.pool.Nodup
  poolMasked : ∀ frame ∈ s.pool, frame &&& addrMask = frame
  poolFresh : ∀ frame ∈ s.pool, ∀ path, s.tableAt root path ≠ some frame

section

variable {root : BitVec 64} {s later : State}

theorem indices_succ (virt : BitVec 64) (level : Nat) :
    indices virt (level + 1) = index virt level :: indices virt level := rfl

@[simp]
theorem length_indices (virt : BitVec 64) (level : Nat) : (indices virt level).length = level := by
  induction level with
  | zero => rfl
  | succ level induction => rw [indices, List.length_cons, induction]

variable {virt entry : BitVec 64} {level : Nat}

theorem suffix_indices {path : List (Fin 512)} :
    path <:+ indices virt level ↔ path.length ≤ level ∧ path = indices virt path.length := by
  induction level with
  | zero =>
    rw [indices, List.suffix_nil]
    constructor
    · rintro rfl
      exact ⟨Nat.le_refl _, rfl⟩
    · rintro ⟨short, -⟩
      exact List.length_eq_zero_iff.mp (Nat.le_zero.mp short)
  | succ level induction =>
    rw [indices, List.suffix_cons_iff, induction]
    constructor
    · rintro (rfl | ⟨short, same⟩)
      · simp only [List.length_cons, length_indices]
        exact ⟨Nat.le_refl _, rfl⟩
      · exact ⟨Nat.le_succ_of_le short, same⟩
    · rintro ⟨short, same⟩
      rcases Nat.lt_or_eq_of_le short with below | full
      · exact .inr ⟨Nat.lt_succ_iff.mp below, same⟩
      · rw [full, indices] at same
        exact .inl same

theorem child_some {t : BitVec 64} (leads : child level entry = some t) :
    level < 3 ∧ has entry present = true ∧ has entry huge = false ∧ entry &&& addrMask = t := by
  unfold child at leads
  split at leads
  case isTrue kinds =>
    cases leads
    exact ⟨kinds.1, kinds.2.1, kinds.2.2, rfl⟩
  case isFalse => cases leads

theorem child_table (upper : level < 3) (mapped : has entry present = true)
    (table : has entry huge = false) : child level entry = some (entry &&& addrMask) :=
  if_pos ⟨upper, mapped, table⟩

theorem child_absent (absent : has entry present = false) : child level entry = none :=
  if_neg (by simp [absent])

theorem child_huge (big : has entry huge = true) : child level entry = none :=
  if_neg (by simp [big])

theorem child_bottom (entry : BitVec 64) : child 3 entry = none :=
  if_neg (by simp)

theorem Wf.masked (wf : Wf root s) {path : List (Fin 512)} {t : BitVec 64}
    (reached : s.tableAt root path = some t) : t &&& addrMask = t := by
  cases path with
  | nil =>
    cases reached
    exact wf.rootMasked
  | cons i path =>
    obtain ⟨parent, -, leads⟩ := Option.bind_eq_some_iff.mp reached
    obtain ⟨-, -, -, rfl⟩ := child_some leads
    exact addrMask_idem _

theorem Wf.frame (wf : Wf root s) {path : List (Fin 512)} {t : BitVec 64}
    (reached : s.tableAt root path = some t) : Frame t :=
  frame_of_masked (wf.masked reached)

/-! ### The walk -/

/-- What the walk of an address ends at, decoded. -/
def State.translated (s : State) (root virt : BitVec 64) : Option (BitVec 64) :=
  (stop child s.read root (indices virt 4)).bind
    fun leaf => decode virt leaf.1 leaf.2

theorem translated_of_leaf {t : BitVec 64} (level : Nat) (upper : level ≤ 3)
    (reached : s.tableAt root (indices virt level) = some t)
    (leaf : child level (s.read t (index virt level)) = none) :
    s.translated root virt = decode virt level (s.read t (index virt level)) := by
  have below : index virt level :: indices virt level <:+ indices virt 4 :=
    suffix_indices.mpr (by simp [indices]; omega)
  have ends := stop_of_leaf reached (by rw [length_indices]; exact leaf) below
  rw [State.translated, ends, Option.bind_some, length_indices]

theorem tableAt_descend {t : BitVec 64} (level : Nat) (upper : level < 3)
    (reached : s.tableAt root (indices virt level) = some t)
    (mapped : has (s.read t (index virt level)) present = true)
    (table : has (s.read t (index virt level)) huge = false) :
    s.tableAt root (indices virt (level + 1)) =
      some (s.read t (index virt level) &&& addrMask) := by
  have leads : s.tableAt root (indices virt (level + 1)) = _ :=
    tableAt_cons reached
  rw [leads, length_indices, child_table upper mapped table]

theorem walkPt_translated {pt : BitVec 64} (reached : s.tableAt root (indices virt 3) = some pt) :
    walkPt s pt virt = s.translated root virt := by
  rw [translated_of_leaf 3 (Nat.le_refl 3) reached (child_bottom _), walkPt]
  generalize s.read pt (index virt 3) = e
  cases mapped : has e present <;> simp [decode, mapped]

theorem walkPd_translated {pd : BitVec 64} (reached : s.tableAt root (indices virt 2) = some pd) :
    walkPd s pd virt = s.translated root virt := by
  have leaf := translated_of_leaf 2 (by omega) reached
  have further := tableAt_descend 2 (by omega) reached
  rw [walkPd]
  generalize s.read pd (index virt 2) = e at leaf further ⊢
  cases mapped : has e present with
  | false =>
    rw [leaf (child_absent mapped)]
    simp [decode, mapped]
  | true =>
    cases big : has e huge with
    | true =>
      rw [leaf (child_huge big)]
      simp [decode, mapped]
    | false =>
      rw [← walkPt_translated (further mapped big)]
      simp

theorem walkPdpt_translated {pdpt : BitVec 64}
    (reached : s.tableAt root (indices virt 1) = some pdpt) :
    walkPdpt s pdpt virt = s.translated root virt := by
  have leaf := translated_of_leaf 1 (by omega) reached
  have further := tableAt_descend 1 (by omega) reached
  rw [walkPdpt]
  generalize s.read pdpt (index virt 1) = e at leaf further ⊢
  cases mapped : has e present with
  | false =>
    rw [leaf (child_absent mapped)]
    simp [decode, mapped]
  | true =>
    cases big : has e huge with
    | true =>
      rw [leaf (child_huge big)]
      simp [decode, mapped]
    | false =>
      rw [← walkPd_translated (further mapped big)]
      simp

theorem Wf.walk_translated (wf : Wf root s) (virt : BitVec 64) :
    walk s root virt = s.translated root virt := by
  have top : s.tableAt root (indices virt 0) = some root := rfl
  have leaf := translated_of_leaf 0 (Nat.zero_le 3) top
  have further := tableAt_descend 0 (by omega) top
  have table := wf.topTables (index virt 0)
  rw [walk]
  generalize s.read root (index virt 0) = e at leaf further table ⊢
  cases mapped : has e present with
  | false =>
    rw [leaf (child_absent mapped)]
    simp [decode, mapped]
  | true =>
    rw [← walkPdpt_translated (further mapped (table mapped))]
    simp

theorem Wf.walk_of_leaf (wf : Wf root s) (virt t : BitVec 64) (level : Nat) (upper : level ≤ 3)
    (reached : s.tableAt root (indices virt level) = some t)
    (leaf : child level (s.read t (index virt level)) = none) :
    walk s root virt = decode virt level (s.read t (index virt level)) := by
  rw [wf.walk_translated, translated_of_leaf level upper reached leaf]

/-! ### Replacing a leaf -/

theorem Wf.read_write_ne (wf : Wf root s) {path : List (Fin 512)} (whole : List (Fin 512))
    {t u : BitVec 64} {i j : Fin 512} (reached : s.tableAt root path = some t)
    (found : s.tableAt root whole = some u) (distinct : ¬ (u = t ∧ j = i)) :
    (s.write t i entry).read u j = s.read u j :=
  readEntry_writeEntry_ne (wf.frame reached) (wf.frame found) distinct

/-- Replacing one leaf below the top level by another changes what the
addresses under it translate to, and nothing else. -/
theorem Wf.writeLeaf (wf : Wf root s) {path : List (Fin 512)} {t : BitVec 64} (i : Fin 512)
    (entry : BitVec 64) (below : path ≠ []) (reached : s.tableAt root path = some t)
    (before : child path.length (s.read t i) = none) (after : child path.length entry = none) :
    Wf root (s.write t i entry) ∧
      (∀ virt, indices virt (path.length + 1) ≠ i :: path →
        walk (s.write t i entry) root virt = walk s root virt) ∧
      ∀ virt, path.length ≤ 3 → indices virt (path.length + 1) = i :: path →
        walk (s.write t i entry) root virt =
          decode virt path.length entry := by
  have others : ∀ {whole u j}, tableAt child s.read root whole = some u →
      ¬ (u = t ∧ j = i) → (s.write t i entry).read u j = s.read u j :=
    fun found distinct => wf.read_write_ne _ reached found distinct
  have written : (s.write t i entry).read t i = entry :=
    readEntry_writeEntry _ _ _ _
  have tables := tableAt_leaf wf.apart reached others before (by rw [written]; exact after)
  have notRoot : t ≠ root := by
    rintro rfl
    exact below (wf.apart reached rfl)
  have result : Wf root (s.write t i entry) := by
    refine ⟨wf.rootMasked, ?_, ?_, wf.poolNodup, wf.poolMasked, ?_⟩
    · intro first second u one two
      rw [tables] at one two
      exact wf.apart one two
    · intro j
      have same : (s.write t i entry).read root j = s.read root j :=
        wf.read_write_ne [] reached rfl (fun equal => notRoot equal.1.symm)
      rw [same]
      exact wf.topTables j
    · intro frame member whole
      rw [State.tableAt, tables]
      exact wf.poolFresh frame member whole
  refine ⟨result, ?_, ?_⟩
  · intro virt elsewhere
    rw [result.walk_translated, wf.walk_translated, State.translated,
      State.translated, stop_frame wf.apart reached others]
    intro suffix
    obtain ⟨-, same⟩ := suffix_indices.mp suffix
    exact elsewhere same.symm
  · intro virt upper same
    rw [indices] at same
    obtain ⟨here, way⟩ := List.cons.inj same
    have leaf := result.walk_of_leaf virt t path.length upper
      (by rw [way, State.tableAt, tables]; exact reached)
      (by rw [here, written]; exact after)
    rw [leaf, here, written]

/-! ### Linking a fresh table -/

/-- The entry `i` of `t` now leads to `fresh`, the next frame of the pool, which
holds `contents`; everything else is as before. -/
structure Links (s later : State) (t : BitVec 64) (i : Fin 512)
    (fresh : BitVec 64) (contents : Fin 512 → BitVec 64) : Prop where
  pool : s.pool = fresh :: later.pool
  linked : later.read t i = linkEntry fresh
  filled : ∀ j, later.read fresh j = contents j
  others : ∀ {u j}, Frame u → u ≠ fresh → ¬ (u = t ∧ j = i) →
    later.read u j = s.read u j

/-- The tables only grow and every address translates as before. -/
structure Grows (root : BitVec 64) (s later : State) : Prop where
  wf : Wf root later
  walks : ∀ virt, walk later root virt = walk s root virt
  tables : ∀ {path t}, s.tableAt root path = some t →
    later.tableAt root path = some t
  pool : later.pool <:+ s.pool

theorem Grows.refl (wf : Wf root s) : Grows root s s :=
  ⟨wf, fun _ => rfl, fun reached => reached, List.suffix_refl _⟩

theorem Grows.trans {middle : State} (first : Grows root s middle)
    (second : Grows root middle later) : Grows root s later :=
  ⟨second.wf, fun virt => (second.walks virt).trans (first.walks virt),
    fun reached => second.tables (first.tables reached),
    second.pool.trans first.pool⟩

section Link

variable {path : List (Fin 512)} {t fresh : BitVec 64} {i : Fin 512}
  {contents : Fin 512 → BitVec 64}

theorem Links.fresh_mem (links : Links s later t i fresh contents) : fresh ∈ s.pool := by
  rw [links.pool]
  exact List.mem_cons_self

/-- Linking changes no entry of the old tables but the one that links. -/
theorem Wf.link_others (wf : Wf root s) (links : Links s later t i fresh contents)
    {whole : List (Fin 512)} {u : BitVec 64} {j : Fin 512} (found : s.tableAt root whole = some u)
    (distinct : ¬ (u = t ∧ j = i)) : later.read u j = s.read u j := by
  refine links.others (wf.frame found) ?_ distinct
  rintro rfl
  exact wf.poolFresh u links.fresh_mem whole found

theorem Wf.link_child (wf : Wf root s) (links : Links s later t i fresh contents)
    (upper : path.length < 3) : child path.length (later.read t i) = some fresh := by
  have masked := wf.poolMasked fresh links.fresh_mem
  rw [links.linked, child_table upper (linkEntry_present _)
    (linkEntry_huge masked), linkEntry_addr masked]

/-- The new table is the only one that appears. -/
theorem Wf.link_tableAt (wf : Wf root s) (upper : path.length < 3)
    (reached : s.tableAt root path = some t) (links : Links s later t i fresh contents)
    (before : child path.length (s.read t i) = none)
    (childless : ∀ j, child (path.length + 1) (contents j) = none) (whole : List (Fin 512)) :
    later.tableAt root whole = if whole = i :: path then some fresh else s.tableAt root whole := by
  have empty : ∀ j, child (path.length + 1) (later.read fresh j) = none := by
    intro j
    rw [links.filled]
    exact childless j
  rw [State.tableAt, tableAt_link wf.apart reached (fun found distinct => wf.link_others links found
    distinct) before (wf.link_child links upper) empty whole]
  split_ifs <;> rfl

theorem Wf.link (wf : Wf root s) (upper : path.length < 3) (reached : s.tableAt root path = some t)
    (links : Links s later t i fresh contents) (before : child path.length (s.read t i) = none)
    (childless : ∀ j, child (path.length + 1) (contents j) = none)
    (means : ∀ virt, indices virt (path.length + 1) = i :: path →
      decode virt path.length (s.read t i) =
        decode virt (path.length + 1)
          (contents (index virt (path.length + 1)))) :
    Grows root s later ∧ later.tableAt root (i :: path) = some fresh := by
  have masked := wf.poolMasked fresh links.fresh_mem
  have unused := wf.poolFresh fresh links.fresh_mem
  have others : ∀ {whole u j}, tableAt child s.read root whole = some u →
      ¬ (u = t ∧ j = i) → later.read u j = s.read u j :=
    fun found distinct => wf.link_others links found distinct
  have after := wf.link_child links upper
  have empty : ∀ j, child (path.length + 1) (later.read fresh j) = none := by
    intro j
    rw [links.filled]
    exact childless j
  have tables := wf.link_tableAt upper reached links before childless
  have absent : s.tableAt root (i :: path) = none := by
    rw [State.tableAt, tableAt_cons reached, before]
  have result : Wf root later := by
    refine ⟨wf.rootMasked, ?_, ?_, ?_, ?_, ?_⟩
    · exact apart_link wf.apart reached others before after empty unused
    · intro j
      by_cases here : root = t ∧ j = i
      · rw [here.1, here.2, links.linked]
        intro _
        exact linkEntry_huge masked
      · have top : tableAt child s.read root [] = some root := rfl
        rw [others top here]
        exact wf.topTables j
    · have nodup := wf.poolNodup
      rw [links.pool] at nodup
      exact (List.nodup_cons.mp nodup).2
    · intro frame member
      refine wf.poolMasked frame ?_
      rw [links.pool]
      exact List.mem_cons_of_mem _ member
    · intro frame member whole found
      rw [tables] at found
      split at found
      · cases found
        have nodup := wf.poolNodup
        rw [links.pool] at nodup
        exact (List.nodup_cons.mp nodup).1 member
      · refine wf.poolFresh frame ?_ whole found
        rw [links.pool]
        exact List.mem_cons_of_mem _ member
  refine ⟨⟨result, ?_, ?_, ?_⟩, ?_⟩
  · intro virt
    by_cases through : indices virt (path.length + 1) = i :: path
    · obtain ⟨here, way⟩ := List.cons.inj through
      have old := wf.walk_of_leaf virt t path.length (Nat.le_of_lt upper) (by rw [way]; exact
        reached) (by rw [here]; exact before)
      have new := result.walk_of_leaf virt fresh (path.length + 1) (Nat.succ_le_of_lt upper) (by rw
        [through, tables, if_pos rfl]) (by rw [links.filled]; exact childless _)
      rw [new, old, links.filled, here, means virt through]
    · rw [result.walk_translated, wf.walk_translated, State.translated,
        State.translated, stop_frame wf.apart reached others]
      intro suffix
      obtain ⟨-, same⟩ := suffix_indices.mp suffix
      exact through same.symm
  · intro whole u found
    rw [tables, if_neg]
    · exact found
    · rintro rfl
      rw [absent] at found
      cases found
  · rw [links.pool]
    exact List.suffix_cons _ _
  · rw [tables, if_pos rfl]

end Link

end

end Eonos.Vmm
