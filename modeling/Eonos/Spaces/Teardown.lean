import Eonos.Spaces.Ownership

/-!
# What a teardown frees

The recursion of `free_user_half` visits the nodes of the own tree of a space:
each table once, after everything below it, and each mapped frame once.
-/

namespace Eonos.Spaces

open Eonos.Vmm
open Eonos.Lib.TableTree

/-- A table of the user half, or a frame mapped there, by the path to it. -/
structure Node (s : Vmm.State) (space : BitVec 64) (path : List (Fin 512))
    (f : BitVec 64) : Prop where
  own : Own path
  here : s.tableAt space path = some f ∨
    ∃ i front t, path = i :: front ∧ front.length = 3 ∧
      s.tableAt space front = some t ∧ has (s.read t i) present = true ∧
      s.read t i &&& addrMask = f

/-- No frame is two nodes. -/
def NodesApart (s : Vmm.State) (space : BitVec 64) : Prop :=
  ∀ first second f, Node s space first f → Node s space second f →
    first = second

theorem suffix_cases {path whole : List (Fin 512)} (below : path <:+ whole) :
    whole = path ∨ ∃ i, i :: path <:+ whole := by
  obtain ⟨front, rfl⟩ := below
  rcases List.eq_nil_or_concat front with rfl | ⟨rest, i, rfl⟩
  · exact .inl rfl
  · refine .inr ⟨i, rest, ?_⟩
    simp

section

variable {s : Vmm.State} {space t : BitVec 64} {path : List (Fin 512)}

/-- Tables only lie above the fourth level. -/
theorem tableAt_length {t : BitVec 64}
    (found : s.tableAt space path = some t) : path.length ≤ 3 := by
  cases path with
  | nil => exact Nat.zero_le _
  | cons i path =>
    obtain ⟨u, -, leads⟩ := Option.bind_eq_some_iff.mp found
    have upper := (child_some leads).1
    rw [List.length_cons]
    omega

variable {i : Fin 512}

theorem Node.parent {whole : List (Fin 512)} {f : BitVec 64} (node : Node s space whole f)
    (below : i :: path <:+ whole) :
    ∃ t, s.tableAt space path = some t ∧ has (s.read t i) present = true := by
  have above : ∀ {u}, s.tableAt space (i :: path) = some u →
      ∃ t, s.tableAt space path = some t ∧
        has (s.read t i) present = true := by
    intro u found
    obtain ⟨t, reached, leads⟩ := Option.bind_eq_some_iff.mp found
    exact ⟨t, reached, (child_some leads).2.1⟩
  rcases node.here with found | ⟨j, front, t, rfl, -, found, mapped, -⟩
  · obtain ⟨u, led⟩ := tableAt_suffix below found
    exact above led
  · rcases List.suffix_cons_iff.mp below with same | below
    · cases same
      exact ⟨t, found, mapped⟩
    · obtain ⟨u, led⟩ := tableAt_suffix below found
      exact above led

/-- The frames freed below a path: the nodes whose path ends in it. -/
def FreesBelow (s : Vmm.State) (space : BitVec 64) (path : List (Fin 512))
    (calls : List (BitVec 64)) : Prop :=
  calls.Nodup ∧
    ∀ f, f ∈ calls ↔ ∃ whole, path <:+ whole ∧ Node s space whole f

/-- The loop over one table, and the table itself after it. -/
theorem freesBelow_table (apart : NodesApart s space) (own : Own path)
    (reached : s.tableAt space path = some t) {slots : List (Fin 512)} (slotsNodup : slots.Nodup)
    (slotsOwn : ∀ i, i ∈ slots ↔ Own (i :: path)) {sub : Fin 512 → List (BitVec 64)}
    (subs : ∀ i, Own (i :: path) → FreesBelow s space (i :: path) (sub i)) :
    FreesBelow s space path (slots.flatMap sub ++ [t]) := by
  have root : Node s space path t := ⟨own, .inl reached⟩
  have longer : ∀ {i : Fin 512} {whole}, i :: path <:+ whole → whole ≠ path := by
    rintro i whole below rfl
    have size := below.length_le
    simp only [List.length_cons] at size
    omega
  constructor
  · rw [List.nodup_append]
    refine ⟨?_, List.nodup_singleton t, ?_⟩
    · refine List.nodup_flatMap.mpr ⟨?_, ?_⟩
      · intro i member
        exact (subs i ((slotsOwn i).mp member)).1
      · refine slotsNodup.imp_of_mem ?_
        intro i j one two distinct f left right
        obtain ⟨first, belowFirst, node⟩ :=
          ((subs i ((slotsOwn i).mp one)).2 f).mp left
        obtain ⟨second, belowSecond, again⟩ :=
          ((subs j ((slotsOwn j).mp two)).2 f).mp right
        have same := apart _ _ _ node again
        subst same
        -- two suffixes of one path with the same length
        have equal := List.suffix_of_suffix_length_le belowFirst belowSecond (by simp)
        have lists := equal.eq_of_length (by simp)
        exact distinct (List.cons.inj lists).1
    · intro f inside g last
      cases List.mem_singleton.mp last
      rintro rfl
      obtain ⟨i, member, inside⟩ := List.mem_flatMap.mp inside
      obtain ⟨whole, below, node⟩ :=
        ((subs i ((slotsOwn i).mp member)).2 f).mp inside
      exact longer below (apart _ _ _ node root)
  · intro f
    rw [List.mem_append, List.mem_singleton, List.mem_flatMap]
    constructor
    · rintro (⟨i, member, inside⟩ | rfl)
      · obtain ⟨whole, below, node⟩ :=
          ((subs i ((slotsOwn i).mp member)).2 f).mp inside
        exact ⟨whole, (List.suffix_cons i path).trans below, node⟩
      · exact ⟨path, List.suffix_refl _, root⟩
    · rintro ⟨whole, below, node⟩
      rcases suffix_cases below with rfl | ⟨i, further⟩
      · rcases node.here with found | ⟨i, front, u, rfl, size, -⟩
        · rw [reached] at found
          exact .inr (Option.some.inj found).symm
        · have short := tableAt_length reached
          rw [List.length_cons] at short
          omega
      · have ownSlot := node.own.suffix further
        refine .inl ⟨i, (slotsOwn i).mpr ownSlot, ?_⟩
        exact ((subs i ownSlot).2 f).mpr ⟨whole, further, node⟩

theorem freesBelow_absent (reached : s.tableAt space path = some t)
    (absent : has (s.read t i) present = false) : FreesBelow s space (i :: path) [] := by
  refine ⟨List.nodup_nil, fun f => iff_of_false List.not_mem_nil ?_⟩
  rintro ⟨whole, below, node⟩
  obtain ⟨u, found, mapped⟩ := node.parent below
  rw [reached] at found
  cases found
  rw [absent] at mapped
  cases mapped

theorem freesBelow_leaf (own : Own (i :: path)) (size : path.length = 3)
    (reached : s.tableAt space path = some t) (mapped : has (s.read t i) present = true) :
    FreesBelow s space (i :: path) [s.read t i &&& addrMask] := by
  refine ⟨List.nodup_singleton _, fun f => ?_⟩
  rw [List.mem_singleton]
  constructor
  · rintro rfl
    exact ⟨i :: path, List.suffix_refl _, own, .inr ⟨i, path, t, rfl, size, reached, mapped, rfl⟩⟩
  · rintro ⟨whole, below, node⟩
    have long := below.length_le
    rw [List.length_cons, size] at long
    rcases node.here with found | ⟨j, front, u, rfl, length, found, -, rfl⟩
    · have short := tableAt_length found
      omega
    · have same := below.eq_of_length (by
        rw [List.length_cons, List.length_cons, size, length])
      cases same
      rw [reached] at found
      cases found
      rfl

variable (wf : Wf space s) (free : HugeFree s space)
  (apart : NodesApart s space)

include apart

theorem freePt_frees (own : Own path) (size : path.length = 3)
    (reached : s.tableAt space path = some t) : FreesBelow s space path (freePt s.mem t) := by
  have below : path ≠ [] := by
    rintro rfl
    cases size
  refine freesBelow_table apart own reached (List.nodup_finRange 512)
    (fun i => iff_of_true (List.mem_finRange i) (own.cons below)) ?_
  intro i ownSlot
  change FreesBelow s space (i :: path)
    (if has (s.read t i) present then [s.read t i &&& addrMask] else [])
  cases mapped : has (s.read t i) present with
  | true =>
    rw [if_pos rfl]
    exact freesBelow_leaf ownSlot size reached mapped
  | false =>
    rw [if_neg Bool.false_ne_true]
    exact freesBelow_absent reached mapped

include free

/-- One level up: the loop descends into every table it finds. -/
theorem freesBelow_upper (sub bigPage : BitVec 64 → List (BitVec 64)) (own : Own path)
    (below : path ≠ []) (upper : path.length < 3) (reached : s.tableAt space path = some t)
    (subs : ∀ i u, Own (i :: path) → s.tableAt space (i :: path) = some u →
      FreesBelow s space (i :: path) (sub u)) :
    FreesBelow s space path
      ((List.finRange 512).flatMap (fun i =>
        let e := readEntry s.mem t i
        if !has e present then []
        else if has e huge then bigPage e
        else sub (e &&& addrMask)) ++ [t]) := by
  refine freesBelow_table apart own reached (List.nodup_finRange 512)
    (fun i => iff_of_true (List.mem_finRange i) (own.cons below)) ?_
  intro i ownSlot
  change FreesBelow s space (i :: path) (if !has (s.read t i) present then []
      else if has (s.read t i) huge then bigPage (s.read t i)
      else sub (s.read t i &&& addrMask))
  cases mapped : has (s.read t i) present with
  | false =>
    rw [Bool.not_false, if_pos rfl]
    exact freesBelow_absent reached mapped
  | true =>
    have flat := free path t i own upper reached mapped
    rw [Bool.not_true, if_neg Bool.false_ne_true, flat, if_neg Bool.false_ne_true]
    refine subs i _ ownSlot ?_
    rw [State.tableAt, tableAt_cons reached, child_table upper mapped flat]

theorem freePd_frees (own : Own path) (size : path.length = 2)
    (reached : s.tableAt space path = some t) : FreesBelow s space path (freePd s.mem t) := by
  unfold freePd
  refine freesBelow_upper free apart (freePt s.mem)
    (fun e => [e &&& huge2mMask]) own ?_ (by omega) reached ?_
  · rintro rfl
    cases size
  · intro i u ownSlot found
    exact freePt_frees apart ownSlot (by rw [List.length_cons, size]) found

theorem freePdpt_frees (own : Own path) (size : path.length = 1)
    (reached : s.tableAt space path = some t) : FreesBelow s space path (freePdpt s.mem t) := by
  unfold freePdpt
  refine freesBelow_upper free apart (freePd s.mem)
    (fun e => [e &&& huge1gMask]) own ?_ (by omega) reached ?_
  · rintro rfl
    cases size
  · intro i u ownSlot found
    exact freePd_frees free apart ownSlot (by rw [List.length_cons, size]) found

include wf

theorem freeSlot_frees (own : Own [i]) :
    FreesBelow s space [i]
      (if has (s.read space i) present then
        freePdpt s.mem (s.read space i &&& addrMask) else []) := by
  have root : s.tableAt space [] = some space := rfl
  cases mapped : has (s.read space i) present with
  | false =>
    rw [if_neg Bool.false_ne_true]
    exact freesBelow_absent root mapped
  | true =>
    rw [if_pos rfl]
    refine freePdpt_frees free apart own rfl ?_
    rw [State.tableAt, tableAt_cons root]
    exact child_table (by decide) mapped (wf.topTables i mapped)

theorem freeUserHalf_frees : FreesBelow s space [] (freeUserHalf s.mem space) := by
  have root : s.tableAt space [] = some space := rfl
  have slots : ∀ i : Fin 512,
      i ∈ (List.finRange 512).filter (fun i => i.val < kernelPml4Start) ↔
        Own [i] := by
    intro i
    rw [List.mem_filter, own_singleton, decide_eq_true_iff, kernelPml4Start]
    exact and_iff_right (List.mem_finRange i)
  exact freesBelow_table apart own_nil root
    ((List.nodup_finRange 512).filter _) slots
    (fun i own => freeSlot_frees wf free apart own)

end

/-! ### The nodes are the records -/

theorem exists_page {path : List (Fin 512)} (own : Own path)
    (size : path.length = 4) : ∃ page, UserPage page ∧ indices page 4 = path := by
  obtain ⟨i3, i2, i1, i0, rfl⟩ : ∃ i3 i2 i1 i0, path = [i3, i2, i1, i0] := by
    match path, size with
    | [i3, i2, i1, i0], _ => exact ⟨i3, i2, i1, i0, rfl⟩
  have low : i0.val < 256 := own i0 rfl
  have bound1 := i1.isLt
  have bound2 := i2.isLt
  have bound3 := i3.isLt
  let address := ((i0.val * 512 + i1.val) * 512 + i2.val) * 512 + i3.val
  have value : (BitVec.ofNat 64 (address * 4096)).toNat = address * 4096 := by
    rw [BitVec.toNat_ofNat]
    exact Nat.mod_eq_of_lt (by omega)
  refine ⟨BitVec.ofNat 64 (address * 4096), ⟨?_, ?_⟩, ?_⟩
  · rw [value]
    omega
  · rw [value]
    omega
  · have level : ∀ (l : Nat) (i : Fin 512),
        address * 4096 / 2 ^ (39 - l * 9) % 512 = i.val →
          index (BitVec.ofNat 64 (address * 4096)) l = i := by
      intro l i equal
      apply Fin.ext
      rw [index_val, value, equal]
    simp only [indices]
    rw [level 3 i3 (by norm_num; omega), level 2 i2 (by norm_num; omega),
      level 1 i1 (by norm_num; omega), level 0 i0 (by norm_num; omega)]

section

variable {sys : System} {space : BitVec 64}

theorem SpaceInv.node_iff (inv : SpaceInv sys space) (wf : Wf space sys.view)
    {path : List (Fin 512)} {f : BitVec 64} :
    Node sys.view space path f ↔
      (Own path ∧ sys.view.tableAt space path = some f) ∨
        ∃ page, UserPage page ∧ indices page 4 = path ∧
          walk sys.view space page = some f := by
  constructor
  · rintro ⟨own, found | ⟨i, front, t, rfl, size, found, mapped, rfl⟩⟩
    · exact .inl ⟨own, found⟩
    · obtain ⟨page, user, way⟩ :=
        exists_page own (by rw [List.length_cons, size])
      refine .inr ⟨page, user, way, ?_⟩
      rw [indices_succ] at way
      obtain ⟨last, front⟩ := List.cons.inj way
      refine (inv.hugeFree.walk_some wf user).mpr ⟨t, ?_, ?_, ?_⟩
      · rw [front]
        exact found
      · rw [last]
        exact mapped
      · rw [last]
  · rintro (⟨own, found⟩ | ⟨page, user, rfl, mapped⟩)
    · exact ⟨own, .inl found⟩
    · obtain ⟨pt, reached, present, address⟩ :=
        (inv.hugeFree.walk_some wf user).mp mapped
      exact ⟨own_indices.mpr (index_user user.1),
        .inr ⟨_, _, pt, rfl, length_indices _ _, reached, present, address⟩⟩

theorem Inv.nodesApart (inv : Inv sys) (member : space ∈ sys.spaces) :
    NodesApart sys.view space := by
  have records := inv.space space member
  have wf := inv.wf member
  have parts : (sys.tables space ++ sys.mapped space).Nodup :=
    (List.nodup_flatMap.mp (List.nodup_append.mp inv.ledger).2.1).1 _ member
  have exclusive : ∀ {path page f}, Own path →
      sys.view.tableAt space path = some f → UserPage page →
        walk sys.view space page = some f → False := by
    intro path page f own found user mapped
    exact (List.nodup_append.mp parts).2.2 f ((records.tables f).mpr ⟨path, own, found⟩) f
      ((records.frames f).mpr ⟨page, user, mapped⟩) rfl
  intro first second f one two
  rcases (records.node_iff wf).mp one with
    ⟨own, found⟩ | ⟨page, user, rfl, mapped⟩
  · rcases (records.node_iff wf).mp two with
      ⟨otherOwn, otherFound⟩ | ⟨page, user, rfl, mapped⟩
    · exact wf.apart found otherFound
    · exact (exclusive own found user mapped).elim
  · rcases (records.node_iff wf).mp two with
      ⟨otherOwn, otherFound⟩ | ⟨otherPage, otherUser, rfl, otherMapped⟩
    · exact (exclusive otherOwn otherFound user mapped).elim
    · rw [records.once page otherPage f user otherUser mapped otherMapped]

/-- Dropping a space makes one call for each of its frames. -/
theorem Inv.freeUserHalf_perm (inv : Inv sys) (member : space ∈ sys.spaces) :
    (freeUserHalf sys.machine.mem space).Perm (sys.tables space ++ sys.mapped space) := by
  have records := inv.space space member
  have wf := inv.wf member
  have parts : (sys.tables space ++ sys.mapped space).Nodup :=
    (List.nodup_flatMap.mp (List.nodup_append.mp inv.ledger).2.1).1 _ member
  obtain ⟨nodup, members⟩ :=
    freeUserHalf_frees wf records.hugeFree (inv.nodesApart member)
  refine (List.perm_ext_iff_of_nodup nodup parts).mpr fun f => ?_
  rw [members, List.mem_append, records.tables, records.frames]
  constructor
  · rintro ⟨path, -, node⟩
    rcases (records.node_iff wf).mp node with
      ⟨own, found⟩ | ⟨page, user, -, mapped⟩
    · exact .inl ⟨path, own, found⟩
    · exact .inr ⟨page, user, mapped⟩
  · rintro (⟨path, own, found⟩ | ⟨page, user, mapped⟩)
    · exact ⟨path, List.nil_suffix, (records.node_iff wf).mpr (.inl ⟨own, found⟩)⟩
    · exact ⟨_, List.nil_suffix, (records.node_iff wf).mpr (.inr ⟨page, user, rfl, mapped⟩)⟩

end

/-! ### The calls -/

/-- Each call of a sequence of `free_frame` is accepted when it is made. -/
def Accepted (m : Machine) (calls : List (BitVec 64)) : Prop :=
  ∀ front frame back, calls = front ++ frame :: back →
    ((front.foldl Machine.freeFrame m).frames.pmm.free frame.toNat 1).1 =
      .ok ()

theorem freeFrames_mem (calls : List (BitVec 64)) (m : Machine) :
    (calls.foldl Machine.freeFrame m).mem = m.mem := by
  induction calls generalizing m with
  | nil => rfl
  | cons first rest induction => exact induction (m.freeFrame first)

theorem Machine.dropSpace_mem (m : Machine) (pml4 : BitVec 64) : (m.dropSpace pml4).mem = m.mem :=
  freeFrames_mem (freeUserHalf m.mem pml4) m

theorem freeFrames_spec {m : Machine} {calls : List (BitVec 64)} (sound : m.Sound)
    (nodup : calls.Nodup) (lent : ∀ frame ∈ calls, m.Lent frame) :
    (calls.foldl Machine.freeFrame m).Sound ∧ Accepted m calls ∧
      ∀ frame, (calls.foldl Machine.freeFrame m).Lent frame ↔
        m.Lent frame ∧ frame ∉ calls := by
  induction calls generalizing m with
  | nil =>
    refine ⟨sound, ?_, by simp⟩
    intro front frame back split
    simp at split
  | cons first rest induction =>
    obtain ⟨fresh, restNodup⟩ := List.nodup_cons.mp nodup
    obtain ⟨after, accepted, left⟩ :=
      sound.freeFrame (lent first List.mem_cons_self)
    have restLent : ∀ frame ∈ rest, (m.freeFrame first).Lent frame := by
      intro frame member
      refine left.mpr ⟨lent frame (List.mem_cons_of_mem _ member), ?_⟩
      rintro rfl
      exact fresh member
    obtain ⟨final, others, members⟩ := induction after restNodup restLent
    refine ⟨final, ?_, ?_⟩
    · intro front frame back split
      cases front with
      | nil =>
        cases split
        exact accepted
      | cons head front =>
        obtain ⟨same, others_split⟩ := List.cons.inj split
        cases same
        exact others front frame back others_split
    · intro frame
      rw [List.foldl_cons, members, left, List.mem_cons]
      tauto

end Eonos.Spaces
