import Eonos.Process.Model

/-!
# The process table and its history

What the records of the table say about the history of a run: every child that
was spawned has one record until its status is taken, and the record carries
the code it exited with.
-/

namespace Eonos.Process

/-! ### Single operations -/

theorem register_fresh {procs : List Record} {pid parent : Nat}
    {name : String} (fresh : ∀ r ∈ procs, r.pid ≠ pid) :
    register procs pid parent name = procs ++ [⟨pid, parent, name, none⟩] := by
  have absent : procs.find? (fun r => r.pid == pid) = none := by
    rw [List.find?_eq_none]
    intro r member
    simp [fresh r member]
  rw [register, absent]

theorem exitCurrent_found {procs : List Record} {r : Record} (code : Int)
    (nodup : (procs.map Record.pid).Nodup) (member : r ∈ procs) :
    ∃ before after, procs = before ++ r :: after ∧
      exitCurrent procs r.pid code =
        before ++ { r with status := some code } :: after := by
  obtain ⟨found, first⟩ : ∃ found, procs.find? (fun other => other.pid == r.pid) = some found := by
    rw [← Option.isSome_iff_exists, List.find?_isSome]
    exact ⟨r, member, beq_self_eq_true _⟩
  have same : found = r := by
    have pid := List.find?_some first
    exact List.inj_on_of_nodup_map nodup (List.mem_of_find?_eq_some first) member (eq_of_beq pid)
  subst same
  obtain ⟨-, before, after, split, changed⟩ := Lib.updateFirst_found first
    fun r => { r with status := some code }
  refine ⟨before, after, split, ?_⟩
  rw [exitCurrent, first]
  exact changed

/-- What `take_child_exit_status` comes to. -/
inductive Takes (procs : List Record) (parent : Nat) (target : BitVec 64) :
    Except Unit (Option (Nat × Int)) → List Record → Prop
  | noChild (others : ∀ r ∈ procs, r.isChild parent target = false) :
      Takes procs parent target (.error ()) procs
  | running (child : ∃ r ∈ procs, r.isChild parent target = true)
      (alive : ∀ r ∈ procs, r.isChild parent target = true →
        r.status = none) :
      Takes procs parent target (.ok none) procs
  | exited (r : Record) (rest : List Record) (status : Int)
      (child : r.isChild parent target = true)
      (ended : r.status = some status) (perm : procs.Perm (r :: rest)) :
      Takes procs parent target (.ok (some (r.pid, status))) rest

theorem takeChildExitStatus_takes (procs : List Record) (parent : Nat) (target : BitVec 64) :
    ∃ result rest, takeChildExitStatus procs parent target =
      some (result, rest) ∧ Takes procs parent target result rest := by
  unfold takeChildExitStatus
  cases children : procs.any (Record.isChild parent target) with
  | false =>
    refine ⟨.error (), procs, rfl, .noChild ?_⟩
    intro r member
    exact Bool.eq_false_iff.mpr (List.any_eq_false.mp children r member)
  | true =>
    obtain ⟨r, member, child⟩ := List.any_eq_true.mp children
    cases found : procs.findIdx? fun r =>
        r.isChild parent target && r.status.isSome with
    | none =>
      refine ⟨.ok none, procs, rfl, .running ⟨r, member, child⟩ ?_⟩
      intro other here also
      have refused := List.findIdx?_eq_none_iff.mp found other here
      rw [also, Bool.true_and] at refused
      exact Option.not_isSome_iff_eq_none.mp (Bool.eq_false_iff.mp refused)
    | some i =>
      obtain ⟨record, rest, removed, holds, perm⟩ :=
        Lib.swapRemove_findIdx found
      obtain ⟨isChild, ended⟩ := Bool.and_eq_true_iff.mp holds
      obtain ⟨status, code⟩ := Option.isSome_iff_exists.mp ended
      refine ⟨.ok (.some (record.pid, status)), rest, ?_,
        .exited record rest status isChild code perm⟩
      simp [removed, code]

/-! ### The books -/

/-- The table and the logs agree. -/
structure Books (w : World) : Prop where
  pids : (w.procs.map Record.pid).Nodup
  tasks : (w.alive.map Task.pid).Nodup
  ids : ∀ pair ∈ w.spawned, 0 < pair.2 ∧ pair.2 < w.nextId
  children : (w.spawned.map Prod.snd).Nodup
  exits : (w.exited.map Prod.fst).Nodup
  exitedChild : ∀ pair ∈ w.exited, pair.1 ∈ w.spawned.map Prod.snd
  codes : ∀ pair ∈ w.exited, 0 ≤ pair.2 ∧ pair.2 < 256
  once : (w.taken.map Delivery.child).Nodup
  /-- A child has a record until its status is taken. -/
  kept : ∀ child ∈ w.spawned.map Prod.snd, child ∉ w.taken.map Delivery.child →
    child ∈ w.procs.map Record.pid
  parent : ∀ r ∈ w.procs, (r.parent, r.pid) ∈ w.spawned
  status : ∀ r ∈ w.procs, ∀ code, r.status = some code ↔
    (r.pid, code) ∈ w.exited
  running : ∀ t ∈ w.alive, ∃ r ∈ w.procs, r.pid = t.pid ∧ r.status = none
  taken : ∀ d ∈ w.taken, (d.waiter, d.child) ∈ w.spawned ∧
    (d.child, d.status) ∈ w.exited ∧ d.child ∉ w.procs.map Record.pid

section

variable {w : World}

/-- A change of memory, or of what a process is doing, is none of the
table's. -/
theorem Books.elsewhere (books : Books w) {later : World} (procs : later.procs = w.procs)
    (tasks : later.alive.map Task.pid = w.alive.map Task.pid) (nextId : w.nextId ≤ later.nextId)
    (spawned : later.spawned = w.spawned) (exited : later.exited = w.exited)
    (taken : later.taken = w.taken) : Books later := by
  constructor
  · rw [procs]
    exact books.pids
  · rw [tasks]
    exact books.tasks
  · rw [spawned]
    intro pair member
    obtain ⟨positive, below⟩ := books.ids pair member
    exact ⟨positive, Nat.lt_of_lt_of_le below nextId⟩
  · rw [spawned]
    exact books.children
  · rw [exited]
    exact books.exits
  · rw [exited, spawned]
    exact books.exitedChild
  · rw [exited]
    exact books.codes
  · rw [taken]
    exact books.once
  · rw [spawned, taken, procs]
    exact books.kept
  · rw [procs, spawned]
    exact books.parent
  · rw [procs, exited]
    exact books.status
  · intro t member
    obtain ⟨same, here, pid⟩ := List.mem_map.mp (tasks ▸ List.mem_map_of_mem (f := Task.pid) member)
    rw [procs, ← pid]
    exact books.running same here
  · rw [taken, spawned, exited, procs]
    exact books.taken

theorem Books.record_lt (books : Books w) {r : Record} (member : r ∈ w.procs) : r.pid < w.nextId :=
  (books.ids _ (books.parent r member)).2

theorem Books.spawned_lt (books : Books w) {child : Nat}
    (member : child ∈ w.spawned.map Prod.snd) : child < w.nextId := by
  obtain ⟨pair, here, rfl⟩ := List.mem_map.mp member
  exact (books.ids pair here).2

theorem Books.spawn (books : Books w) (parent : Nat) (path : String) (space : BitVec 64)
    (positive : 0 < w.nextId) : Books (w.spawn parent path space) := by
  have fresh : ∀ r ∈ w.procs, r.pid ≠ w.nextId := fun r member =>
    Nat.ne_of_lt (books.record_lt member)
  have newChild : w.nextId ∉ w.spawned.map Prod.snd := fun member =>
    Nat.lt_irrefl _ (books.spawned_lt member)
  have procs : (w.spawn parent path space).procs =
      w.procs ++ [⟨w.nextId, parent, path, none⟩] := register_fresh fresh
  have records : ∀ r ∈ (w.spawn parent path space).procs,
      r ∈ w.procs ∨ r = ⟨w.nextId, parent, path, none⟩ := by
    intro r member
    rw [procs] at member
    rcases List.mem_append.mp member with old | new
    · exact .inl old
    · exact .inr (List.mem_singleton.mp new)
  have older : ∀ r ∈ w.procs, r ∈ (w.spawn parent path space).procs := by
    intro r member
    rw [procs]
    exact List.mem_append_left _ member
  have newest : (⟨w.nextId, parent, path, none⟩ : Record) ∈ (w.spawn parent path space).procs := by
    rw [procs]
    exact List.mem_append_right _ (List.mem_singleton_self _)
  constructor
  · rw [procs, List.map_append, List.nodup_append]
    refine ⟨books.pids, List.nodup_singleton _, ?_⟩
    intro pid one other two
    obtain ⟨r, member, rfl⟩ := List.mem_map.mp one
    rw [List.mem_singleton.mp two]
    exact fresh r member
  · refine List.nodup_cons.mpr ⟨?_, books.tasks⟩
    intro member
    obtain ⟨t, here, pid⟩ := List.mem_map.mp member
    obtain ⟨r, record, same, -⟩ := books.running t here
    exact fresh r record (same.trans pid)
  · intro pair member
    rcases List.mem_cons.mp member with rfl | old
    · exact ⟨positive, Nat.lt_succ_self _⟩
    · obtain ⟨above, below⟩ := books.ids pair old
      exact ⟨above, Nat.lt_succ_of_lt below⟩
  · exact List.nodup_cons.mpr ⟨newChild, books.children⟩
  · exact books.exits
  · exact fun pair member =>
      List.mem_cons_of_mem _ (books.exitedChild pair member)
  · exact books.codes
  · exact books.once
  · intro child member untaken
    rcases List.mem_cons.mp member with rfl | old
    · exact List.mem_map_of_mem newest
    · obtain ⟨r, here, rfl⟩ := List.mem_map.mp (books.kept child old untaken)
      exact List.mem_map_of_mem (older r here)
  · intro r member
    rcases records r member with old | rfl
    · exact List.mem_cons_of_mem _ (books.parent r old)
    · exact List.mem_cons_self
  · intro r member code
    rcases records r member with old | rfl
    · exact books.status r old code
    · refine ⟨nofun, fun exited => absurd (books.exitedChild _ exited) ?_⟩
      exact newChild
  · intro t member
    rcases List.mem_cons.mp member with rfl | old
    · exact ⟨_, newest, rfl, rfl⟩
    · obtain ⟨r, here, same⟩ := books.running t old
      exact ⟨r, older r here, same⟩
  · intro d member
    obtain ⟨spawned, exited, gone⟩ := books.taken d member
    refine ⟨List.mem_cons_of_mem _ spawned, exited, ?_⟩
    intro again
    obtain ⟨r, here, pid⟩ := List.mem_map.mp again
    rcases records r here with old | rfl
    · exact gone (pid ▸ List.mem_map_of_mem old)
    · refine newChild ?_
      rw [show w.nextId = d.child from pid]
      exact List.mem_map_of_mem (f := Prod.snd) spawned

theorem Cause.code_range (cause : Cause) : 0 ≤ cause.code ∧ cause.code < 256 := by
  cases cause with
  | exit rdi =>
    have small : (rdi &&& 0xff#64).toNat ≤ 0xff := by
      rw [BitVec.toNat_and]
      exact Nat.and_le_right
    simp only [code]
    omega
  | kill hard => cases hard <;> simp [code]
  | fault vector =>
    have small := vector.isLt
    simp only [code]
    split <;> omega

theorem Books.exit (books : Books w) {t : Task} (alive : t ∈ w.alive)
    (cause : Cause) : Books (w.exit t cause) := by
  obtain ⟨r, member, pid, runs⟩ := books.running t alive
  obtain ⟨before, after, split, changed⟩ :=
    exitCurrent_found cause.code books.pids member
  have procs : (w.exit t cause).procs =
      before ++ { r with status := some cause.code } :: after := by
    rw [← changed, pid]
    rfl
  have pids : (w.exit t cause).procs.map Record.pid =
      w.procs.map Record.pid := by
    rw [procs, split, List.map_append, List.map_append]
    rfl
  have records : ∀ other ∈ (w.exit t cause).procs,
      other = { r with status := some cause.code } ∨
        other ∈ w.procs ∧ other.pid ≠ r.pid := by
    intro other here
    have nodup := books.pids
    rw [split, List.map_append, List.map_cons, List.nodup_middle,
      List.nodup_cons, ← List.map_append] at nodup
    rw [procs, List.mem_append, List.mem_cons, or_left_comm, ← List.mem_append] at here
    rcases here with new | old
    · exact .inl new
    · refine .inr ⟨?_, fun same => nodup.1 ?_⟩
      · rw [split, List.mem_append, List.mem_cons, or_left_comm, ← List.mem_append]
        exact .inr old
      · rw [← same]
        exact List.mem_map_of_mem old
  have spawned := books.parent r member
  have still : ∀ code, (t.pid, code) ∉ w.exited := by
    intro code exited
    have ended := (books.status r member code).mpr (pid ▸ exited)
    rw [runs] at ended
    cases ended
  constructor
  · rw [pids]
    exact books.pids
  · exact books.tasks.sublist (List.filter_sublist.map Task.pid)
  · exact books.ids
  · exact books.children
  · refine List.nodup_cons.mpr ⟨?_, books.exits⟩
    intro again
    obtain ⟨⟨child, code⟩, exited, same⟩ := List.mem_map.mp again
    rw [show child = t.pid from same] at exited
    exact still code exited
  · intro pair here
    rcases List.mem_cons.mp here with rfl | old
    · rw [← pid]
      exact List.mem_map_of_mem (f := Prod.snd) spawned
    · exact books.exitedChild pair old
  · intro pair here
    rcases List.mem_cons.mp here with rfl | old
    · exact cause.code_range
    · exact books.codes pair old
  · exact books.once
  · rw [pids]
    exact books.kept
  · intro other here
    rcases records other here with rfl | ⟨old, -⟩
    · exact spawned
    · exact books.parent other old
  · intro other here code
    rcases records other here with rfl | ⟨old, apart⟩
    · change some cause.code = some code ↔ (r.pid, code) ∈ _ :: _
      rw [List.mem_cons, Option.some.injEq, pid, Prod.mk.injEq]
      constructor
      · exact fun same => .inl ⟨rfl, same.symm⟩
      · rintro (⟨-, same⟩ | exited)
        · exact same.symm
        · exact absurd exited (still code)
    · rw [books.status other old code]
      refine (List.mem_cons.trans (or_iff_right ?_)).symm
      intro same
      exact apart ((Prod.mk.inj same).1.trans pid.symm)
  · intro other here
    obtain ⟨old, apart⟩ := List.mem_filter.mp here
    obtain ⟨record, place, same, runs⟩ := books.running other old
    refine ⟨record, ?_, same, runs⟩
    rw [procs, List.mem_append, List.mem_cons, or_left_comm, ← List.mem_append]
    rw [split, List.mem_append, List.mem_cons, or_left_comm, ← List.mem_append] at place
    rcases place with rfl | place
    · rw [← same, pid] at apart
      exact absurd rfl (bne_iff_ne.mp apart)
    · exact .inr place
  · intro d here
    obtain ⟨spawned, exited, gone⟩ := books.taken d here
    rw [pids]
    exact ⟨spawned, List.mem_cons_of_mem _ exited, gone⟩

/-- The status of an exited child leaves the table. -/
theorem Books.take (books : Books w) {waiter : Nat} {r : Record}
    {rest : List Record} {status : Int} (child : r.parent = waiter)
    (ended : r.status = some status) (perm : w.procs.Perm (r :: rest)) :
    Books { w with
      procs := rest
      taken := ⟨waiter, r.pid, status⟩ :: w.taken } := by
  have member : r ∈ w.procs := perm.mem_iff.mpr List.mem_cons_self
  have older : ∀ other ∈ rest, other ∈ w.procs := fun other here =>
    perm.mem_iff.mpr (List.mem_cons_of_mem _ here)
  have nodup := (perm.map Record.pid).nodup_iff.mp books.pids
  obtain ⟨gone, nodup⟩ := List.nodup_cons.mp nodup
  have spawned := books.parent r member
  constructor
  · exact nodup
  · exact books.tasks
  · exact books.ids
  · exact books.children
  · exact books.exits
  · exact books.exitedChild
  · exact books.codes
  · refine List.nodup_cons.mpr ⟨?_, books.once⟩
    intro again
    obtain ⟨d, before, same⟩ := List.mem_map.mp again
    have absent := (books.taken d before).2.2
    rw [show d.child = r.pid from same] at absent
    exact absent (List.mem_map_of_mem member)
  · intro child here untaken
    obtain ⟨apart, untaken⟩ := not_or.mp (List.mem_cons.not.mp untaken)
    have kept := books.kept child here untaken
    rw [(perm.map Record.pid).mem_iff] at kept
    rcases List.mem_cons.mp kept with same | kept
    · exact absurd same apart
    · exact kept
  · exact fun other here => books.parent other (older other here)
  · exact fun other here => books.status other (older other here)
  · intro t here
    obtain ⟨record, place, same, runs⟩ := books.running t here
    refine ⟨record, ?_, same, runs⟩
    rcases List.mem_cons.mp (perm.mem_iff.mp place) with rfl | kept
    · rw [runs] at ended
      cases ended
    · exact kept
  · intro d here
    rcases List.mem_cons.mp here with rfl | before
    · refine ⟨child ▸ spawned, (books.status r member status).mp ended, gone⟩
    · obtain ⟨spawned, exited, absent⟩ := books.taken d before
      refine ⟨spawned, exited, fun again => absent ?_⟩
      obtain ⟨other, place, same⟩ := List.mem_map.mp again
      exact same ▸ List.mem_map_of_mem (older other place)

end

end Eonos.Process
