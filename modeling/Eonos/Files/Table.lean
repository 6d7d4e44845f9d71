import Eonos.Files.Model

/-!
# The descriptor table

What one section of a call can do to the table, and what follows for every
interleaving: descriptors are unique, and a process works on its own only.
-/

namespace Eonos.Files

open Eonos.Terminal (OpenFile FsError errno fsErrno)

def key (file : OpenFile) : BitVec 64 × BitVec 64 := (file.pid, file.fd)

/-- `fd` is the least number from three on that `pid` does not use. -/
structure LeastFree (files : List OpenFile) (pid fd : BitVec 64) : Prop where
  above : 3 ≤ fd.toNat
  free : ∀ file ∈ files, file.pid = pid → file.fd ≠ fd
  least : ∀ below : BitVec 64, 3 ≤ below.toNat → below.toNat < fd.toNat →
    ∃ file ∈ files, file.pid = pid ∧ file.fd = below

theorem isFd_iff {pid fd : BitVec 64} {file : OpenFile} :
    isFd pid fd file = true ↔ file.pid = pid ∧ file.fd = fd := by
  rw [isFd, Bool.and_eq_true_iff, beq_iff_eq, beq_iff_eq]

/-- The number after three that the search tries in round `i`. -/
theorem candidate_val {i : Nat} (small : i ≤ vecLimit) :
    (BitVec.ofNat 64 (3 + i)).toNat = 3 + i := by
  rw [BitVec.toNat_ofNat]
  unfold vecLimit at small
  omega

/-- There are more numbers to try than descriptors, so the search ends. -/
theorem nextFd_found {files : List OpenFile} (pid : BitVec 64) (size : files.length ≤ vecLimit) :
    ∃ fd, ((List.range (files.length + 1)).map fun i =>
      BitVec.ofNat 64 (3 + i)).find? (fun fd => !files.any (isFd pid fd)) =
        some fd := by
  rw [← Option.isSome_iff_exists]
  by_contra none
  rw [Option.not_isSome_iff_eq_none, List.find?_eq_none] at none
  have used : (List.range (files.length + 1)).map
      (fun i => BitVec.ofNat 64 (3 + i)) ⊆ files.map (·.fd) := by
    intro fd member
    have taken := none fd member
    rw [Bool.not_eq_true', Bool.not_eq_false, List.any_eq_true] at taken
    obtain ⟨file, here, found⟩ := taken
    exact List.mem_map.mpr ⟨file, here, (isFd_iff.mp found).2⟩
  have nodup : ((List.range (files.length + 1)).map fun i => BitVec.ofNat 64 (3 + i)).Nodup := by
    refine List.Nodup.map_on ?_ List.nodup_range
    intro i one j two same
    have left := @candidate_val i (by rw [List.mem_range] at one; omega)
    have right := @candidate_val j (by rw [List.mem_range] at two; omega)
    rw [same, right] at left
    omega
  have length := (List.subperm_of_subset nodup used).length_le
  rw [List.length_map, List.length_map, List.length_range] at length
  omega

theorem nextFd_least {files : List OpenFile} (pid : BitVec 64) (size : files.length ≤ vecLimit) :
    LeastFree files pid (nextFd files pid) ∧ (nextFd files pid).toNat ≤ 3 + files.length := by
  obtain ⟨fd, found⟩ := nextFd_found pid size
  have value : nextFd files pid = fd := by
    rw [nextFd, found]
    rfl
  rw [value]
  obtain ⟨free, i, inside, same, earlier⟩ :=
    List.find?_eq_some_iff_getElem.mp found
  rw [List.length_map, List.length_range] at inside
  rw [List.getElem_map, List.getElem_range] at same
  have number : fd.toNat = 3 + i := by
    rw [← same]
    exact candidate_val (by omega)
  refine ⟨⟨by omega, ?_, ?_⟩, by omega⟩
  · intro file member own equal
    rw [Bool.not_eq_true', List.any_eq_false] at free
    exact free file member (isFd_iff.mpr ⟨own, equal⟩)
  · intro below three small
    have taken := earlier (below.toNat - 3) (by omega)
    rw [List.getElem_map, List.getElem_range, Bool.not_not, List.any_eq_true] at taken
    obtain ⟨file, member, used⟩ := taken
    obtain ⟨own, equal⟩ := isFd_iff.mp used
    refine ⟨file, member, own, equal.trans (BitVec.eq_of_toNat_eq ?_)⟩
    rw [candidate_val (by omega)]
    omega

/-! ### What a section does -/

/-- What a section of a call of `pid` can do to the table. -/
inductive Changes (pid : BitVec 64) (files : List OpenFile) :
    List OpenFile → Prop
  | same : Changes pid files files
  | installs (file : OpenFile) (own : file.pid = pid)
      (least : LeastFree files pid file.fd)
      (room : files.length < vecLimit) : Changes pid files (files ++ [file])
  | removes (file : OpenFile) (rest : List OpenFile) (own : file.pid = pid)
      (perm : files.Perm (file :: rest)) : Changes pid files rest
  | moves (before after : List OpenFile) (file : OpenFile) (offset : Nat)
      (own : file.pid = pid) (split : files = before ++ file :: after) :
      Changes pid files (before ++ { file with offset } :: after)

section

variable {FS : Type} {w : World FS} {pid : BitVec 64} {vfs : Vfs FS}
  {result : World FS × Outcome}

theorem install_changes {kind : Terminal.FdKind} {path : String} {offset : Nat}
    {flags : BitVec 64} {append : Bool} (size : w.files.length ≤ vecLimit)
    (installed : w.install pid kind path offset flags append = some result) :
    Changes pid w.files result.1.files ∧
      result.2 = .returns ⟨nextFd w.files pid, []⟩ ∧
      ∃ file, result.1.files = w.files ++ [file] ∧ file.pid = pid ∧
        file.fd = nextFd w.files pid := by
  obtain ⟨files, pushed, rfl⟩ := Option.map_eq_some_iff.mp installed
  obtain ⟨room, added⟩ := Option.ite_none_right_eq_some.mp pushed
  cases added
  exact ⟨.installs _ rfl (nextFd_least pid size).1 room, rfl, _, rfl, rfl, rfl⟩

variable {fd : BitVec 64} {copies : Bool}

theorem setOffset_changes {file : OpenFile} (found : w.files.find? (isFd pid fd) = some file)
    (offset : Nat) : Changes pid w.files (w.setOffset pid fd offset) := by
  obtain ⟨holds, before, after, split, changed⟩ :=
    Lib.updateFirst_found found fun file => { file with offset }
  rw [World.setOffset, changed]
  exact .moves before after file offset (isFd_iff.mp holds).1 split

theorem sysClose_changes (closed : w.sysClose pid fd = some result) :
    Changes pid w.files result.1.files := by
  unfold World.sysClose at closed
  split at closed
  case h_1 i found =>
    obtain ⟨file, rest, removed, holds, perm⟩ := Lib.swapRemove_findIdx found
    rw [removed] at closed
    cases closed
    exact .removes file rest (isFd_iff.mp holds).1 perm
  case h_2 =>
    cases closed
    exact .same

theorem sysOpen_changes {flags pathLen : BitVec 64}
    {bytes : Nat → UInt8} (size : w.files.length ≤ vecLimit)
    (opened : w.sysOpen pid flags pathLen copies bytes = some result) :
    Changes pid w.files result.1.files := by
  unfold World.sysOpen at opened
  split at opened
  case isTrue =>
    cases opened
    exact .same
  split at opened
  case isTrue =>
    cases opened
    exact .same
  split at opened
  case isTrue =>
    cases opened
    exact .same
  split at opened
  case h_1 =>
    cases opened
    exact .same
  split at opened
  case h_2 =>
    cases opened
    exact .same
  split at opened
  case isTrue =>
    cases opened
    exact .same
  exact (install_changes size opened).1

theorem sysRead_files {len : BitVec 64} {valid : Bool} {random : Nat → UInt8} {line : List UInt8} :
    (w.sysRead pid fd len valid copies random line).1 = w := by
  unfold World.sysRead
  dsimp only
  repeat' split
  all_goals rfl

theorem sysWrite_files {len : BitVec 64} {bytes : Nat → UInt8} :
    (w.sysWrite pid fd len copies bytes).1 = w := by
  unfold World.sysWrite
  dsimp only
  repeat' split
  all_goals rfl

theorem begin_changes {request : Request} (size : w.files.length ≤ vecLimit)
    (begun : w.begin pid request = some result) : Changes pid w.files result.1.files := by
  cases request with
  | «open» flags pathLen copies bytes => exact sysOpen_changes size begun
  | close fd => exact sysClose_changes begun
  | read fd len valid copies random line =>
    cases begun
    rw [sysRead_files]
    exact .same
  | write fd len copies bytes =>
    cases begun
    rw [sysWrite_files]
    exact .same

theorem finishRead_changes {n : Nat} (finished : w.finishRead vfs pid fd n copies = some result) :
    Changes pid w.files result.1.files := by
  unfold World.finishRead at finished
  split at finished
  case h_1 =>
    cases finished
    exact .same
  rename_i file found
  split at finished
  case h_1 =>
    cases finished
    exact .same
  split at finished
  case isTrue => cases finished
  split at finished
  case isTrue =>
    cases finished
    exact .same
  cases finished
  exact setOffset_changes found _

theorem finishWrite_changes {path : String} {offset : Nat} {append : Bool} {data : List UInt8} :
    Changes pid w.files (w.finishWrite vfs pid fd path offset append data).1.files := by
  unfold World.finishWrite
  split
  case h_1 => exact .same
  rename_i file found
  dsimp only
  split
  case h_1 => exact .same
  split
  case h_1 => exact .same
  exact setOffset_changes found _

theorem goOn_changes {call : Call} (size : w.files.length ≤ vecLimit)
    (went : w.goOn vfs pid call = some result) : Changes pid w.files result.1.files := by
  cases call with
  | idle => cases went
  | looking path flags =>
    simp only [World.goOn] at went
    split at went
    case h_1 =>
      cases went
      exact .same
    split at went
    all_goals
      cases went
      exact .same
  | creating path flags =>
    simp only [World.goOn] at went
    split at went
    all_goals
      cases went
      exact .same
  | truncating path flags size =>
    simp only [World.goOn] at went
    split at went
    all_goals
      cases went
      exact .same
  | installing path flags known => exact (install_changes size went).1
  | onTerminal copies line =>
    cases went
    exact .same
  | reading fd n copies => exact finishRead_changes went
  | writing fd path offset append data =>
    cases went
    exact finishWrite_changes

end

/-! ### What that keeps -/

section

variable {pid : BitVec 64} {files later : List OpenFile}

theorem Changes.size (changes : Changes pid files later)
    (size : files.length ≤ vecLimit) : later.length ≤ vecLimit := by
  cases changes with
  | same => exact size
  | installs file own least room =>
    rw [List.length_append, List.length_singleton]
    exact room
  | removes file rest own perm =>
    have length := perm.length_eq
    rw [List.length_cons] at length
    omega
  | moves before after file offset own split =>
    rw [split, List.length_append, List.length_cons] at size
    rw [List.length_append, List.length_cons]
    exact size

theorem Changes.nodup (changes : Changes pid files later)
    (nodup : (files.map key).Nodup) : (later.map key).Nodup := by
  cases changes with
  | same => exact nodup
  | installs file own least room =>
    rw [List.map_append, List.nodup_append]
    refine ⟨nodup, List.nodup_singleton _, ?_⟩
    intro one member two last same
    obtain ⟨other, here, rfl⟩ := List.mem_map.mp member
    rw [List.mem_singleton.mp last] at same
    obtain ⟨samePid, sameFd⟩ := Prod.mk.inj same
    exact least.free other here (samePid.trans own) sameFd
  | removes file rest own perm =>
    exact (List.nodup_cons.mp ((perm.map key).nodup_iff.mp nodup)).2
  | moves before after file offset own split =>
    rw [split, List.map_append, List.map_cons] at nodup
    rw [List.map_append, List.map_cons]
    exact nodup

/-- The entries of one process. -/
def owned (pid : BitVec 64) (files : List OpenFile) : List OpenFile :=
  files.filter fun file => file.pid == pid

theorem owned_append (pid : BitVec 64) (before after : List OpenFile) :
    owned pid (before ++ after) = owned pid before ++ owned pid after :=
  List.filter_append before after

variable {file : OpenFile} {other : BitVec 64}

theorem owned_cons_other (own : file.pid = pid) (apart : other ≠ pid) :
    owned other (file :: files) = owned other files := by
  refine List.filter_cons_of_neg ?_
  rw [beq_iff_eq]
  exact fun same => apart (same.symm.trans own)

theorem Changes.others (changes : Changes pid files later) (apart : other ≠ pid) :
    (owned other later).Perm (owned other files) := by
  cases changes with
  | same => exact List.Perm.refl _
  | installs file own least room =>
    rw [owned_append, owned_cons_other own apart]
    exact List.Perm.of_eq (List.append_nil _)
  | removes file rest own perm =>
    rw [← owned_cons_other own apart]
    exact (perm.filter _).symm
  | moves before after file offset own split =>
    rw [split, owned_append, owned_append, owned_cons_other own apart, owned_cons_other (show ({
      file with offset } : OpenFile).pid = pid from own) apart]

/-! ### Standard streams -/

theorem closeProcessFiles_none (member : file ∈ closeProcessFiles files pid) : file.pid ≠ pid :=
  bne_iff_ne.mp (List.mem_filter.mp member).2

theorem closeProcessFiles_others (apart : other ≠ pid) :
    owned other (closeProcessFiles files pid) = owned other files := by
  rw [owned, closeProcessFiles, List.filter_filter, owned]
  refine List.filter_congr fun file member => ?_
  by_cases same : file.pid = other
  · simp [same, apart]
  · simp [same]

theorem push_eq (pushed : push files file = some later) :
    files.length < vecLimit ∧ later = files ++ [file] := by
  obtain ⟨room, added⟩ := Option.ite_none_right_eq_some.mp pushed
  exact ⟨room, (Option.some.inj added).symm⟩

theorem initProcessFiles_eq (started : initProcessFiles files pid = some later) :
    ∃ streams : List OpenFile, later = closeProcessFiles files pid ++ streams ∧
      streams.map key = [(pid, 0), (pid, 1), (pid, 2)] ∧
      later.length ≤ vecLimit := by
  unfold initProcessFiles at started
  simp only [List.foldlM_cons, List.foldlM_nil, Option.bind_eq_bind,
    Option.bind_eq_some_iff] at started
  obtain ⟨one, first, two, second, three, third, last⟩ := started
  cases last
  obtain ⟨-, rfl⟩ := push_eq first
  obtain ⟨-, rfl⟩ := push_eq second
  obtain ⟨room, rfl⟩ := push_eq third
  refine ⟨_, by rw [List.append_assoc, List.append_assoc]; rfl, rfl, ?_⟩
  rw [List.length_append, List.length_singleton]
  exact room

theorem initProcessFiles_nodup (nodup : (files.map key).Nodup)
    (started : initProcessFiles files pid = some later) : (later.map key).Nodup := by
  obtain ⟨streams, rfl, keys, -⟩ := initProcessFiles_eq started
  rw [List.map_append, List.nodup_append]
  refine ⟨nodup.sublist (List.filter_sublist.map key), ?_, ?_⟩
  · rw [keys]
    simp
  · intro one member two last same
    obtain ⟨file, here, rfl⟩ := List.mem_map.mp member
    have own : two.1 = pid := by
      rw [keys] at last
      simp only [List.mem_cons, List.not_mem_nil, or_false] at last
      rcases last with rfl | rfl | rfl <;> rfl
    refine closeProcessFiles_none here ?_
    rw [← own, ← same]
    rfl

theorem initProcessFiles_others (apart : other ≠ pid)
    (started : initProcessFiles files pid = some later) :
    owned other later = owned other files := by
  obtain ⟨streams, rfl, keys, -⟩ := initProcessFiles_eq started
  have foreign : owned other streams = [] := by
    refine List.filter_eq_nil_iff.mpr fun file member => ?_
    have own : key file ∈ streams.map key := List.mem_map_of_mem member
    rw [keys] at own
    rw [beq_iff_eq]
    intro same
    simp only [List.mem_cons, List.not_mem_nil, or_false, key, Prod.mk.injEq] at own
    refine apart (same.symm.trans ?_)
    rcases own with own | own | own <;> exact own.1
  rw [owned_append, closeProcessFiles_others apart, foreign, List.append_nil]

end

/-! ### Every interleaving -/

/-- The process whose descriptors an event is about. -/
def Event.subject {FS : Type} : Event FS → Option (BitVec 64)
  | .init pid | .exit pid | .call pid _ | .goOn pid => some pid
  | .elsewhere _ => none

/-- `pid` is in `sys_open`. -/
def Event.Opens {FS : Type} (w : World FS) (pid : BitVec 64) :
    Event FS → Prop
  | .call caller (.open _ _ _ _) => caller = pid
  | .goOn caller => caller = pid ∧
      match w.calls pid with
      | .looking _ _ | .creating _ _ | .truncating _ _ _
      | .installing _ _ _ => True
      | _ => False
  | _ => False

/-- A negative value in `rax`. -/
def Reply.IsError (reply : Reply) : Prop := reply.rax.toInt < 0

structure Inv {FS : Type} (w : World FS) : Prop where
  nodup : (w.files.map key).Nodup
  size : w.files.length ≤ vecLimit

section

variable {FS : Type} {vfs : Vfs FS} {w later : World FS} {event : Event FS}
  {reply : Option Reply} {pid : BitVec 64}

theorem settle_files (pid : BitVec 64) (result : World FS × Outcome) :
    (World.settle pid result).1.files = result.1.files := by
  unfold World.settle
  split <;> rfl

theorem Inv.perform (inv : Inv w)
    (performed : w.perform vfs event = some (later, reply)) : Inv later := by
  have changed : ∀ {pid result}, Changes pid w.files result.1.files →
      World.settle pid result = (later, reply) → Inv later := by
    intro pid result changes same
    have files := settle_files pid result
    rw [same] at files
    constructor
    · rw [files]
      exact changes.nodup inv.nodup
    · rw [files]
      exact changes.size inv.size
  cases event with
  | init pid =>
    obtain ⟨files, started, same⟩ := Option.map_eq_some_iff.mp performed
    cases same
    obtain ⟨-, -, -, size⟩ := initProcessFiles_eq started
    exact ⟨initProcessFiles_nodup inv.nodup started, size⟩
  | exit pid =>
    cases performed
    exact ⟨inv.nodup.sublist (List.filter_sublist.map key),
      List.length_filter_le _ _ |>.trans inv.size⟩
  | call pid request =>
    obtain ⟨-, performed⟩ := Option.ite_none_right_eq_some.mp performed
    obtain ⟨result, begun, same⟩ := Option.map_eq_some_iff.mp performed
    exact changed (begin_changes inv.size begun) same
  | goOn pid =>
    obtain ⟨result, went, same⟩ := Option.map_eq_some_iff.mp performed
    exact changed (goOn_changes inv.size went) same
  | elsewhere fs =>
    cases performed
    exact ⟨inv.nodup, inv.size⟩

theorem Inv.others (inv : Inv w) (performed : w.perform vfs event = some (later, reply))
    (apart : event.subject ≠ some pid) : (owned pid later.files).Perm (owned pid w.files) := by
  have changed : ∀ {caller result}, Changes caller w.files result.1.files →
      caller ≠ pid → World.settle caller result = (later, reply) →
      (owned pid later.files).Perm (owned pid w.files) := by
    intro caller result changes apart same
    have files := settle_files caller result
    rw [same] at files
    rw [files]
    exact changes.others apart.symm
  cases event with
  | init caller =>
    obtain ⟨files, started, same⟩ := Option.map_eq_some_iff.mp performed
    cases same
    refine List.Perm.of_eq (initProcessFiles_others ?_ started)
    exact fun same => apart (congrArg some same.symm)
  | exit caller =>
    cases performed
    refine List.Perm.of_eq (closeProcessFiles_others ?_)
    exact fun same => apart (congrArg some same.symm)
  | call caller request =>
    obtain ⟨-, performed⟩ := Option.ite_none_right_eq_some.mp performed
    obtain ⟨result, begun, same⟩ := Option.map_eq_some_iff.mp performed
    exact changed (begin_changes inv.size begun) (fun same => apart (congrArg some same)) same
  | goOn caller =>
    obtain ⟨result, went, same⟩ := Option.map_eq_some_iff.mp performed
    exact changed (goOn_changes inv.size went) (fun same => apart (congrArg some same)) same
  | elsewhere fs =>
    cases performed
    exact List.Perm.refl _

/-! ### Opening -/

theorem error_negative {e : Nat} (positive : 0 < e) (small : e < 2 ^ 63) {reply : Reply}
    (same : Outcome.error e = .returns reply) : reply.IsError := by
  cases same
  rw [Reply.IsError, errno, BitVec.toInt_neg_iff]
  rw [BitVec.toNat_neg, BitVec.toNat_ofNat]
  omega

theorem fsError_negative {error : FsError} {reply : Reply}
    (same : Outcome.fsError error = .returns reply) : reply.IsError := by
  have negative : (fsErrno error).toInt < 0 := by
    cases error <;> decide
  cases same
  exact negative

/-- How a section of `sys_open` ends: with an error or another section to come
and the table as it was, or with a new descriptor. -/
structure OpenEnds (w : World FS) (pid : BitVec 64)
    (result : World FS × Outcome) : Prop where
  ends : ∀ reply, result.2 = .returns reply →
    reply.IsError ∧ result.1.files = w.files ∨
      LeastFree w.files pid reply.rax ∧ ∃ file,
        result.1.files = w.files ++ [file] ∧ file.pid = pid ∧
          file.fd = reply.rax

theorem OpenEnds.refused {e : Nat} (positive : 0 < e) (small : e < 2 ^ 63)
    (fs : FS) : OpenEnds w pid ({ w with fs }, .error e) :=
  ⟨fun _ same => .inl ⟨error_negative positive small same, rfl⟩⟩

theorem OpenEnds.failed (error : FsError) (fs : FS) :
    OpenEnds w pid ({ w with fs }, .fsError error) :=
  ⟨fun _ same => .inl ⟨fsError_negative same, rfl⟩⟩

theorem OpenEnds.sized (path : String) (flags : BitVec 64) (size : Nat)
    (fs : FS) : OpenEnds w pid ({ w with fs }, World.sized path flags size) := by
  refine ⟨fun reply same => ?_⟩
  unfold World.sized at same
  split at same <;> cases same

theorem OpenEnds.install {kind : Terminal.FdKind} {path : String} {offset : Nat} {flags : BitVec 64}
    {append : Bool} {result : World FS × Outcome} (size : w.files.length ≤ vecLimit)
    (installed : w.install pid kind path offset flags append = some result) :
    OpenEnds w pid result := by
  obtain ⟨-, outcome, added⟩ := install_changes size installed
  refine ⟨fun reply same => .inr ?_⟩
  rw [outcome] at same
  cases same
  exact ⟨(nextFd_least pid size).1, added⟩

theorem sysOpen_ends {flags pathLen : BitVec 64} {copies : Bool} {bytes : Nat → UInt8}
    {result : World FS × Outcome} (size : w.files.length ≤ vecLimit)
    (opened : w.sysOpen pid flags pathLen copies bytes = some result) : OpenEnds w pid result := by
  unfold World.sysOpen at opened
  split at opened
  case isTrue =>
    cases opened
    exact .refused (by decide) (by decide) w.fs
  split at opened
  case isTrue =>
    cases opened
    exact .refused (by decide) (by decide) w.fs
  split at opened
  case isTrue =>
    cases opened
    exact .refused (by decide) (by decide) w.fs
  split at opened
  case h_1 =>
    cases opened
    exact .refused (by decide) (by decide) w.fs
  split at opened
  case h_2 =>
    cases opened
    exact ⟨nofun⟩
  split at opened
  case isTrue =>
    cases opened
    exact .refused (by decide) (by decide) w.fs
  exact .install size opened

theorem Inv.opens (inv : Inv w) (performed : w.perform vfs event = some (later, reply))
    (opens : event.Opens w pid) {value : Reply} (returns : reply = some value) :
    value.IsError ∧ later.files = w.files ∨
      LeastFree w.files pid value.rax ∧ ∃ file,
        later.files = w.files ++ [file] ∧ file.pid = pid ∧
          file.fd = value.rax := by
  have settled : ∀ {result}, OpenEnds w pid result →
      World.settle pid result = (later, reply) →
      value.IsError ∧ later.files = w.files ∨
        LeastFree w.files pid value.rax ∧ ∃ file,
          later.files = w.files ++ [file] ∧ file.pid = pid ∧
            file.fd = value.rax := by
    rintro ⟨after, outcome⟩ ends same
    have files := settle_files pid (after, outcome)
    rw [same] at files
    rw [files]
    refine ends.ends value ?_
    cases outcome with
    | returns given =>
      cases same
      exact congrArg Outcome.returns (Option.some.inj returns)
    | goesOn call =>
      cases same
      cases returns
  cases event with
  | init caller | exit caller | elsewhere fs => cases opens
  | call caller request =>
    cases request with
    | «open» flags pathLen copies bytes =>
      cases opens
      obtain ⟨-, performed⟩ := Option.ite_none_right_eq_some.mp performed
      obtain ⟨result, begun, same⟩ := Option.map_eq_some_iff.mp performed
      exact settled (sysOpen_ends inv.size begun) same
    | close | read | write => cases opens
  | goOn caller =>
    obtain ⟨rfl, within⟩ := opens
    obtain ⟨result, went, same⟩ := Option.map_eq_some_iff.mp performed
    refine settled ?_ same
    cases call : w.calls caller with
    | looking path flags =>
      simp only [call, World.goOn] at went
      split at went
      · cases went
        exact .sized path flags _ _
      · split at went
        · cases went
          exact ⟨nofun⟩
        · cases went
          exact .refused (by decide) (by decide) _
    | creating path flags =>
      simp only [call, World.goOn] at went
      split at went
      · cases went
        exact .sized path flags 0 _
      · cases went
        exact .failed _ _
    | truncating path flags size =>
      simp only [call, World.goOn] at went
      split at went
      · cases went
        exact ⟨nofun⟩
      · cases went
        exact .failed _ _
    | installing path flags size =>
      rw [call] at went
      exact .install inv.size went
    | idle | onTerminal | reading | writing =>
      rw [call] at within
      cases within

end

theorem Reachable.inv {FS : Type} {vfs : Vfs FS} {w : World FS}
    (reached : Reachable vfs w) : Inv w := by
  refine Lib.Reachable.invariant ?_ ?_ reached
  · rintro w ⟨files, -⟩
    constructor
    · rw [files]
      exact List.nodup_nil
    · rw [files]
      exact Nat.zero_le _
  · rintro w later inv ⟨event, reply, performed⟩
    exact inv.perform performed

/-- The descriptor table along every interleaving, over any file systems: no
two entries share a process and a number; an event leaves the entries of all
processes but its own as they are; opening returns the least number from three
on that the caller does not use; and nothing of a process is left once its
descriptors are closed. -/
theorem descriptor_table_sound {FS : Type} {vfs : Vfs FS} {w : World FS}
    (reached : Reachable vfs w) :
    (w.files.map key).Nodup ∧
    ∀ event later reply, w.perform vfs event = some (later, reply) →
      (∀ pid, event.subject ≠ some pid →
        (owned pid later.files).Perm (owned pid w.files)) ∧
      (∀ pid value, event.Opens w pid → reply = some value →
        value.IsError ∧ later.files = w.files ∨
          LeastFree w.files pid value.rax ∧ ∃ file,
            later.files = w.files ++ [file] ∧ file.pid = pid ∧
              file.fd = value.rax) ∧
      ∀ pid, event = .exit pid → owned pid later.files = [] := by
  have inv := reached.inv
  refine ⟨inv.nodup, fun event later reply performed => ⟨?_, ?_, ?_⟩⟩
  · exact fun pid apart => inv.others performed apart
  · exact fun pid value opens returns => inv.opens performed opens returns
  · rintro pid rfl
    cases performed
    refine List.filter_eq_nil_iff.mpr fun file member => ?_
    rw [beq_iff_eq]
    exact closeProcessFiles_none member

/-- No files at all. -/
def emptyVfs : Vfs Unit where
  fileSize _ _ := (.error .notFound, ())
  createFile _ _ := (.error .readOnly, ())
  truncate _ _ := (.error .readOnly, ())
  readAt _ _ _ _ := (.error .notFound, ())
  writeAt _ _ _ _ := (.error .readOnly, ())

def emptyTable : World Unit := ⟨[], (), fun _ => .idle⟩

/-- `open("/device/null", O_RDONLY)`. -/
def openNull : Request :=
  .open 0 12 true fun i => "/device/null".toUTF8.toList.getD i 0

/-- A process opens `/device/null` twice. -/
theorem sample_table_sound :
    ∃ w : World Unit, Reachable emptyVfs w ∧
      w.files.map key = [(1, 0), (1, 1), (1, 2), (1, 3), (1, 4)] ∧
      (w.files.map key).Nodup := by
  have evaluated : (([Event.init 1, .call 1 openNull, .call 1 openNull].foldlM (fun (w : World Unit)
      event => (w.perform emptyVfs event).map Prod.fst) emptyTable).map fun w => w.files.map key) =
      some [(1, 0), (1, 1), (1, 2), (1, 3), (1, 4)] := by decide +kernel
  obtain ⟨w, ran, keys⟩ := Option.map_eq_some_iff.mp evaluated
  have reached : Reachable emptyVfs w := by
    have start : Reachable emptyVfs emptyTable :=
      Lib.Reachable.start ⟨rfl, fun _ => rfl⟩
    refine Lib.Reachable.run ?_ _ start ran
    intro w event later performed
    obtain ⟨⟨after, reply⟩, result, rfl⟩ := Option.map_eq_some_iff.mp performed
    exact ⟨event, reply, result⟩
  exact ⟨w, reached, keys, (descriptor_table_sound reached).1⟩

end Eonos.Files
