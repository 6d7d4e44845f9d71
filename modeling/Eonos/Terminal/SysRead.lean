import Eonos.Terminal.Reading
import Eonos.Vmm.UserCopySafety

/-!
# Reads from a descriptor

`sys_read` with every kind of descriptor.  `vfs::read_at` and the random bytes
are parameters: the first fills a buffer of the length asked for and says how
much of it counts, the second supplies as many bytes as are wanted.
-/

namespace Eonos.Terminal

open Eonos.Vmm

inductive FdKind where
  | stdin
  | stdout
  | stderr
  | console
  | null
  | zero
  | urandom
  | file
deriving DecidableEq, Repr

structure OpenFile where
  pid : BitVec 64
  fd : BitVec 64
  kind : FdKind
  path : String
  offset : Nat
  readable : Bool
  writable : Bool
  append : Bool
deriving DecidableEq, Repr

/-- `vfs::FsError`. -/
inductive FsError where
  | notFound
  | notDirectory
  | isDirectory
  | io
  | invalidPath
  | tooLarge
  | readOnly
  | noSpace
  | invalidName
  | alreadyExists
  | directoryNotEmpty
deriving DecidableEq, Repr

def EBADF : Nat := 9
def EFAULT : Nat := 14

/-- A positive error number as the negative value a call returns. -/
def errno (e : Nat) : BitVec 64 := -BitVec.ofNat 64 e

def fsErrno : FsError → BitVec 64
  | .readOnly => errno 30
  | .noSpace => errno 28
  | .invalidName | .invalidPath => errno 22
  | .io => errno 5
  | .notFound => errno 2
  | .notDirectory => errno 20
  | .isDirectory => errno 21
  | .alreadyExists => errno 17
  | .directoryNotEmpty => errno 39
  | .tooLarge => errno 5

def maxWrite : Nat := 4096

/-- What a reading call works on. -/
structure System where
  mem : Memory
  cr3 : BitVec 64
  currentId : BitVec 64
  files : List OpenFile
  history : List Line
  input : List UInt8

/-- The code outside the call: files and random bytes. -/
structure Sources where
  readAt : String → Nat → (n : Nat) → Except FsError (Nat × Vector UInt8 n)
  urandom : Nat → UInt8

/-- `OPEN_FILES.iter().find(..)`. -/
def findFile (system : System) (fd : BitVec 64) : Option OpenFile :=
  system.files.find? fun file =>
    file.pid == system.currentId && file.fd == fd

/-- `file.offset += read` on the descriptor found. -/
def advance (system : System) (fd : BitVec 64) (read : Nat) : List OpenFile :=
  match system.files.findIdx? fun file =>
      file.pid == system.currentId && file.fd == fd with
  | none => system.files
  | some index =>
    system.files.modify index fun file =>
      { file with offset := file.offset + read }

/-- `copy_to_user`, its failure turned into an error number. -/
def deliver (system : System) (buf : BitVec 64) (data : List UInt8) : BitVec 64 × System :=
  match copyToUser system.mem system.cr3 buf data with
  | (false, mem) => (errno EFAULT, { system with mem })
  | (true, mem) => (BitVec.ofNat 64 data.length, { system with mem })

def sysRead (sources : Sources) (system : System) (fd buf len : BitVec 64) :
    Except Stop (BitVec 64 × System) := do
  let n := min len.toNat maxWrite
  if n = 0 then return (0, system)
  else
    match findFile system fd with
    | none => return (errno EBADF, system)
    | some file =>
      if !file.readable then return (errno EBADF, system)
      else if !validateUserRange system.mem system.cr3 buf n true then
        return (errno EFAULT, system)
      else
        match file.kind with
        | .null => return (0, system)
        | .zero => return deliver system buf (List.replicate n 0)
        | .urandom =>
          return deliver system buf ((List.range n).map sources.urandom)
        | .stdin | .console =>
          let reading ← readLine system.history n system.input
          return deliver { system with
            history := reading.history, input := reading.rest }
            buf reading.line
        | .stdout | .stderr => return (errno EBADF, system)
        | .file =>
          match sources.readAt file.path file.offset n with
          | .error error => return (fsErrno error, system)
          | .ok (read, data) =>
            -- `&data[..read]`
            if n < read then .error .panicked
            else
              match copyToUser system.mem system.cr3 buf
                  (data.toList.take read) with
              | (false, mem) => return (errno EFAULT, { system with mem })
              | (true, mem) =>
                return (BitVec.ofNat 64 read, { system with
                  mem, files := advance system fd read })

/-! ## How much is written -/

/-- One round of the copy loop: stop, or write one chunk and go on. -/
theorem copyToLoop_cases (pml4 dst : BitVec 64) (src : List UInt8) (fuel done : Nat) (m : Memory) :
    (∃ copied, copyToLoop pml4 dst src (fuel + 1) done m = (copied, m)) ∨
      ∃ phys n, n ≤ src.length - done ∧
        copyToLoop pml4 dst src (fuel + 1) done m =
          copyToLoop pml4 dst src fuel (done + n)
            (writeFrom m phys src done n) := by
  rw [copyToLoop]
  by_cases more : done < src.length
  case neg =>
    rw [if_neg more]
    exact .inl ⟨true, rfl⟩
  rw [if_pos more]
  dsimp only
  generalize chunk : min (src.length - done)
    (pageSize - ((dst + BitVec.ofNat 64 done) &&& 0xfff#64).toNat) = n
  have bound : n ≤ src.length - done := by
    rw [← chunk]
    exact Nat.min_le_left _ _
  generalize walkUserWrite m pml4 (dst + BitVec.ofNat 64 done) = walked
  cases walked with
  | none => exact .inl ⟨false, rfl⟩
  | some phys => exact .inr ⟨phys.toNat, n, bound, rfl⟩

/-- A copy to user memory changes at most as many bytes as it was given. -/
theorem copyToLoop_touches (pml4 dst : BitVec 64) (src : List UInt8)
    (fuel done : Nat) (m : Memory) :
    ∃ touched : List Nat, touched.length ≤ src.length - done ∧
      ∀ b, b ∉ touched → (copyToLoop pml4 dst src fuel done m).2 b = m b := by
  induction fuel generalizing done m with
  | zero =>
    refine ⟨[], Nat.zero_le _, ?_⟩
    intro b _
    rw [copyToLoop]
  | succ fuel induction =>
    rcases copyToLoop_cases pml4 dst src fuel done m with
      ⟨copied, result⟩ | ⟨phys, n, bound, result⟩
    · refine ⟨[], Nat.zero_le _, ?_⟩
      intro b _
      rw [result]
    · obtain ⟨touched, short, kept⟩ := induction (done + n) (writeFrom m phys src done n)
      refine ⟨List.range' phys n ++ touched, ?_, ?_⟩
      · rw [List.length_append, List.length_range']
        omega
      · intro b outside
        rw [List.mem_append, not_or, List.mem_range'_1] at outside
        rw [result, kept b outside.2, writeFrom, if_neg outside.1]

/-- `after` is `before` with `data` copied to `buf`, or `before` itself, and at
most `limit` bytes are concerned. -/
def WritesAtMost (limit : Nat) (buf : BitVec 64) (before after : System) : Prop :=
  (∃ data : List UInt8, data.length ≤ limit ∧
    (after.mem = before.mem ∨
      after.mem = (copyToUser before.mem before.cr3 buf data).2)) ∧
  ∃ touched : List Nat, touched.length ≤ limit ∧
    ∀ b, b ∉ touched → after.mem b = before.mem b

variable {limit : Nat} {buf : BitVec 64} {before after : System}

theorem writesAtMost_same (same : after.mem = before.mem) :
    WritesAtMost limit buf before after := by
  constructor
  · exact ⟨[], Nat.zero_le _, .inl same⟩
  · exact ⟨[], Nat.zero_le _, fun b _ => congrFun same b⟩

theorem writesAtMost_copy {data : List UInt8} (short : data.length ≤ limit)
    (copied : after.mem = (copyToUser before.mem before.cr3 buf data).2) :
    WritesAtMost limit buf before after := by
  refine ⟨⟨data, short, .inr copied⟩, ?_⟩
  rw [copied, copyToUser]
  split
  · exact ⟨[], Nat.zero_le _, fun _ _ => rfl⟩
  · obtain ⟨touched, size, kept⟩ := copyToLoop_touches
      (currentCr3 before.cr3) buf data (data.length + 1) 0 before.mem
    exact ⟨touched, Nat.le_trans size short, kept⟩

theorem deliver_mem (system : System) (buf : BitVec 64) (data : List UInt8) :
    (deliver system buf data).2.mem = (copyToUser system.mem system.cr3 buf data).2 := by
  rw [deliver]
  split
  · rename_i copied
    rw [copied]
  · rename_i copied
    rw [copied]

theorem writesAtMost_deliver {ready : System} {data : List UInt8} (short : data.length ≤ limit)
    (mem : ready.mem = before.mem) (cr3 : ready.cr3 = before.cr3) :
    WritesAtMost limit buf before (deliver ready buf data).2 := by
  apply writesAtMost_copy short
  rw [deliver_mem, mem, cr3]

/-- When the line editor keeps to the limit, so does `sys_read`, whatever the
descriptor stands for. -/
theorem sysRead_writes {sources : Sources} {system : System} {fd len result : BitVec 64}
    (bounded : ∀ reading,
      readLine system.history (min len.toNat maxWrite) system.input =
        .ok reading → reading.line.length ≤ min len.toNat maxWrite)
    (returns : sysRead sources system fd buf len = .ok (result, after)) :
    WritesAtMost (min len.toNat maxWrite) buf system after := by
  simp only [sysRead] at returns
  generalize min len.toNat maxWrite = n at bounded returns ⊢
  have unchanged : ∀ value, (pure (value, system) : Except Stop _) =
      .ok (result, after) → WritesAtMost n buf system after := by
    intro value same
    have kept : system = after := congrArg Prod.snd (Except.ok.inj same)
    exact writesAtMost_same (congrArg System.mem kept.symm)
  have delivered : ∀ ready data, data.length ≤ n → ready.mem = system.mem →
      ready.cr3 = system.cr3 →
      (pure (deliver ready buf data) : Except Stop _) = .ok (result, after) →
      WritesAtMost n buf system after := by
    intro ready data short mem cr3 same
    have last : (deliver ready buf data).2 = after :=
      congrArg Prod.snd (Except.ok.inj same)
    rw [← last]
    exact writesAtMost_deliver short mem cr3
  split at returns
  case isTrue => exact unchanged _ returns
  split at returns
  case h_1 => exact unchanged _ returns
  rename_i file found
  split at returns
  case isTrue => exact unchanged _ returns
  split at returns
  case isTrue => exact unchanged _ returns
  cases kind : file.kind with
  | null =>
    rw [kind] at returns
    exact unchanged _ returns
  | zero =>
    rw [kind] at returns
    exact delivered _ _ List.length_replicate.le rfl rfl returns
  | urandom =>
    rw [kind] at returns
    refine delivered _ _ ?_ rfl rfl returns
    rw [List.length_map, List.length_range]
  | stdout =>
    rw [kind] at returns
    exact unchanged _ returns
  | stderr =>
    rw [kind] at returns
    exact unchanged _ returns
  | stdin | console =>
    simp only [kind] at returns
    cases line : readLine system.history n system.input with
    | error stop =>
      rw [line] at returns
      cases returns
    | ok reading =>
      rw [line] at returns
      exact delivered { system with
        history := reading.history, input := reading.rest } _
        (bounded reading line) rfl rfl returns
  | file =>
    simp only [kind] at returns
    cases source : sources.readAt file.path file.offset n with
    | error error =>
      rw [source] at returns
      exact unchanged _ returns
    | ok pair =>
      obtain ⟨read, data⟩ := pair
      simp only [source] at returns
      have short : (data.toList.take read).length ≤ n := by
        rw [List.length_take, Vector.length_toList]
        exact Nat.min_le_right _ _
      split at returns
      case isTrue => cases returns
      apply writesAtMost_copy short
      generalize copyToUser system.mem system.cr3 buf (data.toList.take read) = copy at returns ⊢
      obtain ⟨copied, mem⟩ := copy
      cases copied with
      | false =>
        have last := congrArg Prod.snd (Except.ok.inj returns)
        exact congrArg System.mem last.symm
      | true =>
        have last := congrArg Prod.snd (Except.ok.inj returns)
        exact congrArg System.mem last.symm

/-- Only the line editor can make the call wait. -/
theorem sysRead_returns {sources : Sources} {system : System}
    {fd len : BitVec 64}
    (finishes : ∀ max, 0 < max →
      ∃ reading, readLine system.history max system.input = .ok reading) :
    sysRead sources system fd buf len ≠ .error .waiting := by
  intro waits
  simp only [sysRead] at waits
  generalize min len.toNat maxWrite = n at waits
  split at waits
  case isTrue => cases waits
  rename_i positive
  split at waits
  case h_1 => cases waits
  rename_i file found
  split at waits
  case isTrue => cases waits
  split at waits
  case isTrue => cases waits
  obtain ⟨reading, line⟩ := finishes n (Nat.pos_of_ne_zero positive)
  cases kind : file.kind with
  | stdin | console =>
    simp only [kind, line] at waits
    cases waits
  | file =>
    simp only [kind] at waits
    cases source : sources.readAt file.path file.offset n with
    | error error =>
      rw [source] at waits
      cases waits
    | ok pair =>
      simp only [source] at waits
      split at waits
      case isTrue => cases waits
      generalize copyToUser system.mem system.cr3 buf (pair.2.toList.take pair.1) = copy at waits
      obtain ⟨copied, mem⟩ := copy
      cases copied with
      | false => cases waits
      | true => cases waits
  | null | zero | urandom | stdout | stderr =>
    rw [kind] at waits
    cases waits

/-! ## Terminal reads -/

/-- On every stream of keys with a terminator, `read_line(max)` returns at most
`max` bytes, the last of them the terminator. -/
def ReadsWithin (history : List Line) (max : Nat) : Prop :=
  ∀ (keys : List Key) (terminator : UInt8) (rest : List UInt8),
    terminator = 0x0d ∨ terminator = 0x0a →
    ∃ reading, readLine history max (keyBytes keys ++ terminator :: rest) =
      .ok reading ∧ reading.line.length ≤ max ∧
      reading.line.getLast? = some 0x0a

/-- The cursor never leaves the line, on any input. -/
def CursorInside (history : List Line) (max : Nat) : Prop :=
  ∀ (input : List UInt8) (editor : Editor) (rest : List UInt8),
    Visits history max input (editor, rest) →
    editor.cursor ≤ editor.line.length

/-- A `sys_read` limited to `max` bytes, from any descriptor, does not wait
when a terminator is on its way and writes at most `max` bytes. -/
def SysReadsWithin (history : List Line) (max : Nat) : Prop :=
  ∀ (sources : Sources) (system : System) (fd buf len : BitVec 64)
    (keys : List Key) (terminator : UInt8) (rest : List UInt8),
    terminator = 0x0d ∨ terminator = 0x0a → system.history = history →
    system.input = keyBytes keys ++ terminator :: rest →
    min len.toNat maxWrite = max →
    sysRead sources system fd buf len ≠ .error .waiting ∧
    ∀ result after, sysRead sources system fd buf len = .ok (result, after) →
      WritesAtMost max buf system after

/-- Terminal reads keep to their limit exactly when every remembered line is
shorter than it: recalling an entry is not checked against the limit. -/
theorem reads_within_iff_entries_short {history : List Line} {max : Nat}
    (remembered : Remembered history) (positive : 1 ≤ max) :
    ReadsWithin history max ∧ CursorInside history max ∧
        SysReadsWithin history max ↔
      ∀ entry ∈ history, entry.length < max := by
  constructor
  · rintro ⟨within, _, _⟩ entry member
    by_contra long
    obtain ⟨keys, reading, result, line⟩ := readLine_recalls positive member (Nat.not_lt.mp long)
    obtain ⟨other, same, _, last⟩ := within keys 0x0a [] (.inr rfl)
    have equal : reading = other := Except.ok.inj (result.symm.trans same)
    rw [← equal, line] at last
    exact remembered.noNewline entry member (List.mem_of_getLast? last)
  · intro short
    refine ⟨?_, ?_, ?_⟩
    · intro keys terminator rest ends
      obtain ⟨reading, result⟩ := readLine_returns positive keys ends
      exact ⟨reading, result, readLine_short positive short result⟩
    · intro input editor rest visited
      exact visited.sound.cursor_le
    · rintro sources system fd buf len keys terminator rest ends rfl stream limit
      constructor
      · apply sysRead_returns
        intro limit positive
        rw [stream]
        exact readLine_returns positive keys ends
      · intro result after returns
        rw [← limit]
        apply sysRead_writes _ returns
        intro reading line
        rw [limit] at line ⊢
        exact (readLine_short positive short line).1

/-- Ten typed bytes. -/
def sampleEntry : Line :=
  [0x61, 0x62, 0x63, 0x64, 0x65, 0x66, 0x67, 0x68, 0x69, 0x6a]

theorem sampleEntry_remembered : Remembered [sampleEntry] := by
  have boot : Remembered [] := Lib.Reachable.start rfl
  refine Lib.Reachable.next boot ⟨4096, sampleEntry ++ [0x0a],
    ⟨sampleEntry ++ [0x0a], [sampleEntry], [], sampleEntry ++ [0x0a]⟩, ?_, rfl⟩
  decide

theorem sampleEntry_reads_within :
    ReadsWithin [sampleEntry] 16 ∧ CursorInside [sampleEntry] 16 ∧
      SysReadsWithin [sampleEntry] 16 :=
  (reads_within_iff_entries_short sampleEntry_remembered (by decide)).mpr
    (by decide)

/-- Up and Enter at a limit of five bytes return ten, without a terminator. -/
theorem sampleEntry_overruns :
    Remembered [sampleEntry] ∧
      readLine [sampleEntry] 5 (keyBytes [.up] ++ [0x0d]) = .ok
        ⟨sampleEntry, [sampleEntry, sampleEntry.take 9], [],
          sampleEntry ++ [0x0a]⟩ ∧
      ¬ sampleEntry.length ≤ 5 ∧ sampleEntry.getLast? ≠ some 0x0a ∧
      ¬ ReadsWithin [sampleEntry] 5 := by
  have overrun : readLine [sampleEntry] 5 (keyBytes [.up] ++ [0x0d]) = .ok ⟨sampleEntry,
      [sampleEntry, sampleEntry.take 9], [], sampleEntry ++ [0x0a]⟩ := by decide
  refine ⟨sampleEntry_remembered, overrun, by decide, by decide, ?_⟩
  intro within
  obtain ⟨reading, result, short, _⟩ := within [.up] 0x0d [] (.inl rfl)
  have same := Except.ok.inj (overrun.symm.trans result)
  rw [← same] at short
  exact absurd short (by decide)

end Eonos.Terminal
