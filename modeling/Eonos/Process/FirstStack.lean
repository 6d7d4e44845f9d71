import Eonos.Process.StackLayout
import Eonos.Process.StackPages

/-!
# What a new process finds on its stack

The mapping loop of `build_stack` puts the page that `layStack` fills at the
top of the stack, so the process reads there what was written.
-/

namespace Eonos.Process

open Eonos.Vmm
open Eonos.Elf
open Eonos.Spaces
open Eonos.Lib
open Eonos.Lib.Prog

section

variable {sys later first : System} {space phys topFrame : BitVec 64}

/-! ### What the process reads -/

/-- The byte a process reads at `virt`. -/
def userByte (m : Machine) (space : BitVec 64) (virt : Nat) : Option UInt8 :=
  (AddressSpace.translate m.view space (BitVec.ofNat 64 virt)).map
    fun phys => m.mem phys.toNat

/-- Writing to the topmost page is storing to its frame. -/
theorem Edits.store {m : Machine} (edits : Edits topFrame sys.machine m) :
    (sys.store topFrame fun k => m.mem (topFrame.toNat + k)).machine = m := by
  have mem : overwrite sys.machine.mem topFrame (fun k => m.mem (topFrame.toNat + k)) = m.mem := by
    funext b
    unfold overwrite
    split
    · rename_i inside
      exact congrArg m.mem (Nat.add_sub_cancel' inside.1)
    · rename_i outside
      exact (edits.outside b outside).symm
  change (⟨overwrite sys.machine.mem topFrame _, sys.machine.frames⟩ : Machine) = m
  rw [mem, ← edits.frames]

theorem Stacked.blank (stacked : Stacked space topFrame first sys) :
    ∀ v, pageBase ≤ v → v < userStackTop → cell sys.machine topFrame v = 0 := by
  intro v low high
  refine stacked.zero _ ?_
  have base : pageBase + 4096 = userStackTop := by decide
  unfold InFrame
  omega

theorem Stacked.edited {m : Machine} (stacked : Stacked space topFrame first sys)
    (edits : Edits topFrame sys.machine m) :
    ∃ later, later.machine = m ∧ Tends space first later ∧
      topFrame ∈ later.mapped space ∧
      leafOf later.view space (stackPage 0) =
        some (3, topFrame ||| userRw ||| present) := by
  have owned : sys.Owned topFrame := .inr ⟨space, stacked.alive, stacked.mine⟩
  have event : sys.perform (.store topFrame fun k =>
      m.mem (topFrame.toNat + k)) = some _ := if_pos owned
  have idle : (Event.store topFrame fun k =>
      m.mem (topFrame.toNat + k)).Idle := trivial
  have same := stacked.inv.untouched idle event
  refine ⟨_, edits.store, ⟨same.inv, stacked.alive, ?_, stacked.held⟩, stacked.mine, ?_⟩
  · exact stacked.life.tail ⟨.store topFrame _, trivial, event⟩
  · rw [(same.sameAt stacked.inv stacked.alive (stackPage 0)).2]
    exact stacked.leaf

theorem userByte_eq (inv : Inv sys) (alive : space ∈ sys.spaces)
    (mine : topFrame ∈ sys.mapped space)
    (leaf : leafOf sys.view space (stackPage 0) = some (3, topFrame ||| userRw ||| present))
    {virt : Nat} (low : pageBase ≤ virt) (high : virt < userStackTop) :
    userByte sys.machine space virt = some (cell sys.machine topFrame virt) := by
  have owned : sys.Owned topFrame := .inr ⟨space, alive, mine⟩
  have masked := (inv.lent topFrame owned.mem_ledger).masked
  have bound := (toNat_of_addrMask masked).1
  have base : pageBase = 0x7fffffffe000 := by decide
  have top : userStackTop = 0x7ffffffff000 := by decide
  have value : (BitVec.ofNat 64 virt).toNat = virt := by
    rw [BitVec.toNat_ofNat]
    omega
  have way : indices (stackPage 0) 4 = indices (BitVec.ofNat 64 virt) 4 := by
    rw [indices_eq_iff, Vmm.page, Vmm.page, value, stackPage_toNat (by decide)]
    unfold pageSize
    omega
  have mapped : has (topFrame ||| userRw ||| present) present = true := by
    rw [has_or]
    simp [show has present present = true by decide]
  have address : (topFrame ||| userRw ||| present) &&& addrMask = topFrame :=
    @Page.leaf_addr ⟨topFrame, true, false⟩ masked
  have place : (topFrame + (BitVec.ofNat 64 virt &&& 0xfff#64)).toNat =
      topFrame.toNat + (virt - pageBase) := by
    rw [BitVec.toNat_add, offset4k_val, value]
    omega
  unfold userByte AddressSpace.translate cell
  change ((walk sys.view space _).map _) = _
  rw [walk_leafOf (inv.wf alive), ← leafOf_congr way, leaf, Option.bind_some]
  simp only [decode, mapped, if_true]
  rw [address, Option.map_some, place]

end

/-! ### The layout as the process sees it -/

/-- A number of `count` bytes, little-endian. -/
def leAt (byte : Nat → Option UInt8) : Nat → Nat → Option Nat
  | _, 0 => some 0
  | a, count + 1 => do
      let low ← byte a
      let rest ← leAt byte (a + 1) count
      return low.toNat + 256 * rest

/-- A string and its terminator stand at an address. -/
def PointsTo (byte : Nat → Option UInt8) (ptr : Nat) (s : List UInt8) : Prop :=
  (∀ k < s.length, byte (ptr + k) = s[k]?) ∧ byte (ptr + s.length) = some 0

/-- Two blocks of memory, each an address and a size. -/
def BlocksApart (a b : Nat × Nat) : Prop :=
  a.1 + a.2 ≤ b.1 ∨ b.1 + b.2 ≤ a.1

/-- The words and the strings, each with its address and size. -/
def stackBlocks (argv env : List (List UInt8)) (argvPtrs envPtrs : List Nat)
    (sp : Nat) : List (Nat × Nat) :=
  (sp, (stackWords argv.length argvPtrs envPtrs).length * 8) ::
    ((argvPtrs ++ envPtrs).zip
      ((argv ++ env).map fun bytes => bytes.length + 1))

/-- The stack of a new process, as the ABI has it. -/
structure AbiStack (byte : Nat → Option UInt8) (argv env : List (List UInt8))
    (argvPtrs envPtrs : List Nat) (sp : Nat) : Prop where
  aligned : sp % 16 = 0
  inTopPage : pageBase ≤ sp ∧ sp < userStackTop
  words : ∀ i < (stackWords argv.length argvPtrs envPtrs).length,
    leAt byte (sp + i * 8) 8 = (stackWords argv.length argvPtrs envPtrs)[i]?
  argvStrings : List.Forall₂ (PointsTo byte) argvPtrs argv
  envStrings : List.Forall₂ (PointsTo byte) envPtrs env
  apart : (stackBlocks argv env argvPtrs envPtrs sp).Pairwise BlocksApart
  inside : ∀ block ∈ stackBlocks argv env argvPtrs envPtrs sp,
    pageBase ≤ block.1 ∧ block.1 + block.2 ≤ userStackTop

section

variable {m : Machine} {topFrame : BitVec 64} {byte : Nat → Option UInt8}

theorem leAt_toLeBytes {a value count : Nat}
    (stands : ∀ k < count, byte (a + k) = some ((toLeBytes value count).getD k 0)) :
    leAt byte a count = some (value % 256 ^ count) := by
  induction count generalizing a value with
  | zero => simp [leAt, Nat.mod_one]
  | succ count induction =>
    have head := stands 0 (Nat.succ_pos _)
    rw [Nat.add_zero, toLeBytes, List.getD_cons_zero] at head
    have tail : leAt byte (a + 1) count = some (value / 256 % 256 ^ count) := by
      refine induction fun k below => ?_
      have there := stands (k + 1) (by omega)
      rw [toLeBytes, List.getD_cons_succ] at there
      rw [← there]
      congr 1
      omega
    rw [leAt, head, tail, Nat.pow_succ, Nat.mul_comm (256 ^ count), Nat.mod_mul]
    simp [UInt8.toNat_ofNat']

theorem Shows.word {virt : Nat} {words : List Nat}
    (stands : Shows m topFrame virt (wordBytes words)) {i word : Nat}
    (found : words[i]? = some word) : Shows m topFrame (virt + i * 8) (toLeBytes word 8) := by
  induction words generalizing virt i with
  | nil => cases found
  | cons head tail induction =>
    change Shows m topFrame virt (toLeBytes head 8 ++ wordBytes tail) at stands
    cases i with
    | zero =>
      cases found
      rw [Nat.zero_mul, Nat.add_zero]
      exact stands.left
    | succ i =>
      have rest := induction stands.right found
      rw [toLeBytes_length] at rest
      rw [show virt + (i + 1) * 8 = virt + 8 + i * 8 by omega]
      exact rest

theorem Shows.strings {cursor : Nat} {values : List (List UInt8)}
    (stands : Shows m topFrame cursor (joined values)) :
    List.Forall₂ (fun ptr bytes => Shows m topFrame ptr (bytes ++ [0]))
      (addresses cursor values) values := by
  induction values generalizing cursor with
  | nil => exact .nil
  | cons bytes rest induction =>
    change Shows m topFrame cursor ((bytes ++ [0]) ++ joined rest) at stands
    have tail := stands.right
    rw [List.length_append, List.length_singleton] at tail
    exact .cons stands.left (induction tail)

theorem addresses_blocks (cursor : Nat) (values : List (List UInt8)) :
    ((addresses cursor values).zip
      (values.map fun bytes => bytes.length + 1)).Pairwise BlocksApart ∧
    ∀ block ∈ (addresses cursor values).zip
      (values.map fun bytes => bytes.length + 1),
        cursor ≤ block.1 ∧ block.1 + block.2 ≤ cursor + size values := by
  induction values generalizing cursor with
  | nil => exact ⟨.nil, fun _ member => nomatch member⟩
  | cons bytes rest induction =>
    obtain ⟨apart, inside⟩ := induction (cursor + (bytes.length + 1))
    have grown : size (bytes :: rest) = bytes.length + 1 + size rest := by
      unfold size
      rw [List.map_cons, List.sum_cons]
    rw [addresses, List.map_cons, List.zip_cons_cons]
    refine ⟨.cons (fun block member => Or.inl (inside block member).1) apart, ?_⟩
    intro block member
    rcases List.mem_cons.mp member with rfl | member
    · exact ⟨le_rfl, by dsimp only; omega⟩
    · have := inside block member
      omega

theorem addresses_le (cursor : Nat) (values : List (List UInt8)) :
    ∀ ptr ∈ addresses cursor values, ptr ≤ cursor + size values := by
  induction values generalizing cursor with
  | nil => exact fun _ member => nomatch member
  | cons bytes rest induction =>
    have grown : size (bytes :: rest) = bytes.length + 1 + size rest := by
      unfold size
      rw [List.map_cons, List.sum_cons]
    rw [addresses]
    intro ptr member
    rcases List.mem_cons.mp member with rfl | member
    · exact Nat.le_add_right _ _
    · have := induction _ ptr member
      omega

/-- A string that stands inside the page is found there by the process. -/
theorem Shows.pointsTo {ptr : Nat} {bytes : List UInt8}
    (stands : Shows m topFrame ptr (bytes ++ [0])) (low : pageBase ≤ ptr)
    (high : ptr + (bytes.length + 1) ≤ userStackTop)
    (reads : ∀ virt, pageBase ≤ virt → virt < userStackTop →
      byte virt = some (cell m topFrame virt)) : PointsTo byte ptr bytes := by
  constructor
  · intro k below
    rw [reads _ (by omega) (by omega), stands.left k below,
      List.getD_eq_getElem?_getD, List.getElem?_eq_getElem below]
    rfl
  · have last := stands.right 0 (by simp)
    rw [Nat.add_zero] at last
    rw [reads _ (by omega) (by omega), last]
    rfl

theorem forall₂_of_zip {R S : Nat → List UInt8 → Prop} {ptrs : List Nat}
    {values : List (List UInt8)} (all : List.Forall₂ R ptrs values) {low high : Nat}
    (blocks : ∀ block ∈ ptrs.zip (values.map fun bytes => bytes.length + 1),
      low ≤ block.1 ∧ block.1 + block.2 ≤ high)
    (step : ∀ ptr bytes, R ptr bytes → low ≤ ptr → ptr + (bytes.length + 1) ≤ high → S ptr bytes) :
    List.Forall₂ S ptrs values := by
  induction all with
  | nil => exact .nil
  | @cons ptr bytes ptrs values holds _ induction =>
    rw [List.map_cons, List.zip_cons_cons] at blocks
    have head := blocks _ List.mem_cons_self
    exact .cons (step ptr bytes holds head.1 head.2) (induction fun block member =>
        blocks block (List.mem_cons_of_mem _ member))

theorem LaidOut.abi {m later : Machine} {argv env : List (List UInt8)} {argvAt envAt sp : Nat}
    (laid : LaidOut topFrame m later argv env argvAt envAt sp)
    (reads : ∀ virt, pageBase ≤ virt → virt < userStackTop →
      byte virt = some (cell later topFrame virt)) :
    AbiStack byte argv env (addresses argvAt argv) (addresses envAt env) sp := by
  obtain ⟨-, argvSpan, envSpan, room, aligned, low, words, envStrings, argvStrings⟩ := laid
  have count := stackWords_length argv.length (addresses argvAt argv) (addresses envAt env)
  rw [addresses_length, addresses_length] at count
  obtain ⟨argvApart, argvInside⟩ := addresses_blocks argvAt argv
  obtain ⟨envApart, envInside⟩ := addresses_blocks envAt env
  have zipped : (addresses argvAt argv ++ addresses envAt env).zip
      ((argv ++ env).map fun bytes => bytes.length + 1) =
      (addresses argvAt argv).zip (argv.map fun bytes => bytes.length + 1) ++
        (addresses envAt env).zip (env.map fun bytes => bytes.length + 1) := by
    rw [List.map_append, List.zip_append]
    rw [addresses_length, List.length_map]
  refine ⟨aligned, ⟨low, by omega⟩, ?_, ?_, ?_, ?_, ?_⟩
  · intro i below
    obtain ⟨word, found⟩ : ∃ word, (stackWords argv.length
        (addresses argvAt argv) (addresses envAt env))[i]? = some word :=
      ⟨_, List.getElem?_eq_getElem below⟩
    have stands := words.word found
    rw [count] at below
    have small : word < 256 ^ 8 := by
      have top : userStackTop < 256 ^ 8 := by decide
      have member := List.mem_of_getElem? found
      unfold stackWords at member
      simp only [List.mem_append, List.mem_cons, List.not_mem_nil, or_false] at member
      rcases member with (((rfl | inArgv) | rfl) | inEnv) | rfl | rfl | rfl
      · omega
      · have := addresses_le argvAt argv word inArgv
        omega
      · decide
      · have := addresses_le envAt env word inEnv
        omega
      · decide
      · decide
      · decide
    rw [found, leAt_toLeBytes fun k inWord => ?_, Nat.mod_eq_of_lt small]
    rw [reads _ (by omega) (by omega), stands k (by rw [toLeBytes_length]; exact inWord)]
  · exact forall₂_of_zip argvStrings.strings argvInside fun ptr bytes stands above below =>
        stands.pointsTo (by omega) (by omega) reads
  · exact forall₂_of_zip envStrings.strings envInside fun ptr bytes stands above below =>
        stands.pointsTo (by omega) (by omega) reads
  · unfold stackBlocks
    rw [zipped]
    refine List.pairwise_cons.mpr ⟨?_, List.pairwise_append.mpr ⟨argvApart, envApart, ?_⟩⟩
    · intro block member
      refine Or.inl ?_
      rw [count]
      rcases List.mem_append.mp member with inArgv | inEnv
      · have := argvInside block inArgv
        dsimp only
        omega
      · have := envInside block inEnv
        dsimp only
        omega
    · intro one inArgv two inEnv
      have := argvInside one inArgv
      have := envInside two inEnv
      exact Or.inr (by omega)
  · unfold stackBlocks
    rw [zipped]
    intro block member
    rcases List.mem_cons.mp member with rfl | member
    · dsimp only
      omega
    rcases List.mem_append.mp member with inArgv | inEnv
    · have := argvInside block inArgv
      omega
    · have := envInside block inEnv
      omega

end

/-- In a fresh space, with frames for the pages and for their three tables, a
layout that fits is built. -/
theorem buildStack_succeeds {sys : System} {space : BitVec 64} (inv : Inv sys)
    (alive : space ∈ sys.spaces) (fresh : Fresh sys.view space) {argv env : List (List UInt8)}
    (frames : userStackPages + 3 ≤ sys.machine.pool.length)
    (short : ∀ bytes ∈ argv ++ env, bytes.length ≤ 255) (fits : layoutSize argv env ≤ pageSize) :
    ∃ sp m, (buildStack space argv env).exec sys.machine = some (.ok sp, m) := by
  have few : (unlinked sys.view space (waypoints (stackPage 0))).card ≤ 3 := by
    rw [← waypoints_card]
    exact Finset.card_le_card (Finset.filter_subset _ _)
  obtain ⟨topFrame, m, mapped⟩ := (mapStack_decides inv alive
    fun i few => fresh.leafOf_none (stackPage_user few).1).2 (by omega)
  obtain ⟨later, rfl, stacked⟩ := (mapStack_allows inv alive).of_exec mapped
  obtain ⟨outcome, last, laid, ends⟩ :=
    (layStack_ensures argv env stacked.blank).of_exec
  unfold buildStack
  rw [exec_bind, mapped]
  cases outcome with
  | ok sp => exact ⟨sp, last, laid⟩
  | error e =>
    obtain ⟨-, ⟨bytes, member, long⟩ | full⟩ := ends
    · have := short bytes member
      omega
    · omega

/-- Whatever space the stack is built in: with a stack pointer the process finds
the layout of the ABI, and without one a string was too long, the layout does
not fit the page, or no frame was left. -/
theorem buildStack_abi {map : Physical.MemoryMap} {sys : System}
    {space : BitVec 64} (reachable : Spaces.Reachable map sys)
    (alive : space ∈ sys.spaces) (argv env : List (List UInt8)) :
    (∀ sp m, (buildStack space argv env).exec sys.machine =
        some (.ok sp, m) →
      ∃ argvPtrs envPtrs,
        AbiStack (userByte m space) argv env argvPtrs envPtrs sp) ∧
    ∀ m, (buildStack space argv env).exec sys.machine =
        some (.error (), m) →
      (∃ bytes ∈ argv ++ env, 255 < bytes.length) ∨
        pageSize < layoutSize argv env ∨ m.allocFrame = none := by
  have inv := reachable.inv
  have allowed : Allows (buildStack space argv env) sys.machine
      (fun sp m => ∃ argvPtrs envPtrs,
        AbiStack (userByte m space) argv env argvPtrs envPtrs sp)
      (fun _ m => (∃ bytes ∈ argv ++ env, 255 < bytes.length) ∨
        pageSize < layoutSize argv env ∨ m.allocFrame = none) := by
    unfold buildStack
    refine allows_bind ((mapStack_allows inv alive).mono ?_ ?_)
    · rintro topFrame - ⟨mapped, rfl, stacked⟩
      refine ((layStack_ensures argv env stacked.blank).allows).mono ?_ ?_
      · rintro sp m ⟨argvAt, envAt, laid⟩
        obtain ⟨later, rfl, tends, mine, leaf⟩ := stacked.edited laid.edits
        exact ⟨_, _, laid.abi fun virt low high =>
          userByte_eq tends.inv tends.alive mine leaf low high⟩
      · rintro - m ⟨-, long | full⟩
        · exact Or.inl long
        · exact Or.inr (Or.inl full)
    · rintro - m ⟨failed, -⟩
      exact Or.inr (Or.inr failed)
  exact ⟨fun sp m ran => allowed.of_exec ran, fun m ran => allowed.of_exec ran⟩

/-- A machine with 32 frames. -/
def roomyMap : Physical.MemoryMap where
  entries := [⟨0x100000, 0x20000, .usable⟩]
  short := by decide
  bounded := by decide
  exclusive := by
    simp only [List.pairwise_cons, List.not_mem_nil, false_implies,
      implies_true, List.Pairwise.nil, and_self]

def roomyStart : Option System :=
  (Physical.init roomyMap.entries).bind fun p =>
    bootSystem sampleBoot ⟨fun _ => 0, ⟨p, ∅, false⟩⟩

theorem roomyStart_initial {start : System}
    (built : roomyStart = some start) : Initial roomyMap start := by
  obtain ⟨p, started, built⟩ := Option.bind_eq_some_iff.mp built
  have size : (Physical.init roomyMap.entries).map (·.totalFrames) = some 288 := by decide +kernel
  rw [started, Option.map_some, Option.some_inj] at size
  refine bootSystem_initial (Lib.Reachable.start ⟨started, rfl, rfl⟩) ?_ built
  exact size.le.trans (by decide)

/-- The stack of `sh -c` with one variable. -/
theorem roomyStart_stack :
    ∃ (sys : System) (sp : Nat) (m : Machine) (argvPtrs envPtrs : List Nat),
      roomyStart = some sys ∧
      (buildStack 0x105000 [[0x73, 0x68], [0x2d, 0x63]] [[0x41, 0x3d]]).exec
        sys.create.machine = some (.ok sp, m) ∧
      AbiStack (userByte m 0x105000) [[0x73, 0x68], [0x2d, 0x63]]
        [[0x41, 0x3d]] argvPtrs envPtrs sp := by
  have evaluated : (roomyStart.map fun start =>
      (start.spaces, start.create.spaces, start.create.machine.pool.length)) =
      some ([], [0x105000], 26) := by decide +kernel
  obtain ⟨start, started, facts⟩ := Option.map_eq_some_iff.mp evaluated
  simp only [Prod.mk.injEq] at facts
  obtain ⟨before, spaces, frames⟩ := facts
  have first : Spaces.Reachable roomyMap start :=
    Lib.Reachable.start (roomyStart_initial started)
  have reachable : Spaces.Reachable roomyMap start.create :=
    Lib.Reachable.next first ⟨.create, rfl⟩
  have fresh : Fresh start.create.view 0x105000 :=
    first.inv.create_fresh (by rw [spaces, before])
  have alive : (0x105000 : BitVec 64) ∈ start.create.spaces := by
    rw [spaces]
    exact List.mem_cons_self
  obtain ⟨sp, m, built⟩ := @buildStack_succeeds _ _ reachable.inv alive fresh [[0x73, 0x68], [0x2d,
    0x63]] [[0x41, 0x3d]] (by rw [frames]; decide) (by decide) (by decide)
  obtain ⟨argvPtrs, envPtrs, abi⟩ :=
    (buildStack_abi reachable alive _ _).1 sp m built
  exact ⟨start, sp, m, argvPtrs, envPtrs, started, built, abi⟩

end Eonos.Process
