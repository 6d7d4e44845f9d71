import Eonos.Process.Stack
import Eonos.Elf.Loading

/-!
# The pages of the stack

`build_stack` maps the sixteen pages of the stack one after another.  A frame
that cannot be allocated for a page is an error, one that cannot be allocated
for a page table is a panic.
-/

namespace Eonos.Process

open Eonos.Vmm
open Eonos.Elf
open Eonos.Spaces
open Eonos.Lib
open Eonos.Lib.Prog

section

variable {sys later first : System} {space phys topFrame : BitVec 64}

/-! ### Taking and mapping a frame -/

theorem takeFrame_ensures (inv : Inv sys) :
    Ensures takeFrame sys.machine
      (fun phys m => ∃ later, later.machine = m ∧ Took sys later phys)
      (fun _ m => m = sys.machine ∧ m.allocFrame = none) := by
  unfold takeFrame
  simp only [ensures_bind, ensures_get, ensures_okOr, ensures_modify, ensures_pure]
  refine ⟨?_, fun failed => ⟨trivial, Option.map_eq_none_iff.mp failed⟩⟩
  rintro ⟨phys, m⟩ result
  exact took_of_alloc inv result

variable {flags : BitVec 64} {i : Nat}

theorem mapUser_allows {virt : BitVec 64} (inv : Inv sys) (alive : space ∈ sys.spaces)
    (ours : phys ∈ sys.held) {err : Unit → Machine → Prop} :
    Allows (mapUser space virt phys flags) sys.machine
      (fun _ m => ∃ later, later.machine = m ∧
        Placed sys later space virt phys flags) err := by
  unfold mapUser
  refine allows_bind (Ensures.allows ?_)
  rw [ensures_get]
  refine allows_bind (allows_unwrap fun s written => Ensures.allows ?_)
  rw [ensures_modify]
  exact placed_of_map inv alive ours written

/-! ### The mapping loop -/

/-- The topmost page of the stack is mapped and blank. -/
structure Stacked (space topFrame : BitVec 64) (first sys : System) : Prop
    extends Tends space first sys where
  mine : topFrame ∈ sys.mapped space
  leaf : leafOf sys.view space (stackPage 0) =
    some (3, topFrame ||| userRw ||| present)
  zero : ∀ b, InFrame topFrame b → sys.machine.mem b = 0

theorem tends_refl (inv : Inv sys) (alive : space ∈ sys.spaces) :
    Tends space sys sys := ⟨inv, alive, .refl, .refl _⟩

theorem round_tends {virt : BitVec 64} {middle : System} (tends : Tends space first sys)
    (took : Took sys middle phys) (placed : Placed middle later space virt phys flags) :
    Tends space first later := by
  have same := took.run.untouched tends.inv
  refine ⟨placed.inv, ?_, ?_, ?_⟩
  · rw [placed.spaces, same.spaces]
    exact tends.alive
  · exact (tends.life.trans (took.run.lifetime space)).tail
      ⟨.map space virt phys flags, rfl, placed.event⟩
  · rw [placed.held, took.held, List.erase_cons_head]
    exact tends.held

theorem mapStackPage_allows {ok : BitVec 64 → Machine → Prop} (tends : Tends space first sys)
    (done : ∀ middle later phys, Took sys middle phys →
      Placed middle later space (stackPage i) phys userRw →
      ok (if i = 0 then phys else topFrame) later.machine) :
    Allows (mapStackPage space topFrame i) sys.machine ok
      (fun _ m => m = sys.machine ∧ m.allocFrame = none) := by
  unfold mapStackPage
  refine allows_bind (((takeFrame_ensures tends.inv).allows).mono ?_ fun _ _ failed => failed)
  rintro phys - ⟨middle, rfl, took⟩
  have same := took.run.untouched tends.inv
  have alive : space ∈ middle.spaces := by
    rw [same.spaces]
    exact tends.alive
  have ours : phys ∈ middle.held := by
    rw [took.held]
    exact List.mem_cons_self
  refine allows_bind ((mapUser_allows same.inv alive ours).mono ?_ fun _ _ failed => failed)
  rintro - - ⟨later, rfl, placed⟩
  exact Ensures.allows (done middle later phys took placed)

theorem stackPage_toNat (few : i < userStackPages) :
    (stackPage i).toNat = userStackTop - (i + 1) * pageSize := by
  unfold stackPage userStackTop pageSize
  unfold userStackPages at few
  rw [BitVec.toNat_ofNat]
  omega

theorem stackPage_user (few : i < userStackPages) : UserPage (stackPage i) := by
  have value := stackPage_toNat few
  unfold userStackTop pageSize at value
  unfold userStackPages at few
  unfold UserPage
  omega

/-- The stack is above every program. -/
theorem stackPage_high (few : i < userStackPages) : loadMax ≤ (stackPage i).toNat := by
  have value := stackPage_toNat few
  unfold userStackTop pageSize at value
  unfold userStackPages at few
  unfold loadMax
  omega

theorem stackPage_ne {j : Nat} (few : i < userStackPages) (also : j < userStackPages)
    (other : i ≠ j) : stackPage i ≠ stackPage j := by
  intro same
  have one := stackPage_toNat few
  have two := stackPage_toNat also
  rw [same, two] at one
  unfold userStackTop pageSize at one
  unfold userStackPages at few also
  omega

theorem mapStack_allows (inv : Inv sys) (alive : space ∈ sys.spaces) :
    Allows (mapStack space) sys.machine
      (fun topFrame m => ∃ later, later.machine = m ∧
        Stacked space topFrame sys later)
      (fun _ m => m.allocFrame = none ∧
        ∃ last, last.machine = m ∧ Tends space sys last) := by
  have rounds : List.range userStackPages =
      0 :: List.range' 1 (userStackPages - 1) := by decide
  unfold mapStack
  rw [rounds, List.foldlM_cons]
  refine allows_bind ((mapStackPage_allows (tends_refl inv alive) ?_).mono
    (fun _ _ done => done) ?_)
  swap
  · rintro - m ⟨rfl, failed⟩
    exact ⟨failed, sys, rfl, tends_refl inv alive⟩
  -- the first round maps the topmost page
  intro middle later phys took placed
  rw [if_pos rfl]
  refine allows_foldlM _ ?_ ⟨later, rfl, round_tends (tends_refl inv alive)
    took placed, ?_, placed.here, ?_⟩
  · -- the others leave it alone
    rintro topFrame - i member ⟨now, rfl, stacked⟩
    have index := List.mem_range'_1.mp member
    have few : i < userStackPages := by
      unfold userStackPages at index ⊢
      omega
    refine (mapStackPage_allows stacked.toTends ?_).mono (fun _ _ done => done) ?_
    swap
    · rintro - m ⟨rfl, failed⟩
      exact ⟨failed, now, rfl, stacked.toTends⟩
    intro middle later phys took placed
    have same := took.run.untouched stacked.inv
    have mine : middle.Owned topFrame := .inr ⟨space, by
      rw [same.spaces]
      exact stacked.alive, by
      rw [same.mapped]
      exact stacked.mine⟩
    have owned : now.Owned topFrame := .inr ⟨space, stacked.alive, stacked.mine⟩
    rw [if_neg (by omega)]
    refine ⟨later, rfl, round_tends stacked.toTends took placed, ?_, ?_, ?_⟩
    · rw [placed.mapped, same.mapped]
      exact List.mem_cons_of_mem _ stacked.mine
    · rw [placed.elsewhere _ (stackPage_user (by decide))
        (stackPage_ne (by decide) few (by omega)),
        (same.sameAt stacked.inv stacked.alive (stackPage 0)).2]
      exact stacked.leaf
    · intro b inside
      rw [placed.bytes topFrame b mine inside,
        took.bytes topFrame b owned inside, stacked.zero b inside]
  · rw [placed.mapped]
    exact List.mem_cons_self
  · intro b inside
    have ours : middle.Owned phys := .inl (by
      rw [took.held]
      exact List.mem_cons_self)
    rw [placed.bytes phys b ours inside, took.zero b inside]

/-! ### The price of the stack -/

/-- A round panics where a frame is left for the page but too few for the
tables. -/
theorem mapStackPage_panics_iff {i : Nat} (few : i < userStackPages) (inv : Inv sys)
    (alive : space ∈ sys.spaces) (blank : leafOf sys.view space (stackPage i) = none) :
    (mapStackPage space topFrame i).exec sys.machine = none ↔
      0 < sys.machine.pool.length ∧ sys.machine.pool.length ≤
        (unlinked sys.view space (waypoints (stackPage i))).card := by
  have start : (mapStackPage space topFrame i).exec sys.machine = sys.machine.allocFrameZeroed.elim
      (some (.error (), sys.machine)) fun result =>
          (AddressSpace.map result.2.view space (stackPage i) result.1 userRw).map fun s =>
              (.ok (if i = 0 then result.1 else topFrame), result.2.after s) := by
    unfold mapStackPage takeFrame
    simp only [exec_bind]
    change (((okOr () sys.machine.allocFrameZeroed).exec _).bind _).bind _ = _
    cases sys.machine.allocFrameZeroed with
    | none => rfl
    | some result =>
      obtain ⟨phys, m⟩ := result
      change ((mapUser space (stackPage i) phys userRw).exec m).bind _ =
        (AddressSpace.map m.view space (stackPage i) phys userRw).map _
      unfold mapUser
      rw [exec_bind]
      change (((unwrap (AddressSpace.map m.view space (stackPage i) phys
        userRw) >>= _).exec m)).bind _ = _
      cases AddressSpace.map m.view space (stackPage i) phys userRw <;> rfl
  rw [start]
  cases granted : sys.machine.allocFrameZeroed with
  | none =>
    have empty := (alloc_none_iff inv.sound).mp granted
    exact iff_of_false (Option.some_ne_none _) (by omega)
  | some result =>
    obtain ⟨phys, m⟩ := result
    obtain ⟨middle, rfl, took⟩ := took_of_alloc inv granted
    have same := took.run.untouched inv
    have count := congrArg List.length took.pool
    rw [List.length_cons] at count
    have ours : phys ∈ middle.held := by
      rw [took.held]
      exact List.mem_cons_self
    have still : leafOf middle.view space (stackPage i) = none := by
      rw [(same.sameAt inv alive (stackPage i)).2]
      exact blank
    have ways : unlinked middle.view space (waypoints (stackPage i)) =
        unlinked sys.view space (waypoints (stackPage i)) := by
      unfold unlinked
      simp only [(same.sameTables inv alive).tableAt]
    have decided := map_none_iff same.inv (same.spaces.symm ▸ alive) ours (stackPage_user few) (show
      userRw ∈ AddressSpace.userFlags by decide) still
    rw [ways] at decided
    rw [Option.elim_some, Option.map_eq_none_iff, decided]
    omega

/-- What one round leaves that did not panic. -/
theorem mapStackPage_ends {outcome : Except Unit (BitVec 64)} {m : Machine}
    (tends : Tends space first sys)
    (ran : (mapStackPage space topFrame i).exec sys.machine = some (outcome, m)) :
    (outcome = .error () ∧ sys.machine.pool.length = 0) ∨
    ∃ top middle later phys, outcome = .ok top ∧ later.machine = m ∧
      Took sys middle phys ∧
      Placed middle later space (stackPage i) phys userRw := by
  have allowed : Allows (mapStackPage space topFrame i) sys.machine
      (fun _ m => ∃ middle later phys, later.machine = m ∧
        Took sys middle phys ∧
        Placed middle later space (stackPage i) phys userRw) _ :=
    mapStackPage_allows tends fun middle later phys took placed =>
      ⟨middle, later, phys, rfl, took, placed⟩
  have ended := allowed.of_exec ran
  cases outcome with
  | error e =>
    obtain ⟨rfl, failed⟩ := ended
    exact .inl ⟨rfl, (alloc_none_iff tends.inv.sound).mp (Option.map_eq_none_iff.mpr failed)⟩
  | ok top =>
    obtain ⟨middle, later, phys, facts⟩ := ended
    exact .inr ⟨top, middle, later, phys, rfl, facts⟩

/-- The pages of the stack share their tables. -/
theorem stackPage_waypoints (few : i < userStackPages) :
    waypoints (stackPage i) = waypoints (stackPage 0) := by
  have all : ∀ i < userStackPages,
      waypoints (stackPage i) = waypoints (stackPage 0) := by decide +kernel
  exact all i few

theorem waypoints_card : (waypoints (stackPage 0)).card = 3 := by
  decide +kernel

/-- What holds of the pages `rounds` before they are mapped. -/
structure Ahead (space : BitVec 64) (rounds : List Nat) (sys : System) :
    Prop where
  distinct : rounds.Nodup
  few : ∀ i ∈ rounds, i < userStackPages
  blank : ∀ i ∈ rounds, leafOf sys.view space (stackPage i) = none

/-- After a round its tables are there, and the rest is still ahead. -/
theorem Ahead.round {rounds : List Nat} {middle : System} (ahead : Ahead space (i :: rounds) sys)
    (inv : Inv sys) (alive : space ∈ sys.spaces) (took : Took sys middle phys)
    (placed : Placed middle later space (stackPage i) phys flags) :
    Ahead space rounds later ∧
      unlinked later.view space (waypoints (stackPage 0)) = ∅ ∧
      later.machine.pool.length + 1 +
        (unlinked sys.view space (waypoints (stackPage 0))).card =
          sys.machine.pool.length := by
  obtain ⟨fresh, distinct⟩ := List.nodup_cons.mp ahead.distinct
  have here := ahead.few i List.mem_cons_self
  have same := took.run.untouched inv
  have ways : unlinked middle.view space (waypoints (stackPage i)) =
      unlinked sys.view space (waypoints (stackPage i)) := by
    unfold unlinked
    simp only [(same.sameTables inv alive).tableAt]
  refine ⟨⟨distinct, fun j member => ahead.few j
    (List.mem_cons_of_mem _ member), fun j member => ?_⟩, ?_, ?_⟩
  · have also := ahead.few j (List.mem_cons_of_mem _ member)
    have other : j ≠ i := by
      rintro rfl
      exact fresh member
    rw [placed.elsewhere _ (stackPage_user also) (stackPage_ne also here other),
      (same.sameAt inv alive (stackPage j)).2]
    exact ahead.blank j (List.mem_cons_of_mem _ member)
  · refine Finset.filter_eq_empty_iff.mpr fun path member absent => ?_
    rw [← stackPage_waypoints here] at member
    exact ((placed.tables path).mp absent).2 member
  · have count := congrArg List.length took.pool
    have price := placed.price
    rw [List.length_cons] at count
    rw [ways, stackPage_waypoints here] at price
    omega

/-- With the tables there the rounds end, and with a frame for each page they
succeed. -/
theorem mapRounds_ends {rounds : List Nat} (tends : Tends space first sys)
    (ahead : Ahead space rounds sys)
    (linked : unlinked sys.view space (waypoints (stackPage 0)) = ∅) :
    ∃ outcome m, (rounds.foldlM (mapStackPage space) topFrame).exec
        sys.machine = some (outcome, m) ∧
      (rounds.length ≤ sys.machine.pool.length →
        ∃ top, outcome = .ok top) := by
  induction rounds generalizing sys topFrame with
  | nil => exact ⟨_, _, rfl, fun _ => ⟨topFrame, rfl⟩⟩
  | cons i rest induction =>
    have here := ahead.few i List.mem_cons_self
    have total : (mapStackPage space topFrame i).exec sys.machine ≠ none := by
      rw [Ne, mapStackPage_panics_iff here tends.inv tends.alive (ahead.blank i List.mem_cons_self),
        stackPage_waypoints here, linked, Finset.card_empty]
      omega
    obtain ⟨⟨outcome, m⟩, ran⟩ := Option.ne_none_iff_exists'.mp total
    rw [List.foldlM_cons, exec_bind, ran]
    obtain ⟨rfl, empty⟩ | ⟨top, middle, later, phys, rfl, rfl, took, placed⟩ :=
      mapStackPage_ends tends ran
    · refine ⟨_, _, rfl, fun enough => ?_⟩
      rw [List.length_cons] at enough
      omega
    · obtain ⟨rest, present, price⟩ :=
        ahead.round tends.inv tends.alive took placed
      obtain ⟨outcome, m, done, success⟩ :=
        induction (round_tends tends took placed) rest present
      refine ⟨outcome, m, done, fun enough => success ?_⟩
      rw [linked, Finset.card_empty] at price
      rw [List.length_cons] at enough
      omega

/-- Where the stack is still to be mapped, the frames decide: too few for the
tables is a panic, enough for the tables and the pages a success. -/
theorem mapStack_decides (inv : Inv sys) (alive : space ∈ sys.spaces)
    (blank : ∀ i < userStackPages, leafOf sys.view space (stackPage i) = none) :
    ((mapStack space).exec sys.machine = none ↔
      0 < sys.machine.pool.length ∧ sys.machine.pool.length ≤
        (unlinked sys.view space (waypoints (stackPage 0))).card) ∧
    (userStackPages +
        (unlinked sys.view space (waypoints (stackPage 0))).card ≤
          sys.machine.pool.length →
      ∃ top m, (mapStack space).exec sys.machine = some (.ok top, m)) := by
  have rounds : List.range userStackPages =
      0 :: List.range' 1 (userStackPages - 1) := by decide
  have ahead : Ahead space (0 :: List.range' 1 (userStackPages - 1)) sys := by
    rw [← rounds]
    exact ⟨List.nodup_range, fun i member => List.mem_range.mp member,
      fun i member => blank i (List.mem_range.mp member)⟩
  have panics := @mapStackPage_panics_iff _ _ 0 _ (by decide) inv alive (blank 0 (by decide))
  unfold mapStack
  rw [rounds, List.foldlM_cons, exec_bind]
  cases ran : (mapStackPage space 0 0).exec sys.machine with
  | none =>
    have dear := panics.mp ran
    refine ⟨iff_of_true rfl dear, fun enough => ?_⟩
    unfold userStackPages at enough
    omega
  | some result =>
    obtain ⟨outcome, m⟩ := result
    have cheap := mt panics.mpr (by rw [ran]; exact Option.some_ne_none _)
    obtain ⟨rfl, empty⟩ | ⟨top, middle, later, phys, rfl, rfl, took, placed⟩ :=
      mapStackPage_ends (tends_refl inv alive) ran
    · refine ⟨iff_of_false (Option.some_ne_none _) cheap, fun enough => ?_⟩
      unfold userStackPages at enough
      omega
    · obtain ⟨rest, present, price⟩ := ahead.round inv alive took placed
      obtain ⟨outcome, m, done, success⟩ := mapRounds_ends
        (round_tends (tends_refl inv alive) took placed) rest present
      dsimp only [Option.bind_some]
      rw [done]
      refine ⟨iff_of_false (Option.some_ne_none _) cheap, fun enough => ?_⟩
      obtain ⟨last, rfl⟩ := success (by
        rw [List.length_range']
        omega)
      exact ⟨last, m, rfl⟩

end

end Eonos.Process
