import Eonos.Process.FirstStack
import Eonos.Elf.Budget

/-!
# Starting a process with few frames

Taking frames for the image and for the stack may fail, and then the address
space is dropped and every frame goes back.  Mapping may not fail: a page table
that cannot be allocated is a panic.  Which of the two happens depends only on
the number of free frames and on the pages of the image.
-/

namespace Eonos.Process

open Eonos.Vmm
open Eonos.Elf
open Eonos.Spaces
open Eonos.Lib
open Eonos.Lib.Prog

section

variable {sys later first : System} {space : BitVec 64}

/-! ### The tables of the stack and of the program -/

theorem index_first {a b : BitVec 64} {level : Nat}
    (same : indices a (level + 1) = indices b (level + 1)) : index a 0 = index b 0 := by
  induction level with
  | zero => exact (List.cons.inj same).1
  | succ level induction => exact induction (List.cons.inj same).2

/-- Programs are in the lower half of the user's addresses. -/
theorem index_image {va : Nat} (low : va < loadMax) : (index (BitVec.ofNat 64 va) 0).val < 255 := by
  unfold loadMax at low
  rw [index_val, BitVec.toNat_ofNat]
  omega

theorem stack_ways_apart {pages : Finset Nat} (low : ∀ va ∈ pages, va < loadMax)
    {path : List (Fin 512)} (member : path ∈ waypoints (stackPage 0)) : path ∉ tableWays pages := by
  intro also
  obtain ⟨va, inside, way⟩ := Finset.mem_biUnion.mp also
  obtain ⟨level, -, rfl⟩ := mem_waypoints.mp member
  obtain ⟨other, -, equal⟩ := mem_waypoints.mp way
  have lengths := congrArg List.length equal
  rw [length_indices, length_indices] at lengths
  have levels : level = other := by omega
  subst levels
  have first := index_first equal
  have top : (index (stackPage 0) 0).val = 255 := by decide
  have below := index_image (low va inside)
  rw [← first, top] at below
  exact Nat.lt_irrefl _ below

theorem imagePages_low {image : List UInt8} (valid : ∀ s ∈ loadSegments image, s.Valid image) :
    ∀ va ∈ imagePages (loadSegments image), va < loadMax := by
  intro va member
  obtain ⟨whole, s, known, touches⟩ := (mem_imagePages fun s known =>
    (valid s known).positive).mp member
  exact touches.1.trans_le (valid s known).high

/-- After the program the stack lacks its three tables. -/
theorem Fitted.stack_ways {pages : Finset Nat} (fitted : Fitted space pages sys later)
    (low : ∀ va ∈ pages, va < loadMax) :
    (unlinked later.view space (waypoints (stackPage 0))).card = 3 := by
  rw [← waypoints_card]
  refine congrArg Finset.card (Finset.filter_true_of_mem fun path member => ?_)
  obtain ⟨level, -, equal⟩ := mem_waypoints.mp member
  have own : Own path := by
    rw [equal]
    exact own_way (stackPage_user (by decide)).1 _
  have proper : path ≠ [] := by
    rw [equal, indices_succ]
    exact List.cons_ne_nil _ _
  exact (fitted.tables path own proper).mpr (stack_ways_apart low member)

/-! ### Building the stack -/

theorem buildStack_panics_iff {argv env : List (List UInt8)} (inv : Inv sys)
    (alive : space ∈ sys.spaces) :
    (buildStack space argv env).exec sys.machine = none ↔
      (mapStack space).exec sys.machine = none := by
  unfold buildStack
  rw [exec_bind]
  cases mapped : (mapStack space).exec sys.machine with
  | none => exact iff_of_true rfl rfl
  | some result =>
    obtain ⟨outcome, m⟩ := result
    refine iff_of_false ?_ (Option.some_ne_none _)
    cases outcome with
    | error e => exact Option.some_ne_none _
    | ok topFrame =>
      obtain ⟨now, rfl, stacked⟩ :=
        (mapStack_allows inv alive).of_exec mapped
      obtain ⟨outcome, m, laid, -⟩ :=
        (layStack_ensures argv env stacked.blank).of_exec
      change (layStack topFrame argv env).exec now.machine ≠ none
      rw [laid]
      exact Option.some_ne_none _

/-- Without a stack pointer the space is still there, with all that was mapped
into it. -/
theorem buildStack_error {argv env : List (List UInt8)} {m : Machine} (inv : Inv sys)
    (alive : space ∈ sys.spaces)
    (failed : (buildStack space argv env).exec sys.machine = some (.error (), m)) :
    ∃ last, last.machine = m ∧ Tends space sys last := by
  have allowed : Allows (buildStack space argv env) sys.machine
      (fun _ _ => True)
      (fun _ m => ∃ last, last.machine = m ∧ Tends space sys last) := by
    unfold buildStack
    refine allows_bind ((mapStack_allows inv alive).mono ?_ ?_)
    · rintro topFrame - ⟨now, rfl, stacked⟩
      refine ((layStack_ensures argv env stacked.blank).allows).mono (fun _ _ _ => trivial) ?_
      rintro - m ⟨edits, -⟩
      obtain ⟨last, rfl, tends, -⟩ := stacked.edited edits
      exact ⟨last, rfl, tends⟩
    · rintro - m ⟨-, last⟩
      exact last
  exact allowed.of_exec failed

/-! ### Giving the frames back -/

/-- Dropping the new space gives back what it took. -/
theorem Tends.loans_dropped {last : System} (inv : Inv sys)
    (created : sys.create.spaces = space :: sys.spaces) (held : sys.create.held = sys.held)
    (tends : Tends space sys.create last) :
    (last.machine.dropSpace space).frames.loans = sys.machine.frames.loans := by
  obtain ⟨member, now, lent⟩ := inv.lifetime_lent created tends.life
  have same : ∀ f, (last.dropSpace space).machine.Lent f ↔
      sys.machine.Lent f := by
    intro f
    rw [lent, tends.held.mem_iff, held]
    by_cases ours : f ∈ sys.held
    · exact iff_of_true (.inr ours) (inv.lent f (List.mem_append_left _ ours))
    · simp only [ours, not_false_eq_true, and_true, or_false]
  have machine : (last.dropSpace space).machine =
      last.machine.dropSpace space := by rw [System.dropSpace]
  rw [← machine]
  ext n
  rw [(now.drop member).sound.mem_loans, inv.sound.mem_loans]
  simp only [same]

/-! ### The whole way -/

/-- The frames free before are enough for every table, or run out before the
first one is needed. -/
def Affordable (free : Nat) (image : List UInt8) : Prop :=
  free = 0 ∨ (∀ result, ¬ Lib.Returns (parse image) result) ∨
    Clash (loadSegments image) ∨
    free ≤ (imagePages (loadSegments image)).card ∨
    1 + (imagePages (loadSegments image)).card +
        (tableWays (imagePages (loadSegments image))).card = free ∨
    1 + (imagePages (loadSegments image)).card +
        (tableWays (imagePages (loadSegments image))).card + 3 < free

/-- The start ends, with nothing left on loan by a failure. -/
def Ends (before : Machine)
    (outcome : Option (Except SpawnError (BitVec 64 × Nat × Nat) × Machine)) :
    Prop :=
  ∃ result m, outcome = some (result, m) ∧
    ∀ e, result = .error e → m.frames.loans = before.frames.loans

theorem not_ends_none {before : Machine} : ¬ Ends before none := by
  rintro ⟨result, m, wrong, -⟩
  cases wrong

/-- Loading and building the stack in a space that was just created. -/
theorem prepare_made {image : List UInt8} {argv env : List (List UInt8)} {m : Machine}
    (inv : Inv sys) (made : sys.machine.createAddressSpace sys.kernel = some (space, m)) :
    Ends sys.machine (prepare sys.kernel image argv env sys.machine) ↔
      Affordable sys.machine.pool.length image := by
  have created : sys.create.machine = m ∧
      sys.create.spaces = space :: sys.spaces ∧
      sys.create.held = sys.held := by
    unfold System.create
    rw [made]
    exact ⟨rfl, rfl, rfl⟩
  obtain ⟨rfl, spaces, held⟩ := created
  have count := congrArg List.length (inv.creates made).takes.pool
  rw [List.length_cons] at count
  have fresh := inv.create_fresh spaces
  have alive : space ∈ sys.create.spaces := by
    rw [spaces]
    exact List.mem_cons_self
  unfold prepare
  rw [made]
  dsimp only
  by_cases accepted : ∃ result, Lib.Returns (parse image) result
  swap
  · -- an image that is refused costs nothing
    have refused : ∃ e, load image space sys.create.machine =
        some (.error e, sys.create.machine) := by
      unfold load
      cases parsed : (parse image).run with
      | none => exact absurd parsed parse_not_panics
      | some outcome =>
        cases outcome with
        | error e => exact ⟨e, rfl⟩
        | ok result => exact absurd ⟨result, parsed⟩ accepted
    obtain ⟨e, failed⟩ := refused
    rw [failed]
    refine iff_of_true ⟨_, _, rfl, fun _ _ => ?_⟩ (.inr (.inl (not_exists.mp accepted)))
    exact Tends.loans_dropped inv spaces held (tends_refl inv.create alive)
  obtain ⟨⟨entry, segments⟩, accepted⟩ := accepted
  obtain ⟨rfl, valid, -⟩ := parse_returns accepted
  have parses : ¬ ∀ result, ¬ Lib.Returns (parse image) result :=
    fun none => none _ accepted
  obtain ⟨short, e, m, failed⟩ | ⟨enough, apart, dear, panicked⟩ |
    ⟨apart, later, loaded, fitted⟩ :=
      load_decides inv.create alive fresh accepted
  · rw [failed]
    refine iff_of_true ⟨_, _, rfl, fun _ _ => ?_⟩ ?_
    · obtain ⟨later, run, rfl, back⟩ := load_rejected failed
      have same := run.untouched inv.create
      exact Tends.loans_dropped inv spaces held
        ⟨same.inv, same.spaces.symm ▸ alive, run.lifetime space, back⟩
    · unfold Affordable
      rcases short with few | clash
      · exact .inr (.inr (.inr (.inl (by omega))))
      · exact .inr (.inr (.inl clash))
  · rw [panicked]
    refine iff_of_false not_ends_none ?_
    unfold Affordable
    simp only [parses, apart, false_or]
    omega
  · have price := fitted.price
    have ways := Fitted.stack_ways fitted (imagePages_low valid)
    have panics := (mapStack_decides fitted.inv fitted.alive fun i few =>
      fitted.blank _ (stackPage_user few) (stackPage_high few)).1
    rw [ways, ← @buildStack_panics_iff _ _ argv env fitted.inv fitted.alive] at panics
    rw [loaded, Option.bind_some]
    dsimp only
    cases built : (buildStack space argv env).exec later.machine with
    | none =>
      have few := panics.mp built
      refine iff_of_false not_ends_none ?_
      unfold Affordable
      simp only [parses, apart, false_or]
      omega
    | some result =>
      obtain ⟨outcome, m⟩ := result
      have many := mt panics.mpr (by rw [built]; exact Option.some_ne_none _)
      refine iff_of_true ?_ ?_
      · cases outcome with
        | ok sp => exact ⟨_, _, rfl, fun e wrong => nomatch wrong⟩
        | error e =>
          obtain ⟨last, rfl, tends⟩ :=
            buildStack_error fitted.inv fitted.alive built
          refine ⟨_, _, rfl, fun _ _ => ?_⟩
          exact Tends.loans_dropped inv spaces held (Tends.trans fitted.toTends tends)
      · refine .inr (.inr (.inr (.inr ?_)))
        omega

end

end Eonos.Process
