import Eonos.Spaces.Isolation

/-!
# Every frame is accounted for

Apart from the kernel's tables, a frame goes on loan when it enters the ledger
and comes back when it leaves.  Dropping a space therefore returns its frames
and nothing else.
-/

namespace Eonos.Spaces

open Eonos.Vmm

/-- The frames on loan that are not in the ledger are the same. -/
def Conserves (sys later : System) : Prop :=
  ∀ f, later.machine.Lent f ∧ f ∉ later.ledger ↔
    sys.machine.Lent f ∧ f ∉ sys.ledger

section

variable {sys later : System} {space : BitVec 64}

/-- Frames that come into the ledger when they go on loan. -/
theorem conserves_taken {used : List (BitVec 64)}
    (lent : ∀ f, later.machine.Lent f ↔ sys.machine.Lent f ∨ f ∈ used)
    (ledger : later.ledger.Perm (used ++ sys.ledger))
    (fresh : ∀ f ∈ used, ¬ sys.machine.Lent f) : Conserves sys later := by
  intro f
  rw [lent, ledger.mem_iff, List.mem_append]
  have apart := fresh f
  tauto

/-- Frames that leave the ledger when they come back. -/
theorem conserves_freed {calls : List (BitVec 64)}
    (lent : ∀ f, later.machine.Lent f ↔ sys.machine.Lent f ∧ f ∉ calls)
    (ledger : sys.ledger.Perm (calls ++ later.ledger)) : Conserves sys later := by
  intro f
  rw [lent, ledger.mem_iff, List.mem_append]
  tauto

theorem ActsOn.conserves (acts : ActsOn sys space later) (inv : Inv sys)
    (member : space ∈ sys.spaces) : Conserves sys later := by
  obtain ⟨virt, s, held, mapped, low, down, moves, rfl⟩ := acts
  obtain ⟨used, taken, -, -⟩ := down.taken
  exact conserves_taken (fun f => inv.moved_lent taken)
    (inv.moved_ledger member taken moves)
    fun f fresh => inv.used_not_lent taken fresh

theorem Receives.conserves {frames : List (BitVec 64)}
    (receives : Receives sys later frames) : Conserves sys later := by
  obtain ⟨machine, lends, rfl⟩ := receives
  refine conserves_taken (fun f => lends.lent) ?_ lends.fresh
  rw [System.ledger, List.append_assoc]
  exact List.Perm.refl _

theorem Inv.perform_conserves {event : Event} (inv : Inv sys) (kind : event.onKernel = false)
    (result : sys.perform event = some later) : Conserves sys later := by
  cases event with
  | create =>
    cases result
    unfold System.create
    cases result : sys.machine.createAddressSpace sys.kernel with
    | none => exact fun f => Iff.rfl
    | some made =>
      obtain ⟨space, machine⟩ := made
      have creates := inv.creates result
      refine @conserves_taken _ _ [space] ?_ (creates.ledger inv) ?_
      · intro f
        rw [List.mem_singleton]
        exact creates.takes.lent
      · intro f fresh
        rw [List.mem_singleton.mp fresh]
        exact creates.fresh inv
  | map space virt phys flags =>
    obtain ⟨allowed, result⟩ := Option.ite_none_right_eq_some.mp result
    exact (inv.map allowed.1 allowed.2 result).2.conserves inv allowed.1
  | unmap space virt =>
    obtain ⟨member, result⟩ := Option.ite_none_right_eq_some.mp result
    exact (inv.unmap member result).2.conserves inv member
  | protect space virt flags =>
    obtain ⟨member, result⟩ := Option.ite_none_right_eq_some.mp result
    exact (inv.protect member result).2.conserves inv member
  | drop space =>
    obtain ⟨member, result⟩ := Option.ite_none_right_eq_some.mp result
    have all := inv.freeUserHalf_perm member
    rw [← Option.some.inj result, System.dropSpace_eq]
    exact conserves_freed (inv.without member all).2.1 (System.without_ledger member all)
  | mapPage virt phys flags => cases kind
  | unmapPage virt => cases kind
  | protectPage virt flags => cases kind
  | alloc =>
    cases result
    rcases inv.alloc_cases with same | ⟨frames, receives⟩
    · rw [same]
      exact fun f => Iff.rfl
    · exact receives.conserves
  | allocContiguous count =>
    cases result
    rcases inv.allocContiguous_cases count with same | ⟨frames, receives⟩
    · rw [same]
      exact fun f => Iff.rfl
    · exact receives.conserves
  | reclaim =>
    obtain ⟨first, result⟩ := Option.ite_none_right_eq_some.mp result
    cases result
    exact (inv.reclaim_receives first).conserves
  | free frame =>
    obtain ⟨ours, result⟩ := Option.ite_none_right_eq_some.mp result
    cases result
    have split := System.free_ledger ours
    obtain ⟨-, -, lent⟩ := inv.sound.freeFrame
      (inv.lent frame (split.mem_iff.mpr List.mem_cons_self))
    refine @conserves_freed _ _ [frame] ?_ split
    intro f
    rw [List.mem_singleton]
    exact lent
  | store frame bytes =>
    obtain ⟨-, result⟩ := Option.ite_none_right_eq_some.mp result
    cases result
    intro f
    exact and_congr ⟨fun ⟨masked, loan⟩ => ⟨masked, loan⟩,
      fun ⟨masked, loan⟩ => ⟨masked, loan⟩⟩ Iff.rfl

/-! ### The life of one space -/

/-- The events in the life of `space`: those on its tables, and what callers do
with their own frames. -/
def Event.Serves (event : Event) (space : BitVec 64) : Prop :=
  match event with
  | .map target _ _ _ => target = space
  | .unmap target _ => target = space
  | .protect target _ _ => target = space
  | .alloc | .allocContiguous _ | .reclaim | .free _ | .store _ _ => True
  | _ => False

def Lifetime (space : BitVec 64) : System → System → Prop :=
  Relation.ReflTransGen fun sys later =>
    ∃ event : Event, event.Serves space ∧ sys.perform event = some later

theorem lifetime_run {events : List Event} (serve : ∀ event ∈ events, event.Serves space)
    (ran : events.foldlM System.perform sys = some later) : Lifetime space sys later := by
  induction events generalizing sys with
  | nil =>
    cases ran
    exact .refl
  | cons event rest induction =>
    rw [List.foldlM_cons] at ran
    obtain ⟨middle, first, ran⟩ := Option.bind_eq_some_iff.mp ran
    have others := induction (fun event member => serve event (List.mem_cons_of_mem _ member)) ran
    exact .head ⟨event, serve event List.mem_cons_self, first⟩ others

/-- The records of every other space are the same. -/
structure SameOthers (space : BitVec 64) (sys later : System) : Prop where
  spaces : later.spaces = sys.spaces
  tables : ∀ other, other ≠ space → later.tables other = sys.tables other
  mapped : ∀ other, other ≠ space → later.mapped other = sys.mapped other

theorem SameOthers.trans {middle : System} (first : SameOthers space sys middle)
    (second : SameOthers space middle later) : SameOthers space sys later :=
  ⟨second.spaces.trans first.spaces,
    fun other apart => (second.tables other apart).trans
      (first.tables other apart),
    fun other apart => (second.mapped other apart).trans
      (first.mapped other apart)⟩

theorem ActsOn.sameOthers (acts : ActsOn sys space later) : SameOthers space sys later := by
  obtain ⟨virt, s, held, mapped, -, -, -, rfl⟩ := acts
  exact ⟨rfl, fun other apart => Function.update_of_ne apart _ _,
    fun other apart => Function.update_of_ne apart _ _⟩

theorem Receives.sameOthers {frames : List (BitVec 64)}
    (receives : Receives sys later frames) : SameOthers space sys later := by
  obtain ⟨machine, -, rfl⟩ := receives
  exact ⟨rfl, fun _ _ => rfl, fun _ _ => rfl⟩

theorem Inv.serves {event : Event} (inv : Inv sys) (serves : event.Serves space)
    (result : sys.perform event = some later) :
    event.onKernel = false ∧ SameOthers space sys later := by
  cases event with
  | map target virt phys flags =>
    cases serves
    obtain ⟨allowed, result⟩ := Option.ite_none_right_eq_some.mp result
    exact ⟨rfl, (inv.map allowed.1 allowed.2 result).2.sameOthers⟩
  | unmap target virt =>
    cases serves
    obtain ⟨member, result⟩ := Option.ite_none_right_eq_some.mp result
    exact ⟨rfl, (inv.unmap member result).2.sameOthers⟩
  | protect target virt flags =>
    cases serves
    obtain ⟨member, result⟩ := Option.ite_none_right_eq_some.mp result
    exact ⟨rfl, (inv.protect member result).2.sameOthers⟩
  | alloc =>
    cases result
    rcases inv.alloc_cases with same | ⟨frames, receives⟩
    · rw [same]
      exact ⟨rfl, rfl, fun _ _ => rfl, fun _ _ => rfl⟩
    · exact ⟨rfl, receives.sameOthers⟩
  | allocContiguous count =>
    cases result
    rcases inv.allocContiguous_cases count with same | ⟨frames, receives⟩
    · rw [same]
      exact ⟨rfl, rfl, fun _ _ => rfl, fun _ _ => rfl⟩
    · exact ⟨rfl, receives.sameOthers⟩
  | reclaim =>
    obtain ⟨first, result⟩ := Option.ite_none_right_eq_some.mp result
    cases result
    exact ⟨rfl, (inv.reclaim_receives first).sameOthers⟩
  | free frame =>
    obtain ⟨-, result⟩ := Option.ite_none_right_eq_some.mp result
    cases result
    exact ⟨rfl, rfl, fun _ _ => rfl, fun _ _ => rfl⟩
  | store frame bytes =>
    obtain ⟨-, result⟩ := Option.ite_none_right_eq_some.mp result
    cases result
    exact ⟨rfl, rfl, fun _ _ => rfl, fun _ _ => rfl⟩
  | create | drop | mapPage | unmapPage | protectPage => cases serves

theorem Lifetime.keeps (life : Lifetime space sys later) (inv : Inv sys) :
    Inv later ∧ Conserves sys later ∧ SameOthers space sys later := by
  induction life with
  | refl =>
    exact ⟨inv, fun f => Iff.rfl, rfl, fun _ _ => rfl, fun _ _ => rfl⟩
  | tail _ taken induction =>
    obtain ⟨now, conserves, same⟩ := induction
    obtain ⟨event, serves, result⟩ := taken
    obtain ⟨kind, step⟩ := now.serves serves result
    refine ⟨now.perform result, fun f => ?_, same.trans step⟩
    exact (now.perform_conserves kind result f).trans (conserves f)

theorem Machine.Sound.mem_loans {m : Machine} (sound : m.Sound) {n : Nat} :
    n ∈ m.frames.loans ↔ ∃ f, m.Lent f ∧ frameNo f = n := by
  constructor
  · intro loan
    have below := sound.frames.layout.available_lt (sound.frames.lent n loan).1
    have small := sound.small
    have value : (BitVec.ofNat 64 (n * 4096)).toNat = n * 4096 := by
      rw [BitVec.toNat_ofNat]
      exact Nat.mod_eq_of_lt (by omega)
    have number : frameNo (BitVec.ofNat 64 (n * 4096)) = n := by
      rw [frameNo, value, Nat.mul_div_cancel _ (by decide)]
    refine ⟨BitVec.ofNat 64 (n * 4096), ⟨?_, ?_⟩, number⟩
    · exact and_addrMask_of_aligned (by omega) (by omega)
    · rw [number]
      exact loan
  · rintro ⟨f, lent, rfl⟩
    exact lent.loan

theorem System.create_others (created : sys.create.spaces = space :: sys.spaces) {other : BitVec 64}
    (apart : other ≠ space) :
    sys.create.tables other = sys.tables other ∧ sys.create.mapped other = sys.mapped other := by
  unfold System.create at created ⊢
  cases result : sys.machine.createAddressSpace sys.kernel with
  | none => exact ⟨rfl, rfl⟩
  | some made =>
    rw [result, Option.elim_some] at created
    have same : made.1 = space := (List.cons.inj created).1
    rw [← same] at apart
    exact ⟨Function.update_of_ne apart _ _, Function.update_of_ne apart _ _⟩

theorem System.dropSpace_records (sys : System) (space : BitVec 64) :
    (sys.dropSpace space).held = sys.held ∧
      (sys.dropSpace space).spaces = sys.spaces.erase space ∧
      (sys.dropSpace space).tables = sys.tables ∧
      (sys.dropSpace space).mapped = sys.mapped := by
  rw [System.dropSpace]
  exact ⟨rfl, rfl, rfl, rfl⟩

theorem Inv.lifetime_ledger {last : System} (inv : Inv sys)
    (created : sys.create.spaces = space :: sys.spaces) (same : SameOthers space sys.create last) :
    ∃ rest, sys.ledger = sys.held ++ rest ∧ (last.dropSpace space).ledger = last.held ++ rest := by
  refine ⟨_, rfl, ?_⟩
  obtain ⟨held, spaces, tables, mapped⟩ := last.dropSpace_records space
  have nodup := inv.create.nodup
  rw [created] at nodup
  have outside := (List.nodup_cons.mp nodup).1
  rw [System.ledger, held, spaces, tables, mapped, same.spaces, created, List.erase_cons_head]
  refine congrArg (last.held ++ ·) (List.flatMap_congr fun other known => ?_)
  have apart : other ≠ space := by
    rintro rfl
    exact outside known
  obtain ⟨recorded, placed⟩ := System.create_others created apart
  rw [same.tables other apart, same.mapped other apart, recorded, placed]

/-- What is on loan when a space that was created is gone again. -/
theorem Inv.lifetime_lent {last : System} (inv : Inv sys)
    (created : sys.create.spaces = space :: sys.spaces) (life : Lifetime space sys.create last) :
    space ∈ last.spaces ∧ Inv last ∧
      ∀ f, (last.dropSpace space).machine.Lent f ↔
        sys.machine.Lent f ∧ f ∉ sys.held ∨ f ∈ last.held := by
  obtain ⟨now, conserves, same⟩ := life.keeps inv.create
  have member : space ∈ last.spaces := by
    rw [same.spaces, created]
    exact List.mem_cons_self
  refine ⟨member, now, fun f => ?_⟩
  have made : sys.perform .create = some sys.create := rfl
  have gone : last.perform (.drop space) = some (last.dropSpace space) :=
    if_pos member
  have final := now.drop member
  have account : (last.dropSpace space).machine.Lent f ∧
      f ∉ (last.dropSpace space).ledger ↔
        sys.machine.Lent f ∧ f ∉ sys.ledger :=
    (now.perform_conserves rfl gone f).trans ((conserves f).trans
      (inv.perform_conserves rfl made f))
  obtain ⟨rest, before, after⟩ := inv.lifetime_ledger created same
  have listed := inv.lent f
  have finalListed := final.lent f
  have apart := (List.nodup_append.mp (before ▸ inv.ledger)).2.2
  rw [before, List.mem_append] at account listed
  rw [after, List.mem_append] at account finalListed
  constructor
  · intro lent
    by_cases ours : f ∈ last.held
    · exact .inr ours
    by_cases other : f ∈ rest
    · exact .inl ⟨listed (.inr other), fun own => apart f own f other rfl⟩
    · obtain ⟨before, unlisted⟩ :=
        account.mp ⟨lent, fun known => known.elim ours other⟩
      exact .inl ⟨before, fun own => unlisted (.inl own)⟩
  · rintro (⟨lent, unheld⟩ | ours)
    · by_cases other : f ∈ rest
      · exact finalListed (.inr other)
      · exact (account.mpr ⟨lent, fun known => known.elim unheld other⟩).1
    · exact finalListed (.inl ours)

end

/-- In every state any run reaches, dropping a space frees each frame of its
tables and each frame mapped into its user half once, every call is accepted,
and nothing that belongs to a caller, to the kernel or to another space is
freed.  After the life of a space, from its creation to its drop, the frames
on loan are those from before that were not in a caller's hands, and those in
a caller's hands now. -/
theorem reachable_drop_exact {map : Physical.MemoryMap} {sys : System}
    (reachable : Reachable map sys) :
    (∀ space ∈ sys.spaces, ∀ calls, calls = freeUserHalf sys.machine.mem space →
      calls.Perm (sys.tables space ++ sys.mapped space) ∧ calls.Nodup ∧
      (∀ f, f ∈ calls ↔ OwnTable sys.view space f ∨
        ∃ page, UserPage page ∧
          AddressSpace.translate sys.view space page = some f) ∧
      (∀ f ∈ calls, f ∉ sys.held ∧
        (∀ path, sys.view.tableAt sys.kernel path ≠ some f) ∧
        ∀ other ∈ sys.spaces, other ≠ space →
          f ∉ sys.tables other ++ sys.mapped other) ∧
      Accepted sys.machine calls ∧
      ∀ n, n ∈ (sys.machine.dropSpace space).frames.loans ↔
        n ∈ sys.machine.frames.loans ∧ n ∉ calls.map frameNo) ∧
    ∀ space last final, sys.create.spaces = space :: sys.spaces →
      Lifetime space sys.create last →
      last.perform (.drop space) = some final →
        ∀ n, n ∈ final.machine.frames.loans ↔
          n ∈ sys.machine.frames.loans ∧ n ∉ sys.held.map frameNo ∨
            n ∈ final.held.map frameNo := by
  have inv := reachable.inv
  refine ⟨?_, ?_⟩
  · intro space member calls shape
    have records := inv.space space member
    have all := inv.freeUserHalf_perm member
    rw [← shape] at all
    have split := System.without_ledger member all
    obtain ⟨nodup, -, apart⟩ :=
      List.nodup_append.mp (split.nodup_iff.mp inv.ledger)
    have inLedger : ∀ f ∈ calls, f ∈ sys.ledger := fun f inside =>
      split.mem_iff.mpr (List.mem_append_left _ inside)
    obtain ⟨accepted, lent, after⟩ := inv.without member all
    refine ⟨all, nodup, ?_, ?_, accepted, ?_⟩
    · intro f
      rw [all.mem_iff, List.mem_append, records.tables, records.frames]
      rfl
    · intro f inside
      refine ⟨?_, ?_, ?_⟩
      · intro ours
        exact apart f inside f (List.mem_append_left _ ours) rfl
      · intro path found
        exact (inv.kernelLent path f found).2 (inLedger f inside)
      · intro other another distinct
        exact inv.disjoint member another distinct.symm (all.mem_iff.mp inside)
    · intro n
      have machine : sys.machine.dropSpace space = (sys.without space calls).machine := by
        rw [shape, Machine.dropSpace, System.without]
      rw [machine, after.sound.mem_loans, inv.sound.mem_loans]
      constructor
      · rintro ⟨f, onLoan, rfl⟩
        obtain ⟨before, kept⟩ := (lent f).mp onLoan
        refine ⟨⟨f, before, rfl⟩, fun freed => ?_⟩
        obtain ⟨g, inside, number⟩ := List.mem_map.mp freed
        have same := frameNo_inj (inv.lent g (inLedger g inside)).masked before.masked number
        exact kept (same ▸ inside)
      · rintro ⟨⟨f, before, rfl⟩, kept⟩
        exact ⟨f, (lent f).mpr ⟨before, fun freed =>
          kept (List.mem_map_of_mem freed)⟩, rfl⟩
  · intro space last final created life dropped n
    obtain ⟨member, now, lent⟩ := inv.lifetime_lent created life
    have gone : last.perform (.drop space) = some (last.dropSpace space) :=
      if_pos member
    have equal := Option.some.inj (dropped.symm.trans gone)
    have sound := (now.drop member).sound
    rw [equal, (last.dropSpace_records space).1, sound.mem_loans, inv.sound.mem_loans]
    constructor
    · rintro ⟨f, onLoan, rfl⟩
      rcases (lent f).mp onLoan with ⟨before, unheld⟩ | ours
      · refine .inl ⟨⟨f, before, rfl⟩, fun held => ?_⟩
        obtain ⟨g, inside, number⟩ := List.mem_map.mp held
        have same := frameNo_inj (inv.lent g (List.mem_append_left _ inside)).masked before.masked
          number
        exact unheld (same ▸ inside)
      · exact .inr (List.mem_map_of_mem ours)
    · rintro (⟨⟨f, before, rfl⟩, unheld⟩ | held)
      · exact ⟨f, (lent f).mpr (.inl ⟨before, fun ours =>
          unheld (List.mem_map_of_mem ours)⟩), rfl⟩
      · obtain ⟨f, ours, rfl⟩ := List.mem_map.mp held
        exact ⟨f, (lent f).mpr (.inr ours), rfl⟩

/-- Two frames are mapped and one of them is unmapped again. -/
def sampleLife : List Event :=
  [.alloc, .alloc, .map 0x105000 0x400000 0x106000 userRw,
    .map 0x105000 0x401000 0x107000 userRw, .unmap 0x105000 0x401000]

theorem sampleLife_keeps_one_frame :
    ∃ sys final, sampleStart = some sys ∧
      ((sampleLife.foldlM System.perform sys.create).bind fun last =>
        last.perform (.drop 0x105000)) = some final ∧
      ∀ n, n ∈ final.machine.frames.loans ↔
        n ∈ sys.machine.frames.loans ∨ n = 0x107 := by
  have evaluated : (sampleStart.bind fun sys =>
      ((sampleLife.foldlM System.perform sys.create).bind fun last =>
        last.perform (.drop 0x105000)).map fun final =>
          (sys.held, sys.spaces, sys.create.spaces, final.held)) =
      some ([], [], [0x105000], [0x107000]) := by decide +kernel
  obtain ⟨sys, start, evaluated⟩ := Option.bind_eq_some_iff.mp evaluated
  obtain ⟨final, ran, facts⟩ := Option.map_eq_some_iff.mp evaluated
  obtain ⟨last, lived, dropped⟩ := Option.bind_eq_some_iff.mp ran
  simp only [Prod.mk.injEq] at facts
  obtain ⟨held, spaces, created, finalHeld⟩ := facts
  have reachable : Reachable Physical.sampleMap sys :=
    Lib.Reachable.start (sampleStart_initial start)
  have serve : ∀ event ∈ sampleLife, event.Serves 0x105000 := by
    simp [sampleLife, Event.Serves]
  refine ⟨sys, final, start, ran, fun n => ?_⟩
  rw [(reachable_drop_exact reachable).2 0x105000 last final (by rw [created, spaces]) (lifetime_run
    serve lived) dropped n, held, finalHeld]
  simp [frameNo]

end Eonos.Spaces
