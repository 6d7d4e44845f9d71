import Eonos.Lib.CycleRing

/-!
# Rings of transfer requests

`Ring` of `drivers/usb/xhci.rs` and a controller that consumes it: it owns an
entry that carries its cycle state, takes it, and follows an entry of type Link
to the entry the link points at.
-/

namespace Eonos.Usb

open Eonos.Lib

structure Trb where
  parameter : BitVec 64
  status : BitVec 32
  control : BitVec 32
deriving DecidableEq, Repr

def trbCycle : BitVec 32 := 1

def trbToggleCycle : BitVec 32 := 2

def trbChain : BitVec 32 := 1 <<< 4

/-- Interrupt on completion. -/
def trbIoc : BitVec 32 := 1 <<< 5

def trbType (control : BitVec 32) : BitVec 32 := (control >>> 10) &&& 0x3f

def makeType (t : BitVec 32) : BitVec 32 := (t &&& 0x3f) <<< 10

def trbTypeNormal : BitVec 32 := 1
def trbTypeSetupStage : BitVec 32 := 2
def trbTypeDataStage : BitVec 32 := 3
def trbTypeStatusStage : BitVec 32 := 4
def trbTypeLink : BitVec 32 := 6
def trbTypeEnableSlot : BitVec 32 := 9
def trbTypeDisableSlot : BitVec 32 := 10
def trbTypeAddressDevice : BitVec 32 := 11
def trbTypeConfigureEndpoint : BitVec 32 := 12
def trbTypeEvaluateContext : BitVec 32 := 13
def trbTypeTransferEvent : BitVec 32 := 32
def trbTypeCommandCompletion : BitVec 32 := 33

def ringSize : Nat := 16

/-- The page of a ring is the array its pointer points at. -/
structure Ring where
  trbs : Nat → Trb
  phys : BitVec 64
  enqueue : Nat
  cycle : BitVec 32

namespace Ring

/-- What `allocate` makes of a zeroed frame. -/
def allocate (withLink : Bool) (phys : BitVec 64) : Ring where
  trbs :=
    if withLink then
      Function.update (fun _ => ⟨0, 0, 0⟩) (ringSize - 1)
        ⟨phys, 0, makeType trbTypeLink ||| trbToggleCycle ||| trbCycle⟩
    else fun _ => ⟨0, 0, 0⟩
  phys := phys
  enqueue := 0
  cycle := 1

def setCycle (trb : Trb) (cycle : BitVec 32) : Trb :=
  { trb with control := (trb.control &&& ~~~trbCycle) ||| cycle }

/-- `push` up to the advance of the index. -/
def store (r : Ring) (trb : Trb) : Ring :=
  { r with
    trbs := Function.update r.trbs r.enqueue (setCycle trb r.cycle)
    enqueue := r.enqueue + 1 }

/-- What `push` does at the link. -/
def wrap (r : Ring) : Ring :=
  { r with
    trbs := Function.update r.trbs (ringSize - 1)
      (setCycle (r.trbs (ringSize - 1)) r.cycle)
    enqueue := 0
    cycle := r.cycle ^^^ 1 }

/-- The address of an entry. -/
def slotPhys (r : Ring) (index : Nat) : BitVec 64 :=
  r.phys + BitVec.ofNat 64 index * 16

def push (r : Ring) (trb : Trb) : BitVec 64 × Ring :=
  let stored := r.store trb
  (r.slotPhys r.enqueue,
    if stored.enqueue = ringSize - 1 then stored.wrap else stored)

end Ring

/-! ### The consumer -/

structure Consumer where
  dequeue : Nat
  cycle : BitVec 32
deriving DecidableEq, Repr

/-- Where a link leads, as an index into the ring. -/
def linkTarget (r : Ring) (trb : Trb) : Nat :=
  (trb.parameter - r.phys).toNat / 16

/-- What the consumer does next: nothing if it does not own the entry, else it
follows a link or takes the entry. -/
def Consumer.next (consumer : Consumer) (r : Ring) : Option (Option Trb × Consumer) :=
  let trb := r.trbs consumer.dequeue
  if trb.control &&& trbCycle ≠ consumer.cycle then none
  else if trbType trb.control = trbTypeLink then
    some (none,
      { dequeue := linkTarget r trb
        cycle :=
          if trb.control &&& trbToggleCycle = 0 then consumer.cycle
          else consumer.cycle ^^^ 1 })
  else some (some trb, { consumer with dequeue := consumer.dequeue + 1 })

/-- A ring between its producer and its consumer; neither reads the logs of
what was given to `push` and of what was taken. -/
structure Traffic where
  ring : Ring
  consumer : Consumer
  pushed : List Trb
  taken : List Trb

namespace Traffic

variable (t : Traffic)

def unconsumed : Nat := t.pushed.length - t.taken.length

/-- The two writes of `push` and the moves of the consumer. -/
inductive Act
  | store (trb : Trb)
  | wrap
  | consume
deriving DecidableEq, Repr

def perform : Act → Option Traffic
  | .store trb =>
    if t.ring.enqueue < ringSize - 1 ∧ trbType trb.control ≠ trbTypeLink then
      some { t with ring := t.ring.store trb, pushed := t.pushed ++ [trb] }
    else none
  | .wrap =>
    if t.ring.enqueue = ringSize - 1 then some { t with ring := t.ring.wrap }
    else none
  | .consume =>
    (t.consumer.next t.ring).map fun result =>
      { t with
        consumer := result.2
        taken := t.taken ++ result.1.toList }

/-- A ring as `Ring::new` makes it, and a consumer that starts with it. -/
def start (phys : BitVec 64) : Traffic :=
  ⟨Ring.allocate true phys, ⟨0, 1⟩, [], []⟩

/-- At most 15 entries are unconsumed, and at most 14 while the consumer has
not followed the link it stands on. -/
def Bounded : Prop :=
  t.unconsumed ≤ 15 ∧ (t.consumer.dequeue = 15 → t.unconsumed ≤ 14)

def Reachable (holds : Traffic → Prop) : Traffic → Prop :=
  Lib.Reachable (fun t => ∃ phys, t = start phys)
    fun t later => (∃ act, t.perform act = some later) ∧ holds later

end Traffic

/-- What a request says apart from whose turn it is. -/
def Trb.body (trb : Trb) : Trb := Ring.setCycle trb 0

/-! ### The cycle bit in the control word -/

def IsCycle (b : BitVec 32) : Prop := b = 0 ∨ b = 1

theorem IsCycle.flip {b : BitVec 32} (cycle : IsCycle b) :
    IsCycle (b ^^^ 1) ∧ (b ^^^ 1 == 1) = !(b == 1) := by
  rcases cycle with rfl | rfl
  · exact ⟨.inr rfl, rfl⟩
  · exact ⟨.inl rfl, rfl⟩

section

variable {b : BitVec 32} (trb : Trb)

theorem setCycle_and (mask : BitVec 32) :
    (Ring.setCycle trb b).control &&& mask =
      (trb.control &&& (~~~trbCycle &&& mask)) ||| (b &&& mask) := by
  rw [Ring.setCycle, BitVec.and_or_distrib_right, BitVec.and_assoc]

theorem setCycle_cycle (cycle : IsCycle b) : (Ring.setCycle trb b).control &&& trbCycle = b := by
  have masked : ~~~trbCycle &&& trbCycle = 0#32 := by decide
  rw [setCycle_and, masked, BitVec.and_zero, BitVec.zero_or]
  rcases cycle with rfl | rfl <;> decide

theorem setCycle_toggle (cycle : IsCycle b) :
    (Ring.setCycle trb b).control &&& trbToggleCycle = trb.control &&& trbToggleCycle := by
  have masked : ~~~trbCycle &&& trbToggleCycle = trbToggleCycle := by decide
  have apart : b &&& trbToggleCycle = 0#32 := by
    rcases cycle with rfl | rfl <;> decide
  rw [setCycle_and, masked, apart, BitVec.or_zero]

theorem setCycle_type (cycle : IsCycle b) :
    trbType (Ring.setCycle trb b).control = trbType trb.control := by
  have masked : (~~~trbCycle >>> 10) &&& 0x3f = 0x3f#32 := by decide
  have apart : b >>> 10 = 0#32 := by rcases cycle with rfl | rfl <;> decide
  unfold trbType Ring.setCycle
  dsimp only
  rw [BitVec.ushiftRight_or_distrib, BitVec.ushiftRight_and_distrib, apart,
    BitVec.or_zero, BitVec.and_assoc, masked]
  rfl

theorem body_setCycle (cycle : IsCycle b) : (Ring.setCycle trb b).body = trb.body := by
  have apart : b &&& ~~~trbCycle = 0#32 := by
    rcases cycle with rfl | rfl <;> decide
  have control : (Ring.setCycle trb b).control &&& ~~~trbCycle = trb.control &&& ~~~trbCycle := by
    rw [setCycle_and, BitVec.and_self, apart, BitVec.or_zero]
  unfold Trb.body
  rw [Ring.setCycle, control]
  rfl

end

/-! ### The ring is one with cycle bits -/

namespace Traffic

/-- What the two sides know of a ring. -/
def abstract (t : Traffic) : CycleRing.State Trb where
  entries i :=
    if i < ringSize - 1 then
      ((t.ring.trbs i).body, (t.ring.trbs i).control &&& trbCycle == 1)
    else (⟨0, 0, 0⟩, false)
  link := (t.ring.trbs (ringSize - 1)).control &&& trbCycle == 1
  enqueue := t.ring.enqueue
  cycle := t.ring.cycle == 1
  dequeue := t.consumer.dequeue
  expects := t.consumer.cycle == 1
  sent := t.pushed.map Trb.body
  seen := t.taken.map Trb.body

/-- The last entry is the link, and only that one. -/
structure Shaped (t : Traffic) : Prop where
  cycle : IsCycle t.ring.cycle
  expects : IsCycle t.consumer.cycle
  plain : ∀ i < ringSize - 1,
    trbType (t.ring.trbs i).control ≠ trbTypeLink
  link : trbType (t.ring.trbs (ringSize - 1)).control = trbTypeLink
  toggles : (t.ring.trbs (ringSize - 1)).control &&& trbToggleCycle ≠ 0
  target : (t.ring.trbs (ringSize - 1)).parameter = t.ring.phys

section

variable {t later : Traffic}

/-- The bit of an entry, compared with a cycle state. -/
theorem owned_iff (trb : Trb) {b : BitVec 32} (cycle : IsCycle b) :
    trb.control &&& trbCycle = b ↔ (trb.control &&& trbCycle == 1) = (b == 1) := by
  have bit : IsCycle (trb.control &&& trbCycle) := by
    unfold IsCycle trbCycle
    have small : (trb.control &&& 1).toNat < 2 := by
      rw [BitVec.toNat_and]
      exact Nat.lt_succ_of_le Nat.and_le_right
    rw [← BitVec.toNat_inj, ← BitVec.toNat_inj]
    change (trb.control &&& 1).toNat = 0 ∨ (trb.control &&& 1).toNat = 1
    omega
  rcases bit with bit | bit <;> rcases cycle with rfl | rfl <;>
    rw [bit] <;> decide

theorem start_shaped (phys : BitVec 64) : (start phys).Shaped := by
  refine ⟨.inr rfl, .inr rfl, ?_, ?_, ?_, ?_⟩
  · intro i within
    have other : i ≠ ringSize - 1 := Nat.ne_of_lt within
    simp only [start, Ring.allocate, if_true, Function.update_of_ne other]
    decide
  · simp only [start, Ring.allocate, if_true, Function.update_self]
    decide
  · simp only [start, Ring.allocate, if_true, Function.update_self]
    decide
  · simp only [start, Ring.allocate, if_true, Function.update_self]

theorem start_inv (phys : BitVec 64) : CycleRing.Inv (ringSize - 1) (start phys).abstract 0 0 := by
  refine ⟨rfl, Nat.zero_le _, rfl, ?_, rfl, Nat.zero_le _, rfl, rfl, Nat.le_refl _, ?_, ?_,
    Nat.zero_le _, fun _ => (by decide : 0 < ringSize - 1)⟩
  · simp only [abstract, start, Ring.allocate, if_true, Function.update_self]
    decide
  · intro k item found
    cases found
  · intro i within _
    have other : i ≠ ringSize - 1 := Nat.ne_of_lt within
    simp only [abstract, start, Ring.allocate, if_true, Function.update_of_ne other, if_pos within]
    decide

theorem Shaped.store (shaped : t.Shaped) {trb : Trb}
    (performed : t.perform (.store trb) = some later) :
    later.Shaped ∧ later.abstract = t.abstract.write trb.body ∧
      t.ring.enqueue < ringSize - 1 ∧
      later.pushed = t.pushed ++ [trb] ∧ later.taken = t.taken ∧
      later.consumer = t.consumer := by
  obtain ⟨⟨within, kind⟩, same⟩ := Option.ite_none_right_eq_some.mp performed
  cases same
  have last : Function.update t.ring.trbs t.ring.enqueue
      (Ring.setCycle trb t.ring.cycle) (ringSize - 1) =
        t.ring.trbs (ringSize - 1) :=
    Function.update_of_ne (Nat.ne_of_gt within) ..
  refine ⟨⟨shaped.cycle, shaped.expects, ?_, ?_, ?_, ?_⟩, ?_, within, rfl, rfl,
    rfl⟩
  · intro i small
    dsimp only [Ring.store]
    by_cases here : i = t.ring.enqueue
    · subst here
      rw [Function.update_self, setCycle_type trb shaped.cycle]
      exact kind
    · rw [Function.update_of_ne here]
      exact shaped.plain i small
  · dsimp only [Ring.store]
    rw [last]
    exact shaped.link
  · dsimp only [Ring.store]
    rw [last]
    exact shaped.toggles
  · dsimp only [Ring.store]
    rw [last]
    exact shaped.target
  · simp only [abstract, CycleRing.State.write, Ring.store, last,
      List.map_append, List.map_cons, List.map_nil, CycleRing.State.mk.injEq,
      and_true]
    funext i
    by_cases here : i = t.ring.enqueue
    · subst here
      rw [Function.update_self, Function.update_self, if_pos within,
        body_setCycle trb shaped.cycle, setCycle_cycle trb shaped.cycle]
    · rw [Function.update_of_ne here, Function.update_of_ne here]

theorem Shaped.wrap (shaped : t.Shaped) (performed : t.perform .wrap = some later) :
    later.Shaped ∧ later.abstract = t.abstract.relink ∧ t.ring.enqueue = ringSize - 1 := by
  obtain ⟨atLink, same⟩ := Option.ite_none_right_eq_some.mp performed
  cases same
  obtain ⟨flipped, bit⟩ := shaped.cycle.flip
  refine ⟨⟨flipped, shaped.expects, ?_, ?_, ?_, ?_⟩, ?_, atLink⟩
  · intro i small
    dsimp only [Ring.wrap]
    rw [Function.update_of_ne (Nat.ne_of_lt small)]
    exact shaped.plain i small
  · dsimp only [Ring.wrap]
    rw [Function.update_self, setCycle_type _ shaped.cycle]
    exact shaped.link
  · dsimp only [Ring.wrap]
    rw [Function.update_self, setCycle_toggle _ shaped.cycle]
    exact shaped.toggles
  · dsimp only [Ring.wrap]
    rw [Function.update_self]
    exact shaped.target
  · simp only [abstract, CycleRing.State.relink, Ring.wrap,
      Function.update_self, setCycle_cycle _ shaped.cycle, bit,
      CycleRing.State.mk.injEq, and_true]
    funext i
    by_cases small : i < ringSize - 1
    · rw [if_pos small, if_pos small, Function.update_of_ne (Nat.ne_of_lt small)]
    · rw [if_neg small, if_neg small]

theorem Shaped.next_entry (shaped : t.Shaped) (within : t.consumer.dequeue < ringSize - 1) :
    (t.abstract.Owned ∧ t.consumer.next t.ring =
      some (some (t.ring.trbs t.consumer.dequeue),
        { t.consumer with dequeue := t.consumer.dequeue + 1 })) ∨
    ¬ t.abstract.Owned ∧ t.consumer.next t.ring = none := by
  have owned : t.abstract.Owned ↔ (t.ring.trbs t.consumer.dequeue).control &&& trbCycle =
        t.consumer.cycle := by
    rw [owned_iff _ shaped.expects, CycleRing.State.Owned]
    simp only [abstract, if_pos within]
  rw [owned]
  unfold Consumer.next
  dsimp only
  by_cases mine : (t.ring.trbs t.consumer.dequeue).control &&& trbCycle = t.consumer.cycle
  · rw [if_neg (not_not_intro mine), if_neg (shaped.plain _ within)]
    exact .inl ⟨mine, rfl⟩
  · rw [if_pos mine]
    exact .inr ⟨mine, rfl⟩

/-- It follows the link once that is its own. -/
theorem Shaped.next_link (shaped : t.Shaped) (atLink : t.consumer.dequeue = ringSize - 1) :
    (t.abstract.link = t.abstract.expects ∧ t.consumer.next t.ring =
      some (none, ⟨0, t.consumer.cycle ^^^ 1⟩)) ∨
    t.abstract.link ≠ t.abstract.expects ∧ t.consumer.next t.ring = none := by
  have owned : t.abstract.link = t.abstract.expects ↔
      (t.ring.trbs (ringSize - 1)).control &&& trbCycle =
        t.consumer.cycle := by
    rw [owned_iff _ shaped.expects]
    rfl
  rw [Ne, owned]
  unfold Consumer.next
  dsimp only
  rw [atLink]
  by_cases mine : (t.ring.trbs (ringSize - 1)).control &&& trbCycle = t.consumer.cycle
  · rw [if_neg (not_not_intro mine), if_pos shaped.link,
      if_neg shaped.toggles, linkTarget, shaped.target, BitVec.sub_self]
    exact .inl ⟨mine, rfl⟩
  · rw [if_pos mine]
    exact .inr ⟨mine, rfl⟩

theorem Shaped.consume (shaped : t.Shaped) (bound : t.consumer.dequeue ≤ ringSize - 1)
    (performed : t.perform .consume = some later) :
    later.Shaped ∧
      ((t.consumer.dequeue < ringSize - 1 ∧ t.abstract.Owned ∧
        later.abstract = t.abstract.take) ∨
      t.consumer.dequeue = ringSize - 1 ∧
        t.abstract.link = t.abstract.expects ∧
        later.abstract = t.abstract.follow) := by
  obtain ⟨⟨found, consumer⟩, next, same⟩ :=
    Option.map_eq_some_iff.mp performed
  cases same
  rcases Nat.lt_or_eq_of_le bound with within | atLink
  · rcases shaped.next_entry within with ⟨owned, result⟩ | ⟨-, result⟩
    · rw [result] at next
      cases next
      refine ⟨⟨shaped.cycle, shaped.expects, shaped.plain, shaped.link,
        shaped.toggles, shaped.target⟩, .inl ⟨within, owned, ?_⟩⟩
      simp [abstract, CycleRing.State.take, within]
    · rw [result] at next
      cases next
  · rcases shaped.next_link atLink with ⟨owned, result⟩ | ⟨-, result⟩
    · rw [result] at next
      cases next
      obtain ⟨flipped, bit⟩ := shaped.expects.flip
      refine ⟨⟨shaped.cycle, flipped, shaped.plain, shaped.link,
        shaped.toggles, shaped.target⟩, .inr ⟨atLink, owned, ?_⟩⟩
      simpa [abstract, CycleRing.State.follow] using bit
    · rw [result] at next
      cases next

/-- The ring is in order. -/
def Sound (t : Traffic) : Prop :=
  t.Shaped ∧ ∃ laps rounds,
    CycleRing.Inv (ringSize - 1) t.abstract laps rounds

theorem Sound.perform (sound : t.Sound) {act : Act} (performed : t.perform act = some later)
    (bounded : later.Bounded) : later.Sound := by
  obtain ⟨shaped, laps, rounds, inv⟩ := sound
  have moved : later.Shaped ∧ t.abstract.Step (ringSize - 1) later.abstract := by
    cases act with
    | store trb =>
      obtain ⟨after, written, within, pushed, taken, consumer⟩ :=
        shaped.store performed
      refine ⟨after, written ▸ .write trb.body within ?_⟩
      have behind : t.taken.length ≤ t.pushed.length := by
        simpa [abstract] using inv.behind
      unfold Bounded unconsumed at bounded
      rw [pushed, taken, consumer, List.length_append, List.length_singleton] at bounded
      refine ⟨?_, ?_⟩
      · simp only [abstract, List.length_map, ringSize]
        omega
      · simp only [abstract, List.length_map, ringSize]
        omega
    | wrap =>
      obtain ⟨after, relinked, atLink⟩ := shaped.wrap performed
      exact ⟨after, relinked ▸ .relink atLink⟩
    | consume =>
      obtain ⟨after, ⟨within, owned, took⟩ | ⟨atLink, owned, followed⟩⟩ :=
        shaped.consume inv.dequeue performed
      · exact ⟨after, took ▸ .take within owned⟩
      · exact ⟨after, followed ▸ .follow atLink owned⟩
  exact ⟨moved.1, inv.step (by decide) moved.2⟩

theorem sound_of_reachable (reachable : Reachable Bounded t) : t.Sound := by
  refine Lib.Reachable.invariant ?_ ?_ reachable
  · rintro t ⟨phys, rfl⟩
    exact ⟨start_shaped phys, 0, 0, start_inv phys⟩
  · rintro t later sound ⟨⟨act, performed⟩, bounded⟩
    exact sound.perform performed bounded

/-- The consumer gets the request, at once or behind the link. -/
def Delivers (t : Traffic) (trb : Trb) : Prop :=
  ∃ stored after, stored.body = trb.body ∧
    (t.consumer.next t.ring = some (some stored, after) ∨
      ∃ middle, t.consumer.next t.ring = some (none, middle) ∧
        middle.next t.ring = some (some stored, after))

theorem Shaped.delivers {laps rounds : Nat} (shaped : t.Shaped)
    (inv : CycleRing.Inv (ringSize - 1) t.abstract laps rounds)
    (within : t.consumer.dequeue < ringSize - 1) {trb : Trb}
    (found : t.pushed[t.taken.length]? = some trb) :
    ∃ stored after, stored.body = trb.body ∧
      t.consumer.next t.ring = some (some stored, after) := by
  have item : t.abstract.sent[t.abstract.seen.length]? = some trb.body := by
    simp [abstract, found]
  have left : t.abstract.seen.length < t.abstract.sent.length :=
    (List.getElem?_eq_some_iff.mp item).1
  rcases shaped.next_entry within with ⟨-, result⟩ | ⟨other, -⟩
  · refine ⟨_, _, ?_, result⟩
    have entry := congrArg Prod.fst (inv.next_item within item)
    simpa [abstract, within] using entry
  · exact absurd ((inv.owned_iff within).mpr left) other

/-- As long as the bounds are kept, what was taken is what was pushed first, in
order; what was not taken yet is still in the ring; and the next request is
there for the consumer to take. -/
theorem Sound.delivered (sound : t.Sound) :
    t.taken.map Trb.body =
      (t.pushed.map Trb.body).take t.taken.length ∧
    t.taken.length ≤ t.pushed.length ∧
    (∀ k trb, t.taken.length ≤ k → t.pushed[k]? = some trb →
      (t.ring.trbs (k % (ringSize - 1))).body = trb.body) ∧
    ∀ trb, t.pushed[t.taken.length]? = some trb → t.Delivers trb := by
  obtain ⟨shaped, laps, rounds, inv⟩ := sound
  have behind : t.taken.length ≤ t.pushed.length := by
    simpa [abstract] using inv.behind
  refine ⟨?_, behind, ?_, ?_⟩
  · simpa [abstract] using inv.order
  · intro k trb later found
    have item : t.abstract.sent[k]? = some trb.body := by
      simp [abstract, found]
    have room := inv.room
    have near : t.abstract.sent.length ≤ k + (ringSize - 1) := by
      have same : t.abstract.seen.length = t.taken.length := by
        simp [abstract]
      omega
    have small : k % (ringSize - 1) < ringSize - 1 :=
      Nat.mod_lt _ (by decide)
    have entry := congrArg Prod.fst (inv.holds k _ item near)
    simpa [abstract, small] using entry
  · intro trb found
    rcases Nat.lt_or_eq_of_le inv.dequeue with within | atLink
    · obtain ⟨stored, after, same, next⟩ := shaped.delivers inv within found
      exact ⟨stored, after, same, .inl next⟩
    · -- the consumer follows the link first
      have left : t.abstract.seen.length < t.abstract.sent.length := by
        have inside := (List.getElem?_eq_some_iff.mp found).1
        simpa [abstract] using inside
      rcases shaped.next_link atLink with ⟨-, result⟩ | ⟨other, -⟩
      · have performed : t.perform .consume = some { t with
              consumer := ⟨0, t.consumer.cycle ^^^ 1⟩
              taken := t.taken ++ [] } := by
          rw [Traffic.perform, result]
          rfl
        rw [List.append_nil] at performed
        obtain ⟨after, ⟨within, -⟩ | ⟨-, -, followed⟩⟩ :=
          shaped.consume inv.dequeue performed
        · exact absurd atLink (Nat.ne_of_lt within)
        · have next := inv.follow (by decide) atLink
          rw [← followed] at next
          obtain ⟨stored, final, same, taken⟩ := after.delivers next
            (by decide : 0 < ringSize - 1) found
          exact ⟨stored, final, same, .inr ⟨_, result, taken⟩⟩
      · exact absurd (inv.link_owned atLink left) other

end

end Traffic

end Eonos.Usb
