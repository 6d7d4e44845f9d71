import Eonos.Lib.Reachable

/-!
# Rings with cycle bits

A ring of `size` entries and a link back to the first one, in memory that a
producer and a consumer share.  Each side has an index and a bit of its own; an
entry belongs to the consumer when it carries the consumer's bit, and both flip
their bit when they pass the link.  Nothing tells the producer how far the
consumer is, so it has to leave enough room by itself.
-/

namespace Eonos.Lib.CycleRing

variable {Item : Type*}

/-- The logs `sent` and `seen` are read by neither side. -/
structure State (Item : Type*) where
  entries : Nat → Item × Bool
  link : Bool
  enqueue : Nat
  cycle : Bool
  dequeue : Nat
  expects : Bool
  sent : List Item
  seen : List Item

namespace State

variable (size : Nat) (s : State Item)

def write (item : Item) : State Item :=
  { s with
    entries := Function.update s.entries s.enqueue (item, s.cycle)
    enqueue := s.enqueue + 1
    sent := s.sent ++ [item] }

/-- The producer passes the link. -/
def relink : State Item :=
  { s with link := s.cycle, enqueue := 0, cycle := !s.cycle }

def Owned : Prop := (s.entries s.dequeue).2 = s.expects

def take : State Item :=
  { s with
    dequeue := s.dequeue + 1
    seen := s.seen ++ [(s.entries s.dequeue).1] }

/-- The consumer passes the link. -/
def follow : State Item := { s with dequeue := 0, expects := !s.expects }

/-- There is a free entry, and one more while the consumer stands on the
link. -/
def Room : Prop :=
  s.sent.length < s.seen.length + size ∧
    (s.dequeue = size → s.sent.length + 1 < s.seen.length + size)

inductive Step : State Item → Prop
  | write (item : Item) (within : s.enqueue < size) (room : s.Room size) :
      Step (s.write item)
  | relink (atLink : s.enqueue = size) : Step s.relink
  | take (within : s.dequeue < size) (owned : s.Owned) : Step s.take
  | follow (atLink : s.dequeue = size) (owned : s.link = s.expects) :
      Step s.follow

end State

/-- The bit that marks what is written in a lap. -/
def lapBit (lap : Nat) : Bool := lap % 2 == 0

theorem lapBit_succ (lap : Nat) : lapBit (lap + 1) = !lapBit lap := by
  unfold lapBit
  rcases Nat.mod_two_eq_zero_or_one lap with even | odd
  · rw [even, Nat.add_mod, even]
    rfl
  · rw [odd, Nat.add_mod, odd]
    rfl

/-- The producer has passed the link `laps` times, the consumer `rounds`
times. -/
structure Inv (size : Nat) (s : State Item) (laps rounds : Nat) : Prop where
  sent : s.sent.length = laps * size + s.enqueue
  enqueue : s.enqueue ≤ size
  cycle : s.cycle = lapBit laps
  link : s.link = lapBit (laps - 1)
  seen : s.seen.length = rounds * size + s.dequeue
  dequeue : s.dequeue ≤ size
  expects : s.expects = lapBit rounds
  order : s.seen = s.sent.take s.seen.length
  behind : s.seen.length ≤ s.sent.length
  /-- The last `size` items are in their entries. -/
  holds : ∀ k item, s.sent[k]? = some item → s.sent.length ≤ k + size →
    s.entries (k % size) = (item, lapBit (k / size))
  blank : ∀ i < size, s.sent.length ≤ i → (s.entries i).2 = false
  room : s.sent.length ≤ s.seen.length + size
  linkRoom : s.dequeue = size → s.sent.length < s.seen.length + size

section

variable {size laps rounds : Nat} {s later : State Item}

theorem lap_of {position lap index : Nat} (within : index < size)
    (here : position = lap * size + index) : position % size = index ∧ position / size = lap := by
  have positive : 0 < size := Nat.zero_lt_of_lt within
  subst here
  refine ⟨?_, ?_⟩
  · rw [Nat.mul_comm, Nat.mul_add_mod, Nat.mod_eq_of_lt within]
  · rw [Nat.add_comm, Nat.add_mul_div_right _ _ positive, Nat.div_eq_of_lt within, Nat.zero_add]

/-- What the consumer may take is the next item that was sent. -/
theorem Inv.owned_iff (inv : Inv size s laps rounds) (within : s.dequeue < size) :
    s.Owned ↔ s.seen.length < s.sent.length := by
  obtain ⟨index, lap⟩ := lap_of within inv.seen
  constructor
  · intro owned
    by_contra caught
    have level : s.sent.length = s.seen.length :=
      Nat.le_antisymm (Nat.le_of_not_lt caught) inv.behind
    rw [State.Owned, inv.expects] at owned
    cases rounds with
    | zero =>
      have start : s.seen.length = s.dequeue := by
        rw [inv.seen, Nat.zero_mul, Nat.zero_add]
      rw [inv.blank s.dequeue within (by rw [level, start])] at owned
      cases owned
    | succ before =>
      -- the entry still holds what was written a lap ago
      have earlier : s.seen.length - size = before * size + s.dequeue := by
        rw [inv.seen, Nat.succ_mul]
        omega
      have enough : size ≤ s.seen.length := by
        rw [inv.seen, Nat.succ_mul]
        omega
      obtain ⟨sameIndex, oldLap⟩ := lap_of within earlier
      obtain ⟨item, found⟩ : ∃ item, s.sent[s.seen.length - size]? = some item := by
        refine ⟨_, List.getElem?_eq_getElem ?_⟩
        omega
      have held := inv.holds _ item found (by omega)
      rw [sameIndex, oldLap] at held
      rw [held, lapBit_succ] at owned
      simp at owned
  · intro left
    obtain ⟨item, found⟩ : ∃ item, s.sent[s.seen.length]? = some item :=
      ⟨_, List.getElem?_eq_getElem left⟩
    have held := inv.holds _ item found inv.room
    rw [index, lap] at held
    rw [State.Owned, held, inv.expects]

theorem Inv.next_item (inv : Inv size s laps rounds) (within : s.dequeue < size) {item : Item}
    (found : s.sent[s.seen.length]? = some item) : s.entries s.dequeue = (item, s.expects) := by
  obtain ⟨index, lap⟩ := lap_of within inv.seen
  have held := inv.holds _ item found inv.room
  rw [index, lap] at held
  rw [held, inv.expects]

/-- A consumer that stands on the link can pass it once there is more. -/
theorem Inv.link_owned (inv : Inv size s laps rounds) (atLink : s.dequeue = size)
    (left : s.seen.length < s.sent.length) : s.link = s.expects := by
  have room := inv.linkRoom atLink
  have seen := inv.seen
  have sent := inv.sent
  have bound := inv.enqueue
  have next : laps = rounds + 1 := by
    refine Nat.le_antisymm ?_ ?_
    · by_contra ahead
      have more : (rounds + 2) * size ≤ laps * size :=
        Nat.mul_le_mul_right _ (by omega)
      rw [Nat.add_mul] at more
      omega
    · by_contra late
      have less : laps * size ≤ rounds * size :=
        Nat.mul_le_mul_right _ (by omega)
      omega
  rw [inv.link, inv.expects, next]
  rfl

theorem write_entry (s : State Item) (item : Item) :
    (s.write item).entries s.enqueue = (item, s.cycle) :=
  Function.update_self ..

theorem write_entry_ne {item : Item} {i : Nat} (apart : i ≠ s.enqueue) :
    (s.write item).entries i = s.entries i :=
  Function.update_of_ne apart ..

theorem Inv.write (inv : Inv size s laps rounds) (item : Item) (within : s.enqueue < size)
    (room : s.Room size) : Inv size (s.write item) laps rounds := by
  obtain ⟨index, lap⟩ := lap_of within inv.sent
  have length : (s.write item).sent.length = s.sent.length + 1 :=
    List.length_append
  refine ⟨?_, within, inv.cycle, inv.link, inv.seen, inv.dequeue, inv.expects,
    ?_, ?_, ?_, ?_, ?_, ?_⟩
  · rw [length, inv.sent]
    rfl
  · rw [State.write, List.take_append_of_le_length inv.behind]
    exact inv.order
  · rw [length]
    exact Nat.le_succ_of_le inv.behind
  · intro k stored found recent
    rw [length] at recent
    by_cases last : k = s.sent.length
    · subst last
      rw [State.write, List.getElem?_append_right (Nat.le_refl _), Nat.sub_self] at found
      cases found
      rw [index, lap, write_entry, inv.cycle]
    · have below : k < s.sent.length := by
        have inside := (List.getElem?_eq_some_iff.mp found).1
        rw [length] at inside
        omega
      rw [State.write, List.getElem?_append_left below] at found
      have apart : k % size ≠ s.enqueue := by
        intro same
        have multiple := Nat.sub_mod_eq_zero_of_mod_eq (index.trans same.symm)
        rw [Nat.mod_eq_of_lt (by omega)] at multiple
        omega
      rw [write_entry_ne apart]
      exact inv.holds k stored found (by omega)
  · intro i small untouched
    rw [length] at untouched
    have apart : i ≠ s.enqueue := by
      rintro rfl
      have sent := inv.sent
      omega
    rw [write_entry_ne apart]
    exact inv.blank i small (by omega)
  · rw [length]
    exact room.1
  · intro atLink
    rw [length]
    exact room.2 atLink

theorem Inv.relink (inv : Inv size s laps rounds)
    (atLink : s.enqueue = size) : Inv size s.relink (laps + 1) rounds := by
  refine ⟨?_, Nat.zero_le _, ?_, inv.cycle, inv.seen, inv.dequeue, inv.expects,
    inv.order, inv.behind, inv.holds, inv.blank, inv.room, inv.linkRoom⟩
  · change s.sent.length = (laps + 1) * size + 0
    rw [inv.sent, atLink, Nat.succ_mul, Nat.add_zero]
  · rw [lapBit_succ, ← inv.cycle]
    rfl

theorem Inv.take (inv : Inv size s laps rounds) (within : s.dequeue < size)
    (owned : s.Owned) : Inv size s.take laps rounds := by
  have left := (inv.owned_iff within).mp owned
  have length : s.take.seen.length = s.seen.length + 1 := List.length_append
  have found := List.getElem?_eq_getElem left
  refine ⟨inv.sent, inv.enqueue, inv.cycle, inv.link, ?_, within, inv.expects,
    ?_, ?_, inv.holds, inv.blank, ?_, ?_⟩
  · rw [length, inv.seen]
    rfl
  · change s.take.seen = s.sent.take s.take.seen.length
    rw [length, List.take_add_one, found, ← inv.order, State.take, inv.next_item within found]
    rfl
  · rw [length]
    exact left
  · have room := inv.room
    rw [length]
    exact room.trans (Nat.add_le_add_right (Nat.le_succ _) _)
  · intro _
    rw [length, Nat.add_right_comm]
    exact Nat.lt_succ_of_le inv.room

theorem Inv.follow (inv : Inv size s laps rounds) (positive : 0 < size)
    (atLink : s.dequeue = size) :
    Inv size s.follow laps (rounds + 1) := by
  refine ⟨inv.sent, inv.enqueue, inv.cycle, inv.link, ?_, Nat.zero_le _, ?_,
    inv.order, inv.behind, inv.holds, inv.blank, inv.room, ?_⟩
  · change s.seen.length = (rounds + 1) * size + 0
    rw [inv.seen, atLink, Nat.succ_mul, Nat.add_zero]
  · rw [lapBit_succ, ← inv.expects]
    rfl
  · intro empty
    exact absurd empty (Nat.ne_of_lt positive)

theorem Inv.step (inv : Inv size s laps rounds) (positive : 0 < size)
    (taken : s.Step size later) : ∃ laps rounds, Inv size later laps rounds := by
  cases taken with
  | write item within room => exact ⟨_, _, inv.write item within room⟩
  | relink atLink => exact ⟨_, _, inv.relink atLink⟩
  | take within owned => exact ⟨_, _, inv.take within owned⟩
  | follow atLink owned => exact ⟨_, _, inv.follow positive atLink⟩

end

end Eonos.Lib.CycleRing
