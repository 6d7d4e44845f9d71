import Eonos.Usb.Keyboard

/-!
# The queue of typed characters

The PS/2 driver and the USB driver keep typed characters in ring buffers of the
same text.  A ring buffer behaves as a queue of capacity 256 that loses its
oldest byte when one more arrives.
-/

namespace Eonos.Usb

inductive QueueOp where
  | push (byte : UInt8)
  | pop

/-- What the pops of a sequence of operations give, and the state after it. -/
def runOps {State : Type*} (push : State → UInt8 → State)
    (pop : State → Option UInt8 × State) :
    State → List QueueOp → List (Option UInt8) × State
  | state, [] => ([], state)
  | state, .push byte :: ops => runOps push pop (push state byte) ops
  | state, .pop :: ops =>
    let later := runOps push pop (pop state).2 ops
    ((pop state).1 :: later.1, later.2)

/-- Two queues whose operations agree give the same bytes in every run. -/
theorem runOps_agree {Ring Queue : Type*} {related : Ring → Queue → Prop}
    {push : Ring → UInt8 → Ring} {pop : Ring → Option UInt8 × Ring}
    {enqueue : Queue → UInt8 → Queue} {dequeue : Queue → Option UInt8 × Queue}
    (pushes : ∀ ring queue byte, related ring queue → related (push ring byte) (enqueue queue byte))
    (pops : ∀ ring queue, related ring queue →
      (pop ring).1 = (dequeue queue).1 ∧ related (pop ring).2 (dequeue queue).2)
    (ops : List QueueOp) {ring : Ring} {queue : Queue} (start : related ring queue) :
    (runOps push pop ring ops).1 = (runOps enqueue dequeue queue ops).1 ∧
      related (runOps push pop ring ops).2
        (runOps enqueue dequeue queue ops).2 := by
  induction ops generalizing ring queue with
  | nil => exact ⟨rfl, start⟩
  | cons op ops induction =>
    cases op with
    | push byte => exact induction (pushes ring queue byte start)
    | pop =>
      obtain ⟨same, after⟩ := pops ring queue start
      obtain ⟨rest, last⟩ := induction after
      exact ⟨congrArg₂ List.cons same rest, last⟩

/-! ### The queue it implements -/

/-- A byte more, at the cost of the oldest one when there are 256. -/
def enqueue (queue : List UInt8) (byte : UInt8) : List UInt8 :=
  (if queue.length = 256 then queue.tail else queue) ++ [byte]

def dequeue (queue : List UInt8) : Option UInt8 × List UInt8 :=
  (queue.head?, queue.tail)

namespace RingBuffer

def pop (q : RingBuffer) : Option UInt8 × RingBuffer :=
  if q.len = 0 then (none, q)
  else
    (some (q.buf q.tail),
      { q with tail := (q.tail + 1) % 256, len := q.len - 1 })

/-- The bytes of the queue stand in the slots from `tail` on. -/
structure Holds (q : RingBuffer) (queue : List UInt8) : Prop where
  count : q.len = queue.length
  bounded : queue.length ≤ 256
  tailInside : q.tail < 256
  ends : q.head = (q.tail + q.len) % 256
  slot : ∀ i (inside : i < queue.length),
    q.buf ((q.tail + i) % 256) = queue[i]

theorem holds_new : Holds new [] :=
  ⟨rfl, by decide, by decide, rfl, fun _ inside => absurd inside (by simp)⟩

variable {q : RingBuffer} {queue : List UInt8} {byte : UInt8}

theorem Holds.oldest (holds : Holds q (byte :: queue)) : q.buf q.tail = byte := by
  have first := holds.slot 0 (by simp)
  rwa [Nat.add_zero, Nat.mod_eq_of_lt holds.tailInside] at first

theorem Holds.drop (holds : Holds q (byte :: queue)) :
    Holds { q with tail := (q.tail + 1) % 256, len := q.len - 1 } queue := by
  have count := holds.count
  have bounded := holds.bounded
  rw [List.length_cons] at count bounded
  refine ⟨by simp [count], by omega, Nat.mod_lt _ (by decide), ?_, ?_⟩
  · change q.head = ((q.tail + 1) % 256 + (q.len - 1)) % 256
    rw [holds.ends]
    omega
  · intro i inside
    have next := holds.slot (i + 1) (by simpa using inside)
    rw [List.getElem_cons_succ] at next
    rw [← next, Nat.mod_add_mod, Nat.add_assoc, Nat.add_comm 1 i]

/-- Writing the slot after the last byte, which is none of the queue's. -/
theorem Holds.write (holds : Holds q queue) (room : queue.length < 256) :
    Holds { q with
      buf := Function.update q.buf q.head byte
      head := (q.head + 1) % 256
      len := q.len + 1 } (queue ++ [byte]) := by
  have count := holds.count
  have ends := holds.ends
  refine ⟨by simp [count], by simpa using room, holds.tailInside, ?_, ?_⟩
  · change (q.head + 1) % 256 = (q.tail + (q.len + 1)) % 256
    rw [ends, Nat.mod_add_mod, Nat.add_assoc]
  · intro i inside
    rw [List.length_append, List.length_singleton] at inside
    change Function.update q.buf q.head byte ((q.tail + i) % 256) = _
    by_cases last : i = queue.length
    · have slot : (q.tail + i) % 256 = q.head := by rw [last, ← count, ends]
      rw [slot, Function.update_self]
      simp [last]
    · have before : i < queue.length := by omega
      rw [Function.update_of_ne (by omega), holds.slot i before, List.getElem_append_left before]

theorem push_holds (holds : Holds q queue) (byte : UInt8) :
    Holds (q.push byte) (enqueue queue byte) := by
  unfold push enqueue
  rw [holds.count]
  by_cases full : queue.length = 256
  · rw [if_pos full, if_pos full]
    obtain _ | ⟨oldest, rest⟩ := queue
    · cases full
    · have dropped := holds.drop
      rw [holds.count] at dropped
      exact dropped.write (by simp only [List.length_cons] at full; omega)
  · rw [if_neg full, if_neg full]
    exact holds.write (Nat.lt_of_le_of_ne holds.bounded full)

theorem pop_holds (holds : Holds q queue) :
    q.pop.1 = (dequeue queue).1 ∧ Holds q.pop.2 (dequeue queue).2 := by
  unfold pop
  rw [holds.count]
  obtain _ | ⟨oldest, rest⟩ := queue
  · exact ⟨rfl, holds⟩
  · have dropped := holds.drop
    rw [holds.count] at dropped
    exact ⟨congrArg some holds.oldest, dropped⟩

/-- In every run of pushes and pops from the empty ring buffer the pops give
what those of the queue give, and the three indices stay in step. -/
theorem run_is_queue (ops : List QueueOp) :
    (runOps push pop new ops).1 = (runOps enqueue dequeue [] ops).1 ∧
      (runOps push pop new ops).2.len =
        (runOps enqueue dequeue [] ops).2.length ∧
      (runOps push pop new ops).2.len ≤ 256 ∧
      (runOps push pop new ops).2.tail < 256 ∧
      (runOps push pop new ops).2.head =
        ((runOps push pop new ops).2.tail + (runOps push pop new ops).2.len) %
          256 := by
  obtain ⟨same, holds⟩ := @runOps_agree _ _ Holds _ _ _ _ (fun _ _ byte holds => push_holds holds
    byte) (fun _ _ holds => pop_holds holds) ops _ _ holds_new
  exact ⟨same, holds.count, holds.count ▸ holds.bounded, holds.tailInside, holds.ends⟩

end RingBuffer

end Eonos.Usb
