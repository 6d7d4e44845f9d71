import Mathlib

/-!
# Reachable states

States reached from an initial state by finitely many steps, with the one
induction the safety results of this development rest on.
-/

namespace Eonos.Lib

variable {State : Type*}

/-- A state some finite run ends in. -/
def Reachable (initial : State → Prop) (step : State → State → Prop) (state : State) : Prop :=
  ∃ first, initial first ∧ Relation.ReflTransGen step first state

namespace Reachable

variable {initial : State → Prop} {step : State → State → Prop}

theorem start {state : State} (holds : initial state) : Reachable initial step state :=
  ⟨state, holds, .refl⟩

theorem next {state later : State} (reached : Reachable initial step state)
    (taken : step state later) : Reachable initial step later := by
  obtain ⟨first, holds, run⟩ := reached
  exact ⟨first, holds, run.tail taken⟩

theorem invariant {holds : State → Prop} (initially : ∀ state, initial state → holds state)
    (preserved : ∀ state later, holds state → step state later → holds later) {state : State}
    (reached : Reachable initial step state) : holds state := by
  obtain ⟨first, start, run⟩ := reached
  induction run with
  | refl => exact initially first start
  | tail _ taken induction => exact preserved _ _ induction taken

theorem run {Event : Type*} {next : State → Event → Option State}
    (steps : ∀ state event later, next state event = some later → step state later)
    (events : List Event) {state later : State} (reached : Reachable initial step state)
    (ran : events.foldlM next state = some later) : Reachable initial step later := by
  induction events generalizing state with
  | nil =>
    cases ran
    exact reached
  | cons event rest induction =>
    rw [List.foldlM_cons] at ran
    obtain ⟨middle, first, ran⟩ := Option.bind_eq_some_iff.mp ran
    exact induction (reached.next (steps state event middle first)) ran

end Reachable

theorem foldlM_keeps {Item : Type*} {holds : State → Prop} {step : State → Item → Option State}
    (preserved : ∀ state item later, holds state → step state item = some later → holds later)
    (items : List Item) {state later : State} (start : holds state)
    (ran : items.foldlM step state = some later) : holds later := by
  induction items generalizing state with
  | nil =>
    cases ran
    exact start
  | cons item rest induction =>
    rw [List.foldlM_cons] at ran
    obtain ⟨middle, first, ran⟩ := Option.bind_eq_some_iff.mp ran
    exact induction (preserved _ _ _ start first) ran

theorem ok_bind {α β Error : Type} (a : α) (f : α → Except Error β) :
    (Except.ok a >>= f) = f a := rfl

/-- A loop each of whose rounds succeeds and keeps the invariant. -/
theorem foldlM_ok {Item Error : Type*} {holds : State → Prop}
    {step : State → Item → Except Error State} (items : List Item)
    (succeeds : ∀ item ∈ items, ∀ state, holds state →
      ∃ later, step state item = .ok later ∧ holds later) {state : State} (start : holds state) :
    ∃ later, items.foldlM step state = .ok later ∧ holds later := by
  induction items generalizing state with
  | nil => exact ⟨state, rfl, start⟩
  | cons item rest induction =>
    obtain ⟨middle, taken, held⟩ :=
      succeeds item List.mem_cons_self state start
    obtain ⟨later, ran, done⟩ := induction
      (fun item member => succeeds item (List.mem_cons_of_mem _ member)) held
    refine ⟨later, ?_, done⟩
    rw [List.foldlM_cons, taken]
    exact ran

/-- A loop over `0..n` whose invariant counts the rounds, and in which every
round succeeds. -/
theorem foldlM_range {holds : Nat → State → Prop} {step : State → Nat → Option State} (n : Nat)
    (advances : ∀ i < n, ∀ state, holds i state →
      ∃ later, step state i = some later ∧ holds (i + 1) later) {state : State}
    (start : holds 0 state) :
    ∃ later, (List.range n).foldlM step state = some later ∧ holds n later := by
  induction n with
  | zero => exact ⟨state, rfl, start⟩
  | succ n induction =>
    obtain ⟨middle, ran, reached⟩ := induction fun i below => advances i (Nat.lt_succ_of_lt below)
    obtain ⟨later, taken, done⟩ :=
      advances n (Nat.lt_succ_self n) middle reached
    refine ⟨later, ?_, done⟩
    rw [List.range_succ, List.foldlM_append, ran]
    change (step middle n).bind _ = _
    rw [taken]
    rfl

end Eonos.Lib
