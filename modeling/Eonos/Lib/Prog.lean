import Mathlib

/-!
# Stateful computations and what they ensure

A `Prog` changes a state and returns a value, fails with an error or panics; a
failure keeps the state it happened in, a panic has no result.  `Ensures` is
total: it holds of computations that do not panic and end as the postcondition
for their outcome says.
-/

namespace Eonos.Lib

variable {σ ε ε' α β : Type}

abbrev Prog (σ ε α : Type) := ExceptT ε (StateT σ Option) α

namespace Prog

def exec (x : Prog σ ε α) (s : σ) : Option (Except ε α × σ) := x.run.run s

def get : Prog σ ε σ := ExceptT.mk fun s => some (.ok s, s)

def modify (f : σ → σ) : Prog σ ε Unit :=
  ExceptT.mk fun s => some (.ok (), f s)

/-- Changes the state and returns a value. -/
def step (f : σ → α × σ) : Prog σ ε α :=
  ExceptT.mk fun s => some (.ok (f s).1, (f s).2)

def panic : Prog σ ε α := ExceptT.mk fun _ => none

/-- The value of an option that the code unwraps. -/
def unwrap : Option α → Prog σ ε α
  | some a => pure a
  | none => panic

/-- The value of an option whose absence is an error. -/
def okOr (e : ε) : Option α → Prog σ ε α
  | some a => pure a
  | none => throw e

/-- Fails unless the condition holds. -/
def require (c : Prop) [Decidable c] (e : ε) : Prog σ ε Unit :=
  if c then pure () else throw e

/-- Runs a computation and tells whether it failed. -/
def attempt (x : Prog σ ε α) : Prog σ ε' (Except ε α) :=
  ExceptT.mk fun s => (x.exec s).map fun result => (.ok result.1, result.2)

def Ensures (x : Prog σ ε α) (s : σ) (ok : α → σ → Prop) (err : ε → σ → Prop) : Prop :=
  match x.exec s with
  | some (.ok a, later) => ok a later
  | some (.error e, later) => err e later
  | none => False

section

variable {x : Prog σ ε α} {s : σ} {ok : α → σ → Prop} {err : ε → σ → Prop}

@[simp]
theorem ensures_pure {a : α} :
    Ensures (pure a : Prog σ ε α) s ok err ↔ ok a s := Iff.rfl

@[simp]
theorem ensures_throw {e : ε} :
    Ensures (throw e : Prog σ ε α) s ok err ↔ err e s := Iff.rfl

@[simp]
theorem ensures_get {ok : σ → σ → Prop} :
    Ensures (get : Prog σ ε σ) s ok err ↔ ok s s := Iff.rfl

@[simp]
theorem ensures_modify {f : σ → σ} {ok : Unit → σ → Prop} :
    Ensures (modify f : Prog σ ε Unit) s ok err ↔ ok () (f s) := Iff.rfl

@[simp]
theorem ensures_unwrap {o : Option α} :
    Ensures (unwrap o : Prog σ ε α) s ok err ↔ ∃ a, o = some a ∧ ok a s := by
  cases o with
  | none => exact ⟨False.elim, fun ⟨_, absent, _⟩ => nomatch absent⟩
  | some a => simp [unwrap]

@[simp]
theorem ensures_okOr {e : ε} {o : Option α} :
    Ensures (okOr e o : Prog σ ε α) s ok err ↔
      (∀ a, o = some a → ok a s) ∧ (o = none → err e s) := by
  cases o <;> simp [okOr]

@[simp]
theorem ensures_require {c : Prop} [Decidable c] {e : ε} {ok : Unit → σ → Prop} :
    Ensures (require c e : Prog σ ε Unit) s ok err ↔ (c → ok () s) ∧ (¬ c → err e s) := by
  by_cases holds : c <;> simp [require, holds]

theorem exec_bind (x : Prog σ ε α) (f : α → Prog σ ε β) (s : σ) :
    (x >>= f).exec s = (x.exec s).bind fun result =>
      match result with
      | (.ok a, later) => (f a).exec later
      | (.error e, later) => some (.error e, later) := by
  unfold exec
  rw [ExceptT.run_bind, StateT.run_bind]
  cases x.run.run s with
  | none => rfl
  | some result =>
    obtain ⟨outcome, later⟩ := result
    cases outcome <;> rfl

@[simp]
theorem ensures_bind {x : Prog σ ε β} {f : β → Prog σ ε α} :
    Ensures (x >>= f) s ok err ↔ Ensures x s (fun b later => Ensures (f b) later ok err) err := by
  unfold Ensures
  rw [exec_bind]
  cases x.exec s with
  | none => exact Iff.rfl
  | some result =>
    obtain ⟨outcome, later⟩ := result
    cases outcome <;> exact Iff.rfl

theorem exec_attempt (x : Prog σ ε α) (s : σ) :
    (attempt x : Prog σ ε' (Except ε α)).exec s =
      (x.exec s).map fun result => (.ok result.1, result.2) := rfl

@[simp]
theorem ensures_attempt {ok : Except ε α → σ → Prop} {err : ε' → σ → Prop} :
    Ensures (attempt x : Prog σ ε' (Except ε α)) s ok err ↔
      Ensures x s (fun a => ok (.ok a)) (fun e => ok (.error e)) := by
  unfold Ensures
  rw [exec_attempt]
  cases x.exec s with
  | none => exact Iff.rfl
  | some result =>
    obtain ⟨outcome, later⟩ := result
    cases outcome <;> exact Iff.rfl

theorem Ensures.mono {ok' : α → σ → Prop} {err' : ε → σ → Prop} (holds : Ensures x s ok err)
    (oks : ∀ a later, ok a later → ok' a later) (errs : ∀ e later, err e later → err' e later) :
    Ensures x s ok' err' := by
  unfold Ensures at holds ⊢
  split at holds
  case h_1 a later result => exact oks a later holds
  case h_2 e later result => exact errs e later holds
  case h_3 => exact holds

theorem Ensures.imp {ok' : α → σ → Prop} (holds : Ensures x s ok err)
    (oks : ∀ a later, ok a later → ok' a later) : Ensures x s ok' err :=
  holds.mono oks fun _ _ failed => failed

theorem ensures_congr {y : Prog σ ε α} (same : x.exec s = y.exec s) :
    Ensures x s ok err ↔ Ensures y s ok err := by
  unfold Ensures
  rw [same]

/-- The outcome is that of the run. -/
theorem Ensures.with_exec (holds : Ensures x s ok err) :
    Ensures x s (fun a later => ok a later ∧ x.exec s = some (.ok a, later))
      (fun e later => err e later ∧ x.exec s = some (.error e, later)) := by
  unfold Ensures at holds ⊢
  split at holds
  case h_1 a later result => exact ⟨holds, result⟩
  case h_2 e later result => exact ⟨holds, result⟩
  case h_3 => exact holds

/-- The outcome of a computation that was run. -/
theorem Ensures.of_exec (holds : Ensures x s ok err) :
    ∃ outcome later, x.exec s = some (outcome, later) ∧
      match outcome with
      | .ok a => ok a later
      | .error e => err e later := by
  unfold Ensures at holds
  split at holds
  case h_1 a later result => exact ⟨.ok a, later, result, holds⟩
  case h_2 e later result => exact ⟨.error e, later, result, holds⟩
  case h_3 => exact holds.elim

end

/-! ### Where a panic is allowed -/

/-- Holds of computations that panic or end as the postcondition for their
outcome says. -/
def Allows (x : Prog σ ε α) (s : σ) (ok : α → σ → Prop) (err : ε → σ → Prop) : Prop :=
  x.exec s = none ∨ Ensures x s ok err

section

variable {x : Prog σ ε α} {s : σ} {ok : α → σ → Prop} {err : ε → σ → Prop}

theorem Ensures.allows (holds : Ensures x s ok err) : Allows x s ok err :=
  Or.inr holds

theorem Allows.of_exec (holds : Allows x s ok err) {outcome : Except ε α}
    {later : σ} (ran : x.exec s = some (outcome, later)) :
    match outcome with
    | .ok a => ok a later
    | .error e => err e later := by
  obtain panicked | holds := holds
  · rw [panicked] at ran
    exact nomatch ran
  · unfold Ensures at holds
    rw [ran] at holds
    cases outcome <;> exact holds

theorem Allows.mono {ok' : α → σ → Prop} {err' : ε → σ → Prop}
    (holds : Allows x s ok err) (oks : ∀ a later, ok a later → ok' a later)
    (errs : ∀ e later, err e later → err' e later) : Allows x s ok' err' :=
  holds.imp_right fun holds => holds.mono oks errs

theorem allows_bind {x : Prog σ ε β} {f : β → Prog σ ε α}
    (holds : Allows x s (fun b later => Allows (f b) later ok err) err) :
    Allows (x >>= f) s ok err := by
  unfold Allows Ensures at holds ⊢
  rw [exec_bind]
  obtain panicked | holds := holds
  · rw [panicked]
    exact Or.inl rfl
  · split at holds
    case h_1 b later result =>
      rw [result]
      exact holds
    case h_2 e later result =>
      rw [result]
      exact Or.inr holds
    case h_3 => exact holds.elim

theorem allows_unwrap {o : Option α} (holds : ∀ a, o = some a → ok a s) :
    Allows (unwrap o : Prog σ ε α) s ok err := by
  cases o with
  | none => exact Or.inl rfl
  | some a => exact Or.inr (holds a rfl)

/-- A loop over a list keeps its invariant. -/
theorem allows_foldlM {holds : α → σ → Prop} {body : α → β → Prog σ ε α} (items : List β)
    (kept : ∀ a s, ∀ b ∈ items, holds a s → Allows (body a b) s holds err) {a : α} {s : σ}
    (start : holds a s) : Allows (items.foldlM body a) s holds err := by
  induction items generalizing a s with
  | nil => exact Or.inr start
  | cons item rest induction =>
    rw [List.foldlM_cons]
    refine allows_bind ((kept a s item List.mem_cons_self start).mono ?_ fun _ _ failed => failed)
    intro a later held
    exact induction (fun a s b member => kept a s b (List.mem_cons_of_mem _ member)) held

end

end Prog

end Eonos.Lib
