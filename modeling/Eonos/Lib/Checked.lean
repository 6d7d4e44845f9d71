import Mathlib

/-!
# Computations that return, fail or panic

In `ExceptT ε Option` a computation returns a value, fails with an error, or
has no result at all, which stands for a panic.
-/

namespace Eonos.Lib

universe u

variable {ε α β σ : Type u}

def Returns (x : ExceptT ε Option α) (a : α) : Prop := x.run = some (.ok a)

def Panics (x : ExceptT ε Option α) : Prop := x.run = none

variable {a : α} {e : ε} {x : ExceptT ε Option α} {f : α → ExceptT ε Option β}

@[simp]
theorem returns_pure {b : α} : Returns (pure a : ExceptT ε Option α) b ↔ a = b := by
  simp [Returns]

@[simp]
theorem returns_throw : ¬ Returns (throw e : ExceptT ε Option α) a := by
  simp [Returns]

@[simp]
theorem panics_pure : ¬ Panics (pure a : ExceptT ε Option α) := by
  simp [Panics]

@[simp]
theorem panics_throw : ¬ Panics (throw e : ExceptT ε Option α) := by
  simp [Panics]

theorem run_bind_eq (x : ExceptT ε Option α) (f : α → ExceptT ε Option β) :
    (x >>= f).run = x.run.bind fun outcome =>
      match outcome with
      | .ok a => (f a).run
      | .error e => some (.error e) := by
  rw [ExceptT.run_bind]
  cases x.run with
  | none => rfl
  | some outcome => cases outcome <;> rfl

@[simp]
theorem returns_bind {b : β} : Returns (x >>= f) b ↔ ∃ a, Returns x a ∧ Returns (f a) b := by
  unfold Returns
  rw [run_bind_eq]
  cases x.run with
  | none => simp
  | some outcome => cases outcome <;> simp

@[simp]
theorem panics_bind : Panics (x >>= f) ↔ Panics x ∨ ∃ a, Returns x a ∧ Panics (f a) := by
  unfold Panics Returns
  rw [run_bind_eq]
  cases x.run with
  | none => simp
  | some outcome => cases outcome <;> simp

@[simp]
theorem returns_lift {o : Option α} : Returns (liftM o : ExceptT ε Option α) a ↔ o = some a := by
  unfold Returns
  cases o <;> simp [liftM, monadLift, MonadLift.monadLift, ExceptT.lift, ExceptT.run, ExceptT.mk]

@[simp]
theorem panics_lift {o : Option α} : Panics (liftM o : ExceptT ε Option α) ↔ o = none := by
  unfold Panics
  cases o <;> simp [liftM, monadLift, MonadLift.monadLift, ExceptT.lift, ExceptT.run, ExceptT.mk]

theorem lift_some_bind :
    ((liftM (some a) : ExceptT ε Option α) >>= f) = f a := rfl

/-- A check that fails with an error. -/
@[simp]
theorem returns_check {c : Prop} [Decidable c] :
    Returns (if c then throw e else x) a ↔ ¬ c ∧ Returns x a := by
  by_cases holds : c <;> simp [holds]

@[simp]
theorem panics_check {c : Prop} [Decidable c] :
    Panics (if c then throw e else x) ↔ ¬ c ∧ Panics x := by
  by_cases holds : c <;> simp [holds]

/-- A loop none of whose steps panics does not panic. -/
theorem not_panics_foldlM {f : σ → α → ExceptT ε Option σ} {items : List α}
    (steps : ∀ s, ∀ x ∈ items, ¬ Panics (f s x)) (s : σ) : ¬ Panics (items.foldlM f s) := by
  induction items generalizing s with
  | nil => simp
  | cons x rest induction =>
    rw [List.foldlM_cons, panics_bind]
    rintro (now | ⟨middle, -, later⟩)
    · exact steps s x List.mem_cons_self now
    · exact induction (fun s x member => steps s x (List.mem_cons_of_mem _ member)) middle later

/-- What follows a computation matters only for the values it returns. -/
theorem bind_eq_of_returns {g : α → ExceptT ε Option β} (same : ∀ a, Returns x a → f a = g a) :
    x >>= f = x >>= g := by
  apply ExceptT.ext
  rw [run_bind_eq, run_bind_eq]
  cases result : x.run with
  | none => rfl
  | some outcome =>
    cases outcome with
    | error e => rfl
    | ok a => exact congrArg ExceptT.run (same a result)

/-- Two loops whose rounds agree where the invariant holds. -/
theorem foldlM_congr {holds : σ → Prop} {f g : σ → α → ExceptT ε Option σ} {items : List α}
    (same : ∀ s, holds s → ∀ x ∈ items, f s x = g s x)
    (kept : ∀ s, holds s → ∀ x ∈ items, ∀ later, Returns (g s x) later → holds later) {s : σ}
    (start : holds s) : items.foldlM f s = items.foldlM g s := by
  induction items generalizing s with
  | nil => rfl
  | cons x rest induction =>
    rw [List.foldlM_cons, List.foldlM_cons, same s start x List.mem_cons_self]
    refine bind_eq_of_returns fun later returned => ?_
    exact induction
      (fun s held y member => same s held y (List.mem_cons_of_mem _ member))
      (fun s held y member => kept s held y (List.mem_cons_of_mem _ member))
      (kept s start x List.mem_cons_self later returned)

end Eonos.Lib
