import Mathlib

/-!
# Programs that call a device

A `Script` is a finite tree: it ends with a value or an error, panics, or makes
a call and goes on with the answer.  What a call does is left open; a `Spec`
says it, by the postconditions a call meets.  `Ensures` is total: a script that
panics ensures nothing.
-/

namespace Eonos.Lib

inductive Script (Op : Type) (Ans : Op → Type) (ε α : Type) : Type
  | done (outcome : Except ε α)
  | panic
  | call (op : Op) (next : Ans op → Script Op Ans ε α)

namespace Script

variable {Op : Type} {Ans : Op → Type} {ε ε' α β σ : Type}

protected def bind :
    Script Op Ans ε α → (α → Script Op Ans ε β) → Script Op Ans ε β
  | done (.ok a), f => f a
  | done (.error e), _ => done (.error e)
  | panic, _ => panic
  | call op next, f => call op fun answer => (next answer).bind f

instance : Monad (Script Op Ans ε) where
  pure a := done (.ok a)
  bind := Script.bind

def fail (e : ε) : Script Op Ans ε α := done (.error e)

/-- Makes a call and returns the answer. -/
def ask (op : Op) : Script Op Ans ε (Ans op) := call op fun answer => pure answer

/-- The value of an option that the code unwraps. -/
def unwrap : Option α → Script Op Ans ε α
  | some a => pure a
  | none => panic

/-- The value of an option whose absence is an error. -/
def okOr (e : ε) : Option α → Script Op Ans ε α
  | some a => pure a
  | none => fail e

/-- Fails unless the condition holds. -/
def require (c : Prop) [Decidable c] (e : ε) : Script Op Ans ε Unit :=
  if c then pure () else fail e

/-- Runs a script and returns how it ended. -/
def attempt : Script Op Ans ε α → Script Op Ans ε' (Except ε α)
  | done outcome => done (.ok outcome)
  | panic => panic
  | call op next => call op fun answer => (next answer).attempt

/-! ### Running -/

/-- A device that answers every call. -/
abbrev Handler (Op : Type) (Ans : Op → Type) (σ : Type) :=
  (op : Op) → σ → Ans op × σ

def run (h : Handler Op Ans σ) :
    Script Op Ans ε α → σ → Option (Except ε α × σ)
  | done outcome, s => some (outcome, s)
  | panic, _ => none
  | call op next, s => (next (h op s).1).run h (h op s).2

/-- The calls of a run. -/
def calls (h : Handler Op Ans σ) : Script Op Ans ε α → σ → List Op
  | done _, _ => []
  | panic, _ => []
  | call op next, s => op :: (next (h op s).1).calls h (h op s).2

section

variable {h : Handler Op Ans σ} {s : σ}

@[simp]
theorem run_pure (a : α) :
    (pure a : Script Op Ans ε α).run h s = some (.ok a, s) := rfl

theorem run_bind (x : Script Op Ans ε α) (f : α → Script Op Ans ε β) :
    (x >>= f).run h s = (x.run h s).bind fun result =>
      match result with
      | (.ok a, t) => (f a).run h t
      | (.error e, t) => some (.error e, t) := by
  change (x.bind f).run h s = _
  induction x generalizing s with
  | done outcome => cases outcome <;> rfl
  | panic => rfl
  | call op next induction => exact induction _

/-- Sequencing with a script whose run is known. -/
theorem run_bind_ok {x : Script Op Ans ε α} {a : α} {t : σ} (ran : x.run h s = some (.ok a, t))
    (f : α → Script Op Ans ε β) : (x >>= f).run h s = (f a).run h t := by
  rw [run_bind, ran]
  rfl

theorem run_bind_error {x : Script Op Ans ε α} {e : ε} {t : σ}
    (ran : x.run h s = some (.error e, t)) (f : α → Script Op Ans ε β) :
    (x >>= f).run h s = some (.error e, t) := by
  rw [run_bind, ran]
  rfl

theorem run_attempt (x : Script Op Ans ε α) :
    (attempt x : Script Op Ans ε' (Except ε α)).run h s =
      (x.run h s).map fun result => (.ok result.1, result.2) := by
  induction x generalizing s with
  | done outcome => rfl
  | panic => rfl
  | call op next induction => exact induction _

@[simp]
theorem run_unwrap_some (a : α) :
    (unwrap (some a) : Script Op Ans ε α).run h s = some (.ok a, s) := rfl

theorem run_require_pos {c : Prop} [Decidable c] {e : ε} (holds : c) :
    (require c e : Script Op Ans ε Unit).run h s = some (.ok (), s) := by
  rw [require, if_pos holds]
  rfl

theorem run_require_neg {c : Prop} [Decidable c] {e : ε} (fails : ¬ c) :
    (require c e : Script Op Ans ε Unit).run h s = some (.error e, s) := by
  rw [require, if_neg fails]
  rfl

end

/-! ### Specifications -/

/-- What calls may do to a state and answer, as postconditions they meet. -/
structure Spec (Op : Type) (Ans : Op → Type) (σ : Type) where
  meets : (op : Op) → σ → (Ans op → σ → Prop) → Prop
  mono : ∀ {op s} {post post' : Ans op → σ → Prop},
    (∀ answer t, post answer t → post' answer t) →
      meets op s post → meets op s post'

def Ensures (spec : Spec Op Ans σ) :
    Script Op Ans ε α → σ → (α → σ → Prop) → (ε → σ → Prop) → Prop
  | done (.ok a), s, ok, _ => ok a s
  | done (.error e), s, _, err => err e s
  | panic, _, _, _ => False
  | call op next, s, ok, err =>
    spec.meets op s fun answer t => Ensures spec (next answer) t ok err

section

variable {spec : Spec Op Ans σ} {x : Script Op Ans ε α} {s : σ}
  {ok : α → σ → Prop} {err : ε → σ → Prop}

@[simp]
theorem ensures_pure {a : α} :
    Ensures spec (pure a : Script Op Ans ε α) s ok err ↔ ok a s := Iff.rfl

@[simp]
theorem ensures_fail {e : ε} :
    Ensures spec (fail e : Script Op Ans ε α) s ok err ↔ err e s := Iff.rfl

@[simp]
theorem ensures_unwrap {o : Option α} :
    Ensures spec (unwrap o : Script Op Ans ε α) s ok err ↔ ∃ a, o = some a ∧ ok a s := by
  cases o with
  | none => exact ⟨False.elim, fun ⟨_, absent, _⟩ => nomatch absent⟩
  | some a => simp [unwrap]

@[simp]
theorem ensures_okOr {e : ε} {o : Option α} :
    Ensures spec (okOr e o : Script Op Ans ε α) s ok err ↔
      (∀ a, o = some a → ok a s) ∧ (o = none → err e s) := by
  cases o <;> simp [okOr]

@[simp]
theorem ensures_require {c : Prop} [Decidable c] {e : ε} {ok : Unit → σ → Prop} :
    Ensures spec (require c e : Script Op Ans ε Unit) s ok err ↔
      (c → ok () s) ∧ (¬ c → err e s) := by
  by_cases holds : c <;> simp [require, holds]

theorem Ensures.mono {ok' : α → σ → Prop} {err' : ε → σ → Prop} (holds : Ensures spec x s ok err)
    (oks : ∀ a t, ok a t → ok' a t) (errs : ∀ e t, err e t → err' e t) :
    Ensures spec x s ok' err' := by
  induction x generalizing s with
  | done outcome =>
    cases outcome with
    | ok a => exact oks a s holds
    | error e => exact errs e s holds
  | panic => exact holds
  | call op next induction =>
    exact spec.mono (fun answer t rest => induction answer rest) holds

theorem ensures_bind_iff {x : Script Op Ans ε β} {f : β → Script Op Ans ε α} :
    Ensures spec (x >>= f) s ok err ↔
      Ensures spec x s (fun b t => Ensures spec (f b) t ok err) err := by
  change Ensures spec (x.bind f) s ok err ↔ _
  induction x generalizing s with
  | done outcome => cases outcome <;> exact Iff.rfl
  | panic => exact Iff.rfl
  | call op next induction =>
    exact ⟨spec.mono fun answer t => (induction answer).mp,
      spec.mono fun answer t => (induction answer).mpr⟩

theorem ensures_attempt_iff {ok : Except ε α → σ → Prop} {err : ε' → σ → Prop} :
    Ensures spec (attempt x : Script Op Ans ε' (Except ε α)) s ok err ↔
      Ensures spec x s (fun a => ok (.ok a)) (fun e => ok (.error e)) := by
  induction x generalizing s with
  | done outcome => cases outcome <;> exact Iff.rfl
  | panic => exact Iff.rfl
  | call op next induction =>
    exact ⟨spec.mono fun answer t => (induction answer).mp,
      spec.mono fun answer t => (induction answer).mpr⟩

attribute [simp] ensures_bind_iff ensures_attempt_iff

theorem ensures_forM {γ : Type} {f : γ → Script Op Ans ε PUnit}
    {items : List γ} (inv : σ → Prop)
    (step : ∀ t, ∀ item ∈ items, inv t →
      Ensures spec (f item) t (fun _ => inv) err)
    (holds : inv s) :
    Ensures spec (items.forM f) s (fun _ => inv) err := by
  induction items generalizing s with
  | nil => exact holds
  | cons item rest induction =>
    change Ensures spec (f item >>= fun _ => rest.forM f) s _ _
    rw [ensures_bind_iff]
    refine (step s item List.mem_cons_self holds).mono ?_ fun _ _ h => h
    intro _ t holds
    exact induction (fun t other member =>
      step t other (List.mem_cons_of_mem _ member)) holds

end

/-! ### Any device -/

/-- Calls that are allowed, whatever they answer. -/
def Spec.demonic (allowed : Op → Prop) : Spec Op Ans Unit where
  meets op _ post := allowed op ∧ ∀ answer, post answer ()
  mono weaker holds := ⟨holds.1, fun answer => weaker _ _ (holds.2 answer)⟩

/-- On every device a script of allowed calls makes only such calls, and comes
to its end. -/
theorem Ensures.any_device {allowed : Op → Prop} {x : Script Op Ans ε α} {ok : α → Unit → Prop}
    {err : ε → Unit → Prop} (holds : Ensures (.demonic allowed) x () ok err) (h : Handler Op Ans σ)
    (s : σ) : (∃ outcome t, x.run h s = some (outcome, t)) ∧ ∀ op ∈ x.calls h s, allowed op := by
  induction x generalizing s with
  | done outcome => exact ⟨⟨_, _, rfl⟩, fun _ member => nomatch member⟩
  | panic => exact holds.elim
  | call op next induction =>
    obtain ⟨result, rest⟩ := induction _ (holds.2 (h op s).1) (h op s).2
    refine ⟨result, fun other member => ?_⟩
    rcases List.mem_cons.mp member with rfl | member
    · exact holds.1
    · exact rest other member

/-! ### Confined scripts -/

/-- The script makes only allowed calls, whatever they answer, and does not
panic; what it returns meets the postcondition. -/
def Confined (allowed : Op → Prop) (x : Script Op Ans ε α) (post : α → Prop) : Prop :=
  Ensures (.demonic allowed) x () (fun a _ => post a) (fun _ _ => True)

section

variable {allowed : Op → Prop} {x : Script Op Ans ε α} {post : α → Prop}

theorem Confined.mono {weaker : α → Prop} (holds : Confined allowed x post)
    (implies : ∀ a, post a → weaker a) : Confined allowed x weaker :=
  Ensures.mono holds (fun a _ => implies a) fun _ _ => id

theorem Confined.widen {wider : Op → Prop} (holds : Confined allowed x post)
    (implies : ∀ op, allowed op → wider op) : Confined wider x post := by
  induction x with
  | done outcome => cases outcome <;> exact holds
  | panic => exact holds.elim
  | call op next induction =>
    exact ⟨implies op holds.1, fun answer => induction answer (holds.2 answer)⟩

theorem confined_pure {a : α} (holds : post a) :
    Confined allowed (pure a : Script Op Ans ε α) post := holds

theorem confined_fail {e : ε} :
    Confined allowed (fail e : Script Op Ans ε α) post := trivial

theorem confined_done {outcome : Except ε α} (holds : ∀ a, outcome = .ok a → post a) :
    Confined allowed (done outcome : Script Op Ans ε α) post := by
  cases outcome with
  | ok a => exact holds a rfl
  | error e => trivial

theorem confined_bind {f : α → Script Op Ans ε β} {P : α → Prop} {post : β → Prop}
    (first : Confined allowed x P) (rest : ∀ a, P a → Confined allowed (f a) post) :
    Confined allowed (x >>= f) post :=
  ensures_bind_iff.mpr (Ensures.mono first (fun a _ => rest a) fun _ _ => id)

theorem confined_require {c : Prop} [Decidable c] {e : ε} :
    Confined allowed (require c e : Script Op Ans ε Unit) fun _ => c :=
  ensures_require.mpr ⟨id, fun _ => trivial⟩

theorem confined_okOr {e : ε} {o : Option α} :
    Confined allowed (okOr e o : Script Op Ans ε α) fun a => o = some a :=
  ensures_okOr.mpr ⟨fun _ => id, fun _ => trivial⟩

theorem confined_unwrap {o : Option α} {a : α} (found : o = some a) :
    Confined allowed (unwrap o : Script Op Ans ε α) (· = a) :=
  ensures_unwrap.mpr ⟨a, found, rfl⟩

theorem confined_attempt (holds : Confined allowed x post) :
    Confined allowed (attempt x : Script Op Ans ε' (Except ε α))
      fun outcome => ∀ a, outcome = .ok a → post a := by
  refine ensures_attempt_iff.mpr (Ensures.mono holds ?_ ?_)
  · rintro a - holds _ ⟨⟩
    exact holds
  · exact fun _ _ _ => nofun

theorem confined_forM {γ : Type} {items : List γ} {f : γ → Script Op Ans ε PUnit}
    (each : ∀ item ∈ items, Confined allowed (f item) fun _ => True) :
    Confined allowed (items.forM f) fun _ => True :=
  ensures_forM (fun _ => True) (fun _ item member _ => each item member)
    trivial

theorem confined_ask (op : Op) (holds : allowed op) :
    Confined allowed (ask op : Script Op Ans ε (Ans op)) fun _ => True :=
  ⟨holds, fun _ => trivial⟩

end

end Script

end Eonos.Lib
