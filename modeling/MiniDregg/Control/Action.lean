import MiniDregg.Control.Fallible

/-!
# Stateful computations that can fail

A method of the source changes a state and leaves early with `?`. What it did to the
state before the error stays done, so the state is returned next to the result. The
rules here invert a computation that succeeded, one bind at a time, and compose a
relation that every step keeps between the state before and the state after.
-/

namespace MiniDregg.Fallible

/-- A computation on a state that can fail. -/
def Action (σ α : Type) := σ → Result α × σ

namespace Action

variable {σ α β : Type}

/-- Run one computation after another, unless the first one fails. -/
def andThen (x : Action σ α) (f : α → Action σ β) : Action σ β := fun s =>
  match x s with
  | (.ok a, t) => f a t
  | (.error e, t) => (.error e, t)

instance : Monad (Action σ) where
  pure a := fun s => (.ok a, s)
  bind := andThen

/-- The state. -/
def state : Action σ σ := fun s => (.ok s, s)

/-- Change the state. -/
def modify (f : σ → σ) : Action σ Unit := fun s => (.ok (), f s)

/-- A result that the state does not depend on. -/
def lift (r : Result α) : Action σ α := fun s => (r, s)

/-- Leave with `e` when the condition holds. -/
def refuseIf (c : Bool) (e : String) : Action σ Unit := lift (Fallible.refuseIf c e)

variable {x : Action σ α} {f : α → Action σ β} {s u : σ} {a : α} {b : β}

theorem bind_eq_ok : (x >>= f) s = (.ok b, u) ↔ ∃ a t, x s = (.ok a, t) ∧ f a t = (.ok b, u) := by
  change andThen x f s = _ ↔ _
  unfold andThen
  split
  next a t h =>
    simp [h]
  next e t h =>
    simp [h]

/-- What holds after the first step, and after the rest when that step succeeds, holds after
both. -/
theorem bind_rule {P : σ → Prop} (hx : P (x s).2) (hok : ∀ a t, x s = (.ok a, t) → P (f a t).2) :
    P ((x >>= f) s).2 := by
  change P (andThen x f s).2
  unfold andThen
  split
  next a t h =>
    exact hok a t h
  next e t h =>
    rw [h] at hx
    exact hx

theorem state_bind {f : σ → Action σ β} : ((state : Action σ σ) >>= f) s = f s s := rfl

theorem lift_bind_eq_ok {r : Result α} :
    (lift r >>= f) s = (.ok b, u) ↔ ∃ a, r = .ok a ∧ f a s = (.ok b, u) := by
  rw [bind_eq_ok]
  simp only [lift, Prod.mk.injEq]
  constructor
  · rintro ⟨a, t, ⟨hr, rfl⟩, hf⟩
    exact ⟨a, hr, hf⟩
  · rintro ⟨a, hr, hf⟩
    exact ⟨a, s, ⟨hr, rfl⟩, hf⟩

theorem refuseIf_eq_ok {c : Bool} {e : String} {v : Unit} :
    (refuseIf c e : Action σ Unit) s = (.ok v, u) ↔ c = false ∧ s = u := by
  cases c <;> simp [refuseIf, lift, Fallible.refuseIf]

theorem refuseIf_bind_eq_ok {c : Bool} {e : String} {f : Unit → Action σ β} :
    (refuseIf c e >>= f) s = (.ok b, u) ↔ c = false ∧ f () s = (.ok b, u) := by
  rw [bind_eq_ok]
  simp only [refuseIf_eq_ok]
  constructor
  · rintro ⟨_, t, ⟨hc, rfl⟩, hf⟩
    exact ⟨hc, hf⟩
  · rintro ⟨hc, hf⟩
    exact ⟨(), s, ⟨hc, rfl⟩, hf⟩

/-- The computation relates the state before it to the state after it, failed or not. -/
def Keeps (R : σ → σ → Prop) (x : Action σ α) : Prop := ∀ s, R s (x s).2

section Keeps
variable {R : σ → σ → Prop}

section
variable (hrefl : ∀ s, R s s)
include hrefl

theorem keeps_pure (a : α) : Keeps R (pure a : Action σ α) := hrefl

theorem keeps_lift (r : Result α) : Keeps R (lift r : Action σ α) := hrefl

theorem keeps_refuseIf (c : Bool) (e : String) :
    Keeps R (refuseIf c e : Action σ Unit) := hrefl

theorem keeps_state : Keeps R (state : Action σ σ) := hrefl

end

theorem keeps_bind (htrans : ∀ {a b c}, R a b → R b c → R a c) (hx : Keeps R x)
    (hf : ∀ a, Keeps R (f a)) : Keeps R (x >>= f) := by
  intro s
  change R s (andThen x f s).2
  have hs := hx s
  unfold andThen
  split
  next a t h =>
    rw [h] at hs
    exact htrans hs (hf a t)
  next e t h =>
    rw [h] at hs
    exact hs

end Keeps

end Action

end MiniDregg.Fallible
