import MiniDregg.Control.Fallible

/-!
# Computations on stored data under faults

A process reaches its stored data through single operations. Each of them is carried out,
or fails and leaves the data as they are, or is the one at which the process dies, before
or after its effect is stored. What becomes of the operations of a run is an input of the
run, so a statement about all fates is one about all faults and all crashes.

## Implementation notes

`Ends` is the weakest precondition of a computation: it speaks about every way the
computation can end. A proof about a computation applies one rule per operation and never
unfolds the computation itself. An error can be caught, a death cannot.
-/

namespace MiniDregg.Fallible

/-- What becomes of one operation on stored data. -/
inductive Fate where
  | done
  | failed (e : String)
  /-- The process dies, with the effect of the operation stored or not. -/
  | killed (stored : Bool)
  deriving DecidableEq, Repr

/-- How a computation ends. -/
inductive Ending (α : Type) where
  | ok (a : α)
  | error (e : String)
  | killed
  deriving DecidableEq, Repr

/-- A computation on stored data, from the fates of its operations. It returns the fates
that are left. -/
def Durable (σ α : Type) := σ → List Fate → Ending α × σ × List Fate

namespace Durable

variable {σ α β : Type}

/-- One operation: it reads a value and changes the data. An operation without a fate is
carried out. -/
def operation (value : σ → α) (effect : σ → σ) : Durable σ α := fun s fates =>
  match fates with
  | [] => (.ok (value s), effect s, [])
  | .done :: rest => (.ok (value s), effect s, rest)
  | .failed e :: rest => (.error e, s, rest)
  | .killed stored :: _ => (.killed, if stored then effect s else s, [])

/-- Read from the data. -/
def read (value : σ → α) : Durable σ α := operation value id

/-- Change the data. -/
def write (effect : σ → σ) : Durable σ Unit := operation (fun _ => ()) effect

/-- An operation on something else than these data. -/
def elsewhere : Durable σ Unit := operation (fun _ => ()) id

/-- Change what the process holds in memory. -/
def remember (effect : σ → σ) : Durable σ Unit := fun s fates => (.ok (), effect s, fates)

/-- A result that no operation is needed for. -/
def lift (r : Result α) : Durable σ α := fun s fates =>
  match r with
  | .ok a => (.ok a, s, fates)
  | .error e => (.error e, s, fates)

/-- Leave with `e` when the condition holds. -/
def refuseIf (c : Bool) (e : String) : Durable σ Unit := lift (Fallible.refuseIf c e)

/-- Run one computation after another, unless the first one fails. -/
def andThen (x : Durable σ α) (f : α → Durable σ β) : Durable σ β := fun s fates =>
  match x s fates with
  | (.ok a, t, rest) => f a t rest
  | (.error e, t, rest) => (.error e, t, rest)
  | (.killed, t, rest) => (.killed, t, rest)

instance : Monad (Durable σ) where
  pure a := lift (.ok a)
  bind := andThen

/-- The result of a computation as a value, so that its error can be handled. -/
def attempt (x : Durable σ α) : Durable σ (Result α) := fun s fates =>
  match x s fates with
  | (.ok a, t, rest) => (.ok (.ok a), t, rest)
  | (.error e, t, rest) => (.ok (.error e), t, rest)
  | (.killed, t, rest) => (.killed, t, rest)

/-- However the computation ends when it starts from `s`, its end and the data it leaves are
related by `Q`. -/
def Ends (x : Durable σ α) (s : σ) (Q : Ending α → σ → Prop) : Prop :=
  ∀ fates, Q (x s fates).1 (x s fates).2.1

/-- The computation may stop with these data, by an error or a death. -/
def Stops (Q : Ending α → σ → Prop) (s : σ) : Prop := (∀ e, Q (.error e) s) ∧ Q .killed s

/-- A write may be the last that is done, or be followed by a death. -/
def Lands (Q : Ending Unit → σ → Prop) (s : σ) : Prop := Q (.ok ()) s ∧ Q .killed s

variable {e : String}
  {s : σ} {x : Durable σ α} {value : σ → α} {effect : σ → σ} {f : α → Durable σ β} {a : α}
  {r : Result α}

section Rules
variable {Q R : Ending α → σ → Prop}

theorem ends_mono (h : Ends x s Q) (himp : ∀ r t, Q r t → R r t) :
    Ends x s R := fun fates => himp _ _ (h fates)

theorem ends_operation (hok : Q (.ok (value s)) (effect s)) (hstop : Stops Q s)
    (hstored : Q .killed (effect s)) : Ends (operation value effect) s Q := by
  intro fates
  cases fates with
  | nil => exact hok
  | cons fate rest =>
    cases fate with
    | done => exact hok
    | failed e => exact hstop.1 e
    | killed stored =>
      cases stored with
      | false => exact hstop.2
      | true => exact hstored

theorem ends_read (hok : Q (.ok (value s)) s) (hstop : Stops Q s) :
    Ends (read value) s Q :=
  ends_operation hok hstop hstop.2

theorem ends_elsewhere {Q : Ending Unit → σ → Prop} (hok : Q (.ok ()) s)
    (hstop : Stops Q s) : Ends elsewhere s Q :=
  ends_operation hok hstop hstop.2

theorem ends_remember {Q : Ending Unit → σ → Prop} (h : Q (.ok ()) (effect s)) :
    Ends (remember effect) s Q := fun _ => h

theorem ends_lift_error (h : Q (.error e) s) :
    Ends (lift (.error e) : Durable σ α) s Q := fun _ => h

theorem ends_pure (h : Q (.ok a) s) : Ends (pure a : Durable σ α) s Q := fun _ => h

theorem ends_refuseIf {c : Bool} {Q : Ending Unit → σ → Prop} (hok : c = false → Q (.ok ()) s)
    (herror : c = true → Q (.error e) s) : Ends (refuseIf c e) s Q := by
  intro fates
  cases c with
  | false => exact hok rfl
  | true => exact herror rfl

/-- The end of a computation as the start of the next one: what is asked of an error or a
death is asked of the whole, what is asked of a value is asked of the rest. -/
def Next (f : α → Durable σ β) (Q : Ending β → σ → Prop) : Ending α → σ → Prop
  | .ok a, t => Ends (f a) t Q
  | .error e, t => Q (.error e) t
  | .killed, t => Q .killed t

theorem ends_bind {Q : Ending β → σ → Prop} (h : Ends x s (Next f Q)) : Ends (x >>= f) s Q := by
  intro fates
  have hx := h fates
  change Q (andThen x f s fates).1 (andThen x f s fates).2.1
  unfold andThen
  split
  next a t rest heq =>
    rw [heq] at hx
    exact hx rest
  next e t rest heq =>
    rw [heq] at hx
    exact hx
  next t rest heq =>
    rw [heq] at hx
    exact hx

/-- The rest starts where the first computation yields a value. -/
theorem ends_bind_of {P : Ending α → σ → Prop} {Q : Ending β → σ → Prop} (hx : Ends x s P)
    (hstop : ∀ r t, P r t → Stops Q t) (hok : ∀ a t, P (.ok a) t → Ends (f a) t Q) :
    Ends (x >>= f) s Q := by
  apply ends_bind
  refine ends_mono hx fun r t ht => ?_
  cases r with
  | ok a => exact hok a t ht
  | error e => exact (hstop _ t ht).1 e
  | killed => exact (hstop _ t ht).2

section
variable {Q : Ending β → σ → Prop}

theorem ends_operation_bind (hok : Ends (f (value s)) (effect s) Q)
    (hstop : Stops Q s) (hstored : Q .killed (effect s)) :
    Ends (operation value effect >>= f) s Q :=
  ends_bind (ends_operation hok hstop hstored)

theorem ends_read_bind (hok : Ends (f (value s)) s Q)
    (hstop : Stops Q s) : Ends (read value >>= f) s Q :=
  ends_operation_bind hok hstop hstop.2

theorem ends_lift_bind (hok : ∀ a, r = .ok a → Ends (f a) s Q)
    (herror : ∀ e, r = .error e → Q (.error e) s) : Ends (lift r >>= f) s Q := by
  apply ends_bind
  intro fates
  cases r with
  | ok a => exact hok a rfl
  | error e => exact herror e rfl

end

/-- What is asked of a result that is handled. -/
def Handled (Q : Ending (Result α) → σ → Prop) : Ending α → σ → Prop
  | .ok a, t => Q (.ok (.ok a)) t
  | .error e, t => Q (.ok (.error e)) t
  | .killed, t => Q .killed t

theorem ends_attempt {Q : Ending (Result α) → σ → Prop} (h : Ends x s (Handled Q)) :
    Ends (attempt x) s Q := by
  intro fates
  have hx := h fates
  unfold attempt
  split
  next a t rest heq =>
    rw [heq] at hx
    exact hx
  next e t rest heq =>
    rw [heq] at hx
    exact hx
  next t rest heq =>
    rw [heq] at hx
    exact hx

end Rules

/-- The computation leaves the data as they are. -/
def Steady (x : Durable σ α) : Prop := ∀ s, Ends x s fun _ t => t = s

theorem steady_read (value : σ → α) : Steady (read value) := fun _ =>
  ends_read rfl ⟨fun _ => rfl, rfl⟩

theorem steady_elsewhere : Steady (elsewhere : Durable σ Unit) := fun _ =>
  ends_elsewhere rfl ⟨fun _ => rfl, rfl⟩

theorem steady_pure (a : α) : Steady (pure a : Durable σ α) := fun _ => ends_pure rfl

theorem steady_lift (r : Result α) : Steady (lift r : Durable σ α) := by
  intro s fates
  cases r with
  | ok a => rfl
  | error e => rfl

theorem steady_refuseIf (c : Bool) (e : String) : Steady (refuseIf c e : Durable σ Unit) :=
  steady_lift _

theorem steady_bind (hx : Steady x) (hf : ∀ a, Steady (f a)) : Steady (x >>= f) := by
  intro s
  refine ends_bind_of (hx s) (fun r t ht => ⟨fun _ => ht, ht⟩) fun a t ht => ?_
  subst ht
  exact hf a t

/-- What is asked of the rest after a computation that changes nothing. -/
theorem ends_steady_bind {Q : Ending β → σ → Prop} (hx : Steady x) (hok : ∀ a, Ends (f a) s Q)
    (hstop : Stops Q s) : Ends (x >>= f) s Q := by
  refine ends_bind_of (hx s) (fun r t ht => ?_) fun a t ht => ?_
  · subst ht
    exact hstop
  · subst ht
    exact hok a

/-- Without faults the computation yields a value, and the value and the data it leaves are
related by `Q`. -/
def Succeeds (x : Durable σ α) (s : σ) (Q : α → σ → Prop) : Prop :=
  ∃ a t, x s [] = (.ok a, t, []) ∧ Q a t

section Succeeds
variable {Q : α → σ → Prop}

theorem succeeds_operation (h : Q (value s) (effect s)) :
    Succeeds (operation value effect) s Q := ⟨value s, effect s, rfl, h⟩

theorem succeeds_pure (h : Q a s) : Succeeds (pure a : Durable σ α) s Q := ⟨a, s, rfl, h⟩

section
variable {Q : β → σ → Prop}

theorem succeeds_bind (h : Succeeds x s fun a t => Succeeds (f a) t Q) :
    Succeeds (x >>= f) s Q := by
  obtain ⟨a, t, hx, b, u, hf, hQ⟩ := h
  refine ⟨b, u, ?_, hQ⟩
  change andThen x f s [] = _
  rw [andThen, hx]
  exact hf

theorem succeeds_operation_bind (h : Succeeds (f (value s)) (effect s) Q) :
    Succeeds (operation value effect >>= f) s Q :=
  succeeds_bind (succeeds_operation h)

theorem succeeds_lift_bind (hr : r = .ok a) (h : Succeeds (f a) s Q) :
    Succeeds (lift r >>= f) s Q := by
  subst hr
  exact succeeds_bind ⟨a, s, rfl, h⟩

end

theorem succeeds_mono {R : α → σ → Prop} (h : Succeeds x s Q) (himp : ∀ a t, Q a t → R a t) :
    Succeeds x s R := by
  obtain ⟨a, t, hx, hQ⟩ := h
  exact ⟨a, t, hx, himp a t hQ⟩

/-- Without faults the computation does not yield a value. -/
def Refuses (x : Durable σ α) (s : σ) : Prop := ∀ a, (x s []).1 ≠ .ok a

theorem refuses_lift_error : Refuses (lift (.error e) : Durable σ α) s := by
  intro a h
  cases h

theorem refuses_bind_left (h : Refuses x s) : Refuses (x >>= f) s := by
  intro b hb
  change (andThen x f s []).1 = .ok b at hb
  unfold andThen at hb
  split at hb
  next a t rest heq =>
    exact h a (by rw [heq])
  · cases hb
  · cases hb

theorem refuses_bind (h : Succeeds x s fun a t => Refuses (f a) t) : Refuses (x >>= f) s := by
  obtain ⟨a, t, hx, hf⟩ := h
  intro b hb
  change (andThen x f s []).1 = .ok b at hb
  rw [andThen, hx] at hb
  exact hf b hb

end Succeeds

end Durable

end MiniDregg.Fallible
