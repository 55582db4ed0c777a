import Mathlib.Data.List.Forall2
import Mathlib.Tactic.Common

/-!
# Fallible computations

The source returns `Result<T>` with a message and leaves at the first error
with `?`. The inversion lemmas here peel such a computation one bind at a time.
-/

namespace MiniDregg.Fallible

open List

universe u

variable {ε : Type*} {α β : Type u}

/-- The source's `Result<T>`: a value, or the text of the refusal. -/
abbrev Result (α : Type*) := Except String α

@[simp] theorem ok_bind (a : α) (f : α → Except ε β) : (.ok a >>= f) = f a := rfl

@[simp] theorem error_bind (e : ε) (f : α → Except ε β) :
    (.error e >>= f) = .error e := rfl

@[simp] theorem pure_eq_ok (a : α) : (pure a : Except ε α) = .ok a := rfl

variable {f : α → Except ε β} {e : ε} {l : List α} {σ γ : Type} {s : σ} {c : Bool}

theorem pure_inj {a b : α} : (pure a : Except ε α) = .ok b ↔ a = b := by simp

theorem pure_pair {a c : α} {b d : β} :
    (pure (a, b) : Except ε (α × β)) = .ok (c, d) ↔ a = c ∧ b = d := by simp

theorem bind_eq_ok {x : Except ε α} {r : β} : (x >>= f) = .ok r ↔ ∃ a, x = .ok a ∧ f a = .ok r := by
  cases x with
  | error | ok => simp

theorem bind_eq_error {x : Except ε α} :
    (x >>= f) = .error e ↔ x = .error e ∨ ∃ a, x = .ok a ∧ f a = .error e := by
  cases x with
  | error | ok => simp

/-- Outcomes can be compared, so that a run on concrete input can be evaluated. -/
instance decidableEqExcept {α : Type} [DecidableEq ε] [DecidableEq α] :
    DecidableEq (Except ε α)
  | .ok a, .ok b => decidable_of_iff (a = b) (by simp)
  | .error e, .error e' => decidable_of_iff (e = e') (by simp)
  | .ok _, .error _ => isFalse (by simp)
  | .error _, .ok _ => isFalse (by simp)

/-- A loop that collects results collects one from each round. -/
theorem mapM_eq_ok {α β : Type} {f : α → Except ε β} {l : List α} {r : List β} :
    l.mapM f = .ok r ↔ Forall₂ (fun a b => f a = .ok b) l r := by
  induction l generalizing r with
  | nil => simp [eq_comm]
  | cons a l ih =>
    simp only [mapM_cons, bind_eq_ok, pure_inj, ih, forall₂_cons_left_iff]
    simp [eq_comm]

/-- A loop over written values reads back what was written. -/
theorem mapM_map_eq_ok {α β : Type} {f : β → Except ε α} {g : α → β} {l : List α}
    (h : ∀ a ∈ l, f (g a) = .ok a) : (l.map g).mapM f = .ok l :=
  mapM_eq_ok.2 (forall₂_map_left_iff.2 (forall₂_same.2 h))

/-- What such a loop collects comes from some round of it. -/
theorem mem_of_mapM_eq_ok {α β : Type} {f : α → Except ε β} {l : List α} {r : List β} {b : β}
    (h : l.mapM f = .ok r) (hb : b ∈ r) : ∃ a ∈ l, f a = .ok b := by
  have hall := mapM_eq_ok.1 h
  obtain ⟨i, hi, rfl⟩ := getElem_of_mem hb
  exact ⟨_, getElem_mem _, (forall₂_iff_get.1 hall).2 i (hall.length_eq ▸ hi) hi⟩

/-- A loop that collects results goes through when every round does. -/
theorem mapM_ok {α β : Type} {f : α → Except ε β} {l : List α} (h : ∀ a ∈ l, ∃ b, f a = .ok b) :
    ∃ r, l.mapM f = .ok r := by
  induction l with
  | nil => exact ⟨[], rfl⟩
  | cons a l ih =>
    obtain ⟨⟨b, hb⟩, hrest⟩ := forall_mem_cons.1 h
    obtain ⟨r, hr⟩ := ih hrest
    exact ⟨b :: r, by rw [mapM_cons, hb, ok_bind, hr, ok_bind, pure_eq_ok]⟩

/-- A check returns nothing, so passing it leaves no value to name. -/
theorem check_bind_eq_ok {β : Type} {x : Except ε Unit} {f : Unit → Except ε β} {r : β} :
    (x >>= f) = .ok r ↔ x = .ok () ∧ f () = .ok r := by
  cases x with
  | error | ok => simp

variable {u : Unit}

/-- A loop of checks passes when every round does. -/
theorem forM_eq_ok {α : Type} {f : α → Except ε Unit} {l : List α} :
    l.forM f = .ok u ↔ ∀ a ∈ l, f a = .ok () := by
  induction l with
  | nil => simp
  | cons a l ih =>
    change (f a >>= fun _ => l.forM f) = .ok u ↔ _
    rw [check_bind_eq_ok, ih, forall_mem_cons]

/-- A loop over a list that rewrites a state and collects what its rounds put out. -/
def collect {σ β γ : Type} (f : σ → β → Except ε (σ × List γ)) :
    σ → List β → Except ε (σ × List γ)
  | s, [] => .ok (s, [])
  | s, b :: rest => do
    let (t, out) ← f s b
    let (u, out') ← collect f t rest
    return (u, out ++ out')

variable {P : σ → List γ → Prop} {before out : List γ}

/-- What relates the state before a loop to any state in it, along with what was put out
so far, relates it to the state after the loop. -/
theorem collect_induction {β : Type} {f : σ → β → Except ε (σ × List γ)}
    {l : List β} {u : σ} (hs : P s before)
    (hround : ∀ s before b t out, b ∈ l → P s before → f s b = .ok (t, out) → P t (before ++ out))
    (h : collect f s l = .ok (u, out)) : P u (before ++ out) := by
  induction l generalizing s before out with
  | nil =>
    cases h
    simpa using hs
  | cons b rest ih =>
    obtain ⟨⟨t, first⟩, hfirst, h⟩ := bind_eq_ok.1 h
    obtain ⟨⟨u', later⟩, hlater, h⟩ := bind_eq_ok.1 h
    cases h
    rw [← append_assoc]
    exact ih (hround s before b t first mem_cons_self hs hfirst)
      (fun s before b t out hb => hround s before b t out (mem_cons_of_mem _ hb)) hlater

/-- A loop whose rounds succeed from every state that keeps an invariant succeeds. -/
theorem collect_total {β : Type} {f : σ → β → Except ε (σ × List γ)}
    (hround : ∀ s before b, P s before → ∃ t out, f s b = .ok (t, out) ∧ P t (before ++ out))
    (l : List β) (hs : P s before) :
    ∃ u out, collect f s l = .ok (u, out) ∧ P u (before ++ out) := by
  induction l generalizing s before with
  | nil => exact ⟨s, [], rfl, by simpa using hs⟩
  | cons b rest ih =>
    obtain ⟨t, first, hfirst, ht⟩ := hround s before b hs
    obtain ⟨u, later, hlater, hu⟩ := ih ht
    refine ⟨u, first ++ later, ?_, by simpa using hu⟩
    simp only [collect, hfirst, hlater, ok_bind, pure_eq_ok]

/-- `Option::ok_or`. -/
def okOr {α : Type*} (o : Option α) (e : ε) : Except ε α :=
  match o with
  | none => .error e
  | some a => .ok a

@[simp] theorem okOr_eq_ok {α : Type*} {o : Option α} {a : α} : okOr o e = .ok a ↔ o = some a := by
  cases o <;> simp [okOr]

theorem okOr_eq_error {α : Type*} {o : Option α} {e' : ε} (h : okOr o e = .error e') : e = e' := by
  cases o with
  | none => exact Except.error.inj h
  | some a => cases h

@[simp] theorem okOr_some {α : Type*} (a : α) (e : ε) : okOr (some a) e = .ok a := rfl

/-- Leave with `e` when the condition holds, as `if c { return Err(e) }` does. -/
def refuseIf (c : Bool) (e : ε) : Except ε Unit :=
  if c then .error e else .ok ()

@[simp] theorem refuseIf_eq_ok : refuseIf c e = .ok u ↔ c = false := by
  cases c <;> simp [refuseIf]

theorem refuseIf_decide {p : Prop} [Decidable p] :
    refuseIf (decide p) e = .ok u ↔ ¬p := by simp

theorem refuseIf_or {c' : Bool} :
    refuseIf (c || c') e = .ok u ↔ refuseIf c e = .ok u ∧ refuseIf c' e = .ok u := by simp

@[simp] theorem refuseIf_eq_error {e' : ε} : refuseIf c e = .error e' ↔ c = true ∧ e = e' := by
  cases c <;> simp [refuseIf]

@[simp] theorem refuseIf_false (e : ε) : refuseIf false e = .ok () := rfl

@[simp] theorem refuseIf_true (e : ε) : refuseIf true e = .error e := rfl

theorem refuseIf_bind_error {α : Type} {x : ε} {f : Unit → Except ε α}
    (h : (refuseIf c e >>= f) = .error x) : e = x ∨ c = false ∧ f () = .error x := by
  cases c with
  | false => exact .inr ⟨rfl, h⟩
  | true => exact .inl (Except.error.inj h)

end MiniDregg.Fallible
