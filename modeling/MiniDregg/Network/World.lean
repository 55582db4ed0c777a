import MiniDregg.Control.Fallible
import MiniDregg.Network.Quorum

/-!
# Asynchronous networks

Parties run one machine each and exchange messages over authenticated channels.
A faulty party sends what it likes; an honest party's message reaches its
recipient only after it was sent, at any later time and any number of times, or
never. A schedule is an arbitrary list of events, so a statement about every
schedule is a statement about every run.

## Implementation notes

A machine that refuses an operation keeps its state and sends nothing. Messages
are never used up: what was sent once may arrive again after anything else.
-/

namespace MiniDregg.Network

open Fallible List

variable {ι σ μ ι' σ' μ' : Type}

/-- What a party does on a local input and on a message from a sender: its next state and
the messages it sends, each with its recipient. -/
structure Machine (ι σ μ : Type) where
  input : σ → ι → Result (σ × List (ℕ × μ))
  receive : σ → ℕ → μ → Result (σ × List (ℕ × μ))

/-- A message on its way. -/
structure Sent (μ : Type) where
  sender : ℕ
  recipient : ℕ
  message : μ
deriving DecidableEq

/-- The states of the parties and all messages that honest parties have sent. -/
structure World (σ μ : Type) where
  state : ℕ → σ
  sent : List (Sent μ)

/-- What the schedule makes happen next: a local input at a party, or the arrival of a
message at a party from a sender. -/
inductive Event (ι μ : Type) where
  | input (party : ℕ) (i : ι)
  | deliver (party sender : ℕ) (m : μ)

/-- The party at which an event happens. -/
def Event.party : Event ι μ → ℕ
  | .input p _ => p
  | .deliver p _ _ => p

/-- What the party does on the event. -/
def Machine.handle (M : Machine ι σ μ) (s : σ) : Event ι μ → Result (σ × List (ℕ × μ))
  | .input _ i => M.input s i
  | .deliver _ q m => M.receive s q m

variable {W : World σ μ}

namespace World

/-- All parties in their first states, nothing sent. -/
def start (init : ℕ → σ) : World σ μ := ⟨init, []⟩

/-- A party goes to its next state and sends messages. -/
def advance (W : World σ μ) (p : ℕ) (s : σ) (out : List (ℕ × μ)) : World σ μ where
  state := Function.update W.state p s
  sent := W.sent ++ out.map fun x => ⟨p, x.1, x.2⟩

section Advance
variable {p q : ℕ} {s : σ} {out : List (ℕ × μ)}

@[simp] theorem advance_state_self : (W.advance p s out).state p = s := by
  simp [advance]

theorem advance_state_ne (h : q ≠ p) : (W.advance p s out).state q = W.state q := by
  simp [advance, h]

/-- What holds of the moved party and of all parties before holds of all parties. -/
theorem forall_advance (W : World σ μ) {P : ℕ → σ → Prop} (hs : P p s)
    (h : ∀ q, P q (W.state q)) (q : ℕ) : P q ((W.advance p s out).state q) := by
  by_cases hq : q = p
  · rw [hq, advance_state_self]
    exact hs
  · rw [advance_state_ne hq]
    exact h q

/-- A value that the moved party keeps is kept by every party. -/
theorem advance_kept {β : Type} {get : σ → β} {b : β} (h : get (W.state p) = b → get s = b)
    {q : ℕ} (hq : get (W.state q) = b) : get ((W.advance p s out).state q) = b :=
  W.forall_advance (P := fun q t => get (W.state q) = b → get t = b) h (fun _ => id) q hq

theorem mem_advance_sent {x : Sent μ} :
    x ∈ (W.advance p s out).sent ↔
      x ∈ W.sent ∨ x.sender = p ∧ (x.recipient, x.message) ∈ out := by
  obtain ⟨sender, recipient, message⟩ := x
  simp only [advance, mem_append, mem_map, Prod.exists, Sent.mk.injEq]
  refine or_congr_right ⟨?_, ?_⟩
  · rintro ⟨r, m, hmem, rfl, rfl, rfl⟩
    exact ⟨rfl, hmem⟩
  · rintro ⟨rfl, hmem⟩
    exact ⟨recipient, message, hmem, rfl, rfl, rfl⟩

end Advance

end World

section Runs
variable (R : Roster) (M : Machine ι σ μ)

/-- Events happen at honest parties only, and a message of an honest sender arrives only
after it was sent. -/
def Event.Possible (W : World σ μ) : Event ι μ → Prop
  | .input p _ => R.Honest p
  | .deliver p q m => R.Honest p ∧ (q ∈ R.faulty ∨ ⟨q, p, m⟩ ∈ W.sent)

variable {R} in
theorem Event.Possible.honest {e : Event ι μ} (h : e.Possible R W) : R.Honest e.party := by
  cases e with
  | input p i => exact h
  | deliver p q m => exact h.1

instance [DecidableEq μ] (W : World σ μ) (e : Event ι μ) : Decidable (e.Possible R W) :=
  match e with
  | .input p _ => inferInstanceAs (Decidable (R.Honest p))
  | .deliver p q m =>
    inferInstanceAs (Decidable (R.Honest p ∧ (q ∈ R.faulty ∨ ⟨q, p, m⟩ ∈ W.sent)))

variable [DecidableEq μ]

/-- One event of the schedule. An event that cannot happen, or that the party refuses,
changes nothing. -/
def World.step (W : World σ μ) (e : Event ι μ) : World σ μ :=
  if e.Possible R W then
    match M.handle (W.state e.party) e with
    | .ok (s, out) => W.advance e.party s out
    | .error _ => W
  else W

/-- The events of a schedule one after the other. -/
def World.run (W : World σ μ) (schedule : List (Event ι μ)) : World σ μ :=
  schedule.foldl (World.step R M) W

variable {R M}

section
variable (W : World σ μ)

@[simp] theorem World.run_nil : W.run R M [] = W := rfl

variable (e : Event ι μ)

@[simp] theorem World.run_cons (schedule : List (Event ι μ)) :
    W.run R M (e :: schedule) = (W.step R M e).run R M schedule := rfl

theorem World.run_append (schedule later : List (Event ι μ)) :
    W.run R M (schedule ++ later) = (W.run R M schedule).run R M later :=
  foldl_append

/-- Either nothing happens, or an honest party makes one move of its machine. -/
theorem World.step_cases :
    W.step R M e = W ∨
      ∃ s out, e.Possible R W ∧ M.handle (W.state e.party) e = .ok (s, out) ∧
        W.step R M e = W.advance e.party s out := by
  by_cases hpos : e.Possible R W
  · cases hact : M.handle (W.state e.party) e with
    | error x => exact .inl (by simp only [step, if_pos hpos, hact])
    | ok r => exact .inr ⟨r.1, r.2, hpos, rfl, by simp only [step, if_pos hpos, hact]⟩
  · exact .inl (if_neg hpos)

end

variable {P : World σ μ → Prop}

/-- What every possible move of the schedule preserves holds after the schedule. -/
theorem World.run_invariant_of_mem (hW : P W) (schedule : List (Event ι μ))
    (hmove : ∀ W e s out, e ∈ schedule → P W → e.Possible R W →
      M.handle (W.state e.party) e = .ok (s, out) → P (W.advance e.party s out)) :
    P (W.run R M schedule) := by
  induction schedule generalizing W with
  | nil => exact hW
  | cons e schedule ih =>
    refine ih ?_ fun V e' s out he' => hmove V e' s out (mem_cons_of_mem e he')
    rcases W.step_cases (R := R) (M := M) e with h | ⟨s, out, hpos, hact, h⟩
    · rwa [h]
    · rw [h]
      exact hmove W e s out mem_cons_self hW hpos hact

/-- What every possible move preserves holds after every schedule. -/
theorem World.run_invariant (hW : P W)
    (hmove : ∀ W e s out, P W → e.Possible R W →
      M.handle (W.state e.party) e = .ok (s, out) → P (W.advance e.party s out))
    (schedule : List (Event ι μ)) : P (W.run R M schedule) :=
  run_invariant_of_mem hW schedule fun W e s out _ => hmove W e s out

variable {L : σ → Prop}

/-- What every operation of the machine preserves holds of every party after every
schedule. -/
theorem World.run_local (hW : ∀ p, L (W.state p))
    (hmove : ∀ s (e : Event ι μ) t out, L s → M.handle s e = .ok (t, out) → L t)
    (schedule : List (Event ι μ)) (p : ℕ) : L ((W.run R M schedule).state p) := by
  refine World.run_invariant (P := fun W => ∀ p, L (W.state p)) hW ?_ schedule p
  intro W e s out hL _ hact
  exact W.forall_advance (P := fun _ t => L t) (hmove _ e s out (hL e.party) hact) hL

/-- A relation between earlier and later states of one party that every operation
respects relates the states of each party before and after a schedule. -/
theorem World.run_related {r : σ → σ → Prop} (hrefl : ∀ s, r s s)
    (htrans : ∀ s t u, r s t → r t u → r s u) (hW : ∀ p, L (W.state p))
    (hmove : ∀ s (e : Event ι μ) t out, L s → M.handle s e = .ok (t, out) → L t ∧ r s t)
    (schedule : List (Event ι μ)) (p : ℕ) : r (W.state p) ((W.run R M schedule).state p) := by
  refine (World.run_invariant (P := fun V => ∀ q, L (V.state q) ∧ r (W.state q) (V.state q))
    (fun q => ⟨hW q, hrefl _⟩) ?_ schedule p).2
  intro V e s out hV _ hact
  refine V.forall_advance (P := fun q t => L t ∧ r (W.state q) t) ?_ hV
  obtain ⟨hlocal, hrel⟩ := hmove _ e s out (hV e.party).1 hact
  exact ⟨hlocal, htrans _ _ _ (hV e.party).2 hrel⟩

/-- The world after the first `t` events of an endless schedule. -/
def World.after (R : Roster) (M : Machine ι σ μ) (W : World σ μ) (schedule : ℕ → Event ι μ)
    (t : ℕ) : World σ μ :=
  W.run R M ((List.range t).map schedule)

theorem World.after_getD {W : World σ μ} (schedule : List (Event ι μ)) (e : Event ι μ) :
    W.after R M (fun i => schedule.getD i e) schedule.length = W.run R M schedule := by
  refine congrArg (W.run R M) (ext_getElem (by simp) fun i _ hi => ?_)
  simp [hi]

/-- What happens between two moments of an endless schedule is a schedule. -/
theorem World.after_of_le (W : World σ μ) (schedule : ℕ → Event ι μ) {t t' : ℕ} (h : t ≤ t') :
    ∃ later, W.after R M schedule t' = (W.after R M schedule t).run R M later := by
  obtain ⟨k, rfl⟩ := Nat.exists_eq_add_of_le h
  refine ⟨(range k).map fun i => schedule (t + i), ?_⟩
  rw [after, after, ← World.run_append, range_add, map_append, map_map]
  rfl

end Runs

end MiniDregg.Network
