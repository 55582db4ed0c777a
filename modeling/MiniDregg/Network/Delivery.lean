import MiniDregg.Network.World

/-!
# Delivered messages

A message has arrived when the schedule delivers it at some moment after it was
sent. A world is quiet for its honest parties when everything they were sent by
honest parties has arrived; what an arrival leaves behind and no operation
undoes then holds of every recipient.
-/

namespace MiniDregg.Network

open List

variable {ι σ μ : Type} [DecidableEq μ] {R : Roster} {M : Machine ι σ μ}

namespace World

/-- The schedule delivers the message at some moment after it was sent. -/
def Delivered (R : Roster) (M : Machine ι σ μ) (W : World σ μ) (schedule : List (Event ι μ))
    (x : Sent μ) : Prop :=
  ∃ before after, schedule = before ++ .deliver x.recipient x.sender x.message :: after ∧
    x ∈ (W.run R M before).sent

/-- Every message sent between honest parties has been delivered. -/
def Quiet (R : Roster) (M : Machine ι σ μ) (W : World σ μ) (schedule : List (Event ι μ)) : Prop :=
  ∀ x ∈ (W.run R M schedule).sent, R.Honest x.sender → R.Honest x.recipient →
    W.Delivered R M schedule x

variable {W : World σ μ}

/-- An event that may happen makes the party's move, or is refused. -/
theorem step_of_possible {e : Event ι μ} (hpos : e.Possible R W) :
    (∃ s out, M.handle (W.state e.party) e = .ok (s, out) ∧
        W.step R M e = W.advance e.party s out) ∨
      (∃ x, M.handle (W.state e.party) e = .error x) ∧ W.step R M e = W := by
  cases hact : M.handle (W.state e.party) e with
  | error x => exact .inr ⟨⟨x, rfl⟩, by simp only [step, if_pos hpos, hact]⟩
  | ok r => exact .inl ⟨r.1, r.2, rfl, by simp only [step, if_pos hpos, hact]⟩

/-- What the arrival of a message brings about and every operation keeps holds of the
recipient of a delivered message. -/
theorem Delivered.lasting {L P : σ → Prop} {schedule : List (Event ι μ)} {x : Sent μ}
    (hx : W.Delivered R M schedule x) (hhonest : R.Honest x.recipient) (hW : ∀ p, L (W.state p))
    (hlocal : ∀ s (e : Event ι μ) t out, L s → M.handle s e = .ok (t, out) → L t)
    (harrive : ∀ s t out, L s → M.receive s x.sender x.message = .ok (t, out) → P t)
    (hrefuse : ∀ s e, L s → M.receive s x.sender x.message = .error e → P s)
    (hkeep : ∀ s (e : Event ι μ) t out, L s → P s → M.handle s e = .ok (t, out) → P t) :
    P ((W.run R M schedule).state x.recipient) := by
  obtain ⟨before, after, rfl, hsent⟩ := hx
  rw [World.run_append, World.run_cons]
  have hbefore : ∀ p, L ((W.run R M before).state p) := World.run_local hW hlocal before
  generalize W.run R M before = V at hsent hbefore
  have hpos : (Event.deliver x.recipient x.sender x.message : Event ι μ).Possible R V :=
    ⟨hhonest, .inr hsent⟩
  have hstep : (∀ p, L ((V.step R M (.deliver x.recipient x.sender x.message)).state p)) ∧
      P ((V.step R M (.deliver x.recipient x.sender x.message)).state x.recipient) := by
    rcases step_of_possible (M := M) hpos with ⟨t, out, hact, h⟩ | ⟨⟨e, hact⟩, h⟩
    · rw [h]
      refine ⟨V.forall_advance (P := fun _ t => L t) (hlocal _ _ t out (hbefore _) hact)
        hbefore, ?_⟩
      rw [show (Event.deliver x.recipient x.sender x.message : Event ι μ).party = x.recipient
        from rfl, advance_state_self]
      exact harrive _ t out (hbefore _) hact
    · rw [h]
      exact ⟨hbefore, hrefuse _ e (hbefore _) hact⟩
  generalize V.step R M (.deliver x.recipient x.sender x.message) = U at hstep
  refine (World.run_invariant (P := fun U => (∀ p, L (U.state p)) ∧ P (U.state x.recipient))
    hstep ?_ after).2
  rintro U e s out ⟨hL, hP⟩ - hact
  refine ⟨U.forall_advance (P := fun _ t => L t) (hlocal _ e s out (hL _) hact) hL, ?_⟩
  by_cases hp : x.recipient = e.party
  · rw [hp, advance_state_self]
    rw [hp] at hP
    exact hkeep _ e s out (hL _) hP hact
  · rw [advance_state_ne hp]
    exact hP

/-- What was sent arrives in the order of sending, from message `k` on and so many messages. -/
def flood (R : Roster) (M : Machine ι σ μ) : ℕ → ℕ → World σ μ → World σ μ
  | 0, _, W => W
  | count + 1, k, W =>
    match W.sent[k]? with
    | some x => flood R M count (k + 1) (W.step R M (.deliver x.recipient x.sender x.message))
    | none => W

theorem sent_prefix_step (e : Event ι μ) : W.sent <+: (W.step R M e).sent := by
  rcases W.step_cases (R := R) (M := M) e with h | ⟨s, out, -, -, h⟩
  · rw [h]
  · rw [h]
    exact prefix_append ..

/-- A flood is the end of a schedule, which delivers the messages it goes through. -/
theorem exists_flood (count : ℕ) {k : ℕ} (schedule : List (Event ι μ))
    (hk : ∀ x ∈ (W.run R M schedule).sent.take k, W.Delivered R M schedule x) :
    ∃ later, W.run R M (schedule ++ later) = (W.run R M schedule).flood R M count k ∧
      ∀ x ∈ (W.run R M (schedule ++ later)).sent.take (k + count),
        W.Delivered R M (schedule ++ later) x := by
  induction count generalizing k schedule with
  | zero => exact ⟨[], by simp [flood], by simpa using hk⟩
  | succ count ih =>
    cases hx : (W.run R M schedule).sent[k]? with
    | none =>
      have hle := getElem?_eq_none_iff.1 hx
      rw [take_of_length_le hle] at hk
      have hall := take_of_length_le (hle.trans (Nat.le_add_right k (count + 1)))
      exact ⟨[], by simp [flood, hx], by simpa [hall] using hk⟩
    | some x =>
      let e : Event ι μ := .deliver x.recipient x.sender x.message
      have hstep : W.run R M (schedule ++ [e]) = (W.run R M schedule).step R M e := by
        rw [run_append, run_cons, run_nil]
      have htake : (W.run R M (schedule ++ [e])).sent.take (k + 1) =
          (W.run R M schedule).sent.take k ++ [x] := by
        obtain ⟨out, hout⟩ := sent_prefix_step (W := W.run R M schedule) (R := R) (M := M) e
        obtain ⟨hlt, hget⟩ := List.getElem?_eq_some_iff.1 hx
        rw [hstep, ← hout, take_append_of_le_length hlt, take_succ_eq_append_getElem hlt, hget]
      have hnext : ∀ y ∈ (W.run R M (schedule ++ [e])).sent.take (k + 1),
          W.Delivered R M (schedule ++ [e]) y := by
        rw [htake]
        intro y hy
        rcases mem_append.1 hy with hold | hnew
        · obtain ⟨before, after, hsplit, hsent⟩ := hk y hold
          exact ⟨before, after ++ [e], by rw [hsplit]; simp, hsent⟩
        · rw [mem_singleton.1 hnew]
          exact ⟨schedule, [], rfl, mem_of_getElem? hx⟩
      obtain ⟨later, hrun, hdel⟩ := ih _ hnext
      refine ⟨e :: later, ?_, ?_⟩
      · rw [append_cons, hrun, hstep, flood, hx]
      · rw [append_cons, Nat.add_comm count, ← Nat.add_assoc]
        exact hdel

end World

end MiniDregg.Network
