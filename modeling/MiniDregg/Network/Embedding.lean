import MiniDregg.Network.World

/-!
# Protocols inside protocols

A host machine runs a component as a part of its state. An `Embedding` says that
the host moves the component only by the component's own operations, hands it
only what arrived for it, and sends exactly what the component sends. A run of
the host then shows a run of the component, and whatever holds after every
schedule of the component holds of the part.
-/

namespace MiniDregg.Network

open Fallible World List Function

variable {ι σ μ ι' σ' μ' : Type}

/-- What a component does while its host handles one event: any local inputs, and the
receipt of what arrived for it. The last argument collects what it sends. -/
inductive Machine.Course (C : Machine ι' σ' μ') (got : Option (ℕ × μ')) :
    σ' → σ' → List (ℕ × μ') → Prop where
  | rest (s : σ') : Course C got s s []
  | input {s t u : σ'} {out out' : List (ℕ × μ')} (i : ι') (h : C.input s i = .ok (t, out))
      (later : Course C got t u out') : Course C got s u (out ++ out')
  | receive {s t u : σ'} {out out' : List (ℕ × μ')} {q : ℕ} {m : μ'} (hgot : got = some (q, m))
      (h : C.receive s q m = .ok (t, out)) (later : Course C got t u out') :
      Course C got s u (out ++ out')

variable {C : Machine ι' σ' μ'} {got : Option (ℕ × μ')}

namespace Machine.Course

variable {s t u : σ'} {out out' : List (ℕ × μ')}

theorem single_input {i : ι'} (h : C.input s i = .ok (t, out)) : C.Course got s t out := by
  simpa using Course.input i h (.rest t)

theorem single_receive {q : ℕ} {m : μ'} (hgot : got = some (q, m))
    (h : C.receive s q m = .ok (t, out)) : C.Course got s t out := by
  simpa using Course.receive hgot h (.rest t)

theorem append (h : C.Course got s t out) (h' : C.Course got t u out') :
    C.Course got s u (out ++ out') := by
  induction h with
  | rest s => exact h'
  | input i hi _ ih =>
    rw [append_assoc]
    exact .input i hi (ih h')
  | receive hgot hr _ ih =>
    rw [append_assoc]
    exact .receive hgot hr (ih h')

end Machine.Course

/-- A component takes its course while its host sends `out`, and what it sends is exactly
what `out` carries for it. -/
def Machine.Does (C : Machine ι' σ' μ') (unwrap : μ → Option μ') (got : Option (ℕ × μ'))
    (s t : σ') (out : List (ℕ × μ)) : Prop :=
  ∃ out', C.Course got s t out' ∧
    ∀ r m', (r, m') ∈ out' ↔ ∃ m, (r, m) ∈ out ∧ unwrap m = some m'

namespace Machine.Does

variable {unwrap : μ → Option μ'} {s t u : σ'}
  {out later : List (ℕ × μ)}

/-- Messages that carry nothing for the component leave it at rest. -/
theorem rest (h : ∀ r m, (r, m) ∈ out → unwrap m = none) : C.Does unwrap got s s out := by
  refine ⟨[], .rest s, fun r m' => ⟨nofun, ?_⟩⟩
  rintro ⟨m, hm, hu⟩
  rw [h r m hm] at hu
  cases hu

theorem append (h : C.Does unwrap got s t out) (h' : C.Does unwrap got t u later) :
    C.Does unwrap got s u (out ++ later) := by
  obtain ⟨a, ha, hout⟩ := h
  obtain ⟨b, hb, hlater⟩ := h'
  refine ⟨a ++ b, ha.append hb, fun r m' => ?_⟩
  rw [mem_append, hout, hlater]
  simp only [mem_append, or_and_right, exists_or]

/-- A host that wraps its messages once more carries the same for the component. -/
theorem map {μ'' : Type} {wrap : μ → μ''} {unwrap' : μ'' → Option μ'}
    (hwrap : ∀ m, unwrap' (wrap m) = unwrap m) (h : C.Does unwrap got s t out) :
    C.Does unwrap' got s t (out.map fun x => (x.1, wrap x.2)) := by
  obtain ⟨out', hcourse, hout⟩ := h
  refine ⟨out', hcourse, fun r m' => ?_⟩
  simp only [hout, mem_map, Prod.mk.injEq, Prod.exists]
  constructor
  · rintro ⟨m, hm, hu⟩
    exact ⟨wrap m, ⟨r, m, hm, rfl, rfl⟩, (hwrap m).trans hu⟩
  · rintro ⟨_, ⟨_, m, hm, rfl, rfl⟩, hu⟩
    exact ⟨m, hm, (hwrap m).symm.trans hu⟩

end Machine.Does

/-- The sender and what a delivery carries for the component. -/
def Event.carried (unwrap : μ → Option μ') : Event ι μ → Option (ℕ × μ')
  | .input _ _ => none
  | .deliver _ q m => (unwrap m).map fun m' => (q, m')

/-- A component of a host: where it is in the host's state, and which of the host's
messages are the component's. The invariant `Local` of the host's states is what the host
needs to keep the component in place. -/
structure Embedding (M : Machine ι σ μ) (C : Machine ι' σ' μ') where
  Local : σ → Prop
  view : σ → σ'
  unwrap : μ → Option μ'
  course : ∀ s (e : Event ι μ) t out, Local s → M.handle s e = .ok (t, out) →
    Local t ∧ C.Does unwrap (e.carried unwrap) (view s) (view t) out

namespace Embedding

variable {R : Roster} {M : Machine ι σ μ}

/-- The component's world inside the host's one. -/
structure Shows (E : Embedding M C) (W : World σ μ) (V : World σ' μ') : Prop where
  state : ∀ p, V.state p = E.view (W.state p)
  sent : ∀ x : Sent μ', x ∈ V.sent ↔
    ∃ m, ⟨x.sender, x.recipient, m⟩ ∈ W.sent ∧ E.unwrap m = some x.message

/-- A world in which nothing was sent shows the component's parties in their states. -/
theorem shows_start (E : Embedding M C) (init : ℕ → σ) :
    E.Shows (.start init) (.start fun p => E.view (init p)) :=
  ⟨fun _ => rfl, fun x => by simp [World.start]⟩

variable [DecidableEq μ'] {V : World σ' μ'} {W : World σ μ}

/-- What a component does during one event of its host is a schedule of its own. -/
theorem exists_schedule_of_course {s t : σ'} {out : List (ℕ × μ')}
    (h : C.Course got s t out) {p : ℕ} (hp : R.Honest p) (hs : V.state p = s)
    (hgot : ∀ q m, got = some (q, m) → q ∈ R.faulty ∨ ⟨q, p, m⟩ ∈ V.sent) :
    ∃ schedule : List (Event ι' μ'),
      (V.run R C schedule).state = Function.update V.state p t ∧
      ∀ x, x ∈ (V.run R C schedule).sent ↔
        x ∈ V.sent ∨ x.sender = p ∧ (x.recipient, x.message) ∈ out := by
  induction h generalizing V with
  | rest s =>
    refine ⟨[], ?_, fun x => by simp⟩
    rw [run_nil, ← hs, update_eq_self]
  | @input s t u out out' i hi _ ih =>
    have hstep : V.step R C (.input p i) = V.advance p t out := by
      simp only [World.step, Event.Possible, if_pos hp, Machine.handle, Event.party, hs, hi]
    obtain ⟨schedule, hstate, hsent⟩ := ih (V := V.step R C (.input p i))
      (by rw [hstep, advance_state_self])
      (fun q m hq => by
        rw [hstep, mem_advance_sent]
        exact (hgot q m hq).imp_right .inl)
    refine ⟨.input p i :: schedule, ?_, fun x => ?_⟩
    · rw [run_cons, hstate, hstep]
      exact update_idem ..
    · rw [run_cons, hsent, hstep, mem_advance_sent, mem_append]
      tauto
  | @receive s t u out out' q m hq hr _ ih =>
    have hpos : (Event.deliver p q m : Event ι' μ').Possible R V := ⟨hp, hgot q m hq⟩
    have hstep : V.step R C (.deliver p q m) = V.advance p t out := by
      simp only [World.step, if_pos hpos, Machine.handle, Event.party, hs, hr]
    obtain ⟨schedule, hstate, hsent⟩ := ih (V := V.step R C (.deliver p q m))
      (by rw [hstep, advance_state_self])
      (fun q' m' hq' => by
        rw [hstep, mem_advance_sent]
        exact (hgot q' m' hq').imp_right .inl)
    refine ⟨.deliver p q m :: schedule, ?_, fun x => ?_⟩
    · rw [run_cons, hstate, hstep]
      exact update_idem ..
    · rw [run_cons, hsent, hstep, mem_advance_sent, mem_append]
      tauto

/-- One move of the host is a schedule of the component. -/
theorem Shows.advance {E : Embedding M C} (h : E.Shows W V) {e : Event ι μ} {s : σ}
    {out : List (ℕ × μ)} (hlocal : E.Local (W.state e.party)) (hpos : e.Possible R W)
    (hact : M.handle (W.state e.party) e = .ok (s, out)) :
    ∃ schedule, E.Shows (W.advance e.party s out) (V.run R C schedule) := by
  obtain ⟨-, out', hcourse, hout⟩ := E.course _ e s out hlocal hact
  have hgot : ∀ q m, e.carried E.unwrap = some (q, m) →
      q ∈ R.faulty ∨ ⟨q, e.party, m⟩ ∈ V.sent := by
    intro q m hm
    cases e with
    | input p i => cases hm
    | deliver p q' m' =>
      obtain ⟨m₀, hunwrap, heq⟩ := Option.map_eq_some_iff.1 hm
      cases heq
      exact hpos.2.imp_right fun hsent => (h.sent _).2 ⟨m', hsent, hunwrap⟩
  obtain ⟨schedule, hstate, hsent⟩ :=
    exists_schedule_of_course hcourse hpos.honest (h.state e.party) hgot
  refine ⟨schedule, ⟨fun p => ?_, fun x => ?_⟩⟩
  · rw [hstate]
    by_cases hp : p = e.party
    · simp [hp]
    · rw [update_of_ne hp, advance_state_ne hp, h.state p]
  · rw [hsent, h.sent, hout]
    simp only [mem_advance_sent]
    constructor
    · rintro (⟨m, hm, hu⟩ | ⟨hsender, m, hm, hu⟩)
      · exact ⟨m, .inl hm, hu⟩
      · exact ⟨m, .inr ⟨hsender, hm⟩, hu⟩
    · rintro ⟨m, hm | ⟨hsender, hm⟩, hu⟩
      · exact .inl ⟨m, hm, hu⟩
      · exact .inr ⟨hsender, m, hm, hu⟩

variable [DecidableEq μ]

variable (E : Embedding M C)

omit [DecidableEq μ'] in
theorem local_run (hlocal : ∀ p, E.Local (W.state p))
    (schedule : List (Event ι μ)) (p : ℕ) : E.Local ((W.run R M schedule).state p) :=
  run_local hlocal (fun s e t out hs hact => (E.course s e t out hs hact).1) schedule p

/-- After every schedule of the host, the component is as after some schedule of its own. -/
theorem exists_schedule (hshows : E.Shows W V)
    (hlocal : ∀ p, E.Local (W.state p)) (schedule : List (Event ι μ)) :
    ∃ schedule', E.Shows (W.run R M schedule) (V.run R C schedule') := by
  refine (run_invariant
    (P := fun U => (∀ p, E.Local (U.state p)) ∧ ∃ later, E.Shows U (V.run R C later))
    ⟨hlocal, [], hshows⟩ ?_ schedule).2
  rintro U e s out ⟨hU, later, hV⟩ hpos hact
  refine ⟨?_, ?_⟩
  · exact U.forall_advance (P := fun _ t => E.Local t)
      (E.course _ e s out (hU e.party) hact).1 hU
  · obtain ⟨more, hmore⟩ := hV.advance (hU e.party) hpos hact
    exact ⟨later ++ more, by rwa [run_append]⟩

end Embedding

end MiniDregg.Network
