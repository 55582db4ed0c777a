import MiniDregg.Network.Delivery
import MiniDregg.PrivateBackend.Bracha

/-!
# What reliable broadcast guarantees

Agreement and validity rest on the quorums behind the honest parties' messages.
Totality is the amplification argument: an output rests on more than `f` honest
READYs, which once delivered make every honest party send its READY for the same
value, and the READYs of all honest parties are a quorum.

## Implementation notes

`Bracha.Gain` says what an operation brings about, beside `Bracha.Move`, which
says where it may come from: the READY of a due value is sent, the output of a
due value is set, and the sender of a READY stays counted.
-/

namespace MiniDregg.PrivateBackend.Bracha

open MiniDregg.Network Store Fallible Finset World

variable {n f : ℕ} {α : Type} [LinearOrder α] {v : α}

section Tallies
variable {tally : OrderedMap α (Finset ℕ)} {q p : ℕ}

theorem votersOf_card_lt (hq : 0 < q) (h : firstWith tally q = none) (v : α) :
    (votersOf tally v).card < q := by
  rw [firstWith, Option.map_eq_none_iff, List.find?_eq_none] at h
  unfold votersOf
  cases hget : tally.get? v with
  | none => simpa using hq
  | some s => simpa using h (v, s) (OrderedMap.get?_eq_some.1 hget)

theorem votersOf_vote_self : p ∈ votersOf (vote tally v p) v := by
  simp [vote, votersOf]

theorem votersOf_subset_vote (w : α) : votersOf tally w ⊆ votersOf (vote tally v p) w := by
  simp only [vote, votersOf, OrderedMap.get?_insert]
  split_ifs with hw
  · rw [hw]
    exact subset_insert _ _
  · exact Finset.Subset.refl _

end Tallies

/-- Nothing is due: a value that calls for the party's READY or for its output has got
it, and each sender of a READY is counted for a value. -/
structure Steady (b : Bracha n f α) : Prop where
  ready_due : b.readySent = none → ∀ v, (votersOf b.readies v).card ≤ f
  output_due : b.output = none → ∀ v, (votersOf b.readies v).card < n - f
  counted : ∀ q ∈ b.readySenders, ∃ v, q ∈ votersOf b.readies v

/-- What an operation brings about. -/
structure Gain (got : Option (ℕ × PhaseMessage α)) (b t : Bracha n f α)
    (out : List (PhaseMessage α)) : Prop where
  told : ∀ v, t.readySent = some v → b.readySent = some v ∨ .ready v ∈ out
  steady : b.Steady → t.Steady
  senders_kept : b.readySenders ⊆ t.readySenders
  sender : ∀ q v, got = some (q, .ready v) → q ∈ t.readySenders

theorem inputRa_gain (b : Bracha n f α) (v : α) : Gain none b (b.inputRa v).1 (b.inputRa v).2 := by
  unfold inputRa
  split_ifs
  · exact ⟨fun _ => .inl, fun h => { h with }, fun _ h => h,
      fun _ _ h => by cases h⟩
  · exact ⟨fun _ => .inl, id, fun _ h => h, fun _ _ h => by cases h⟩

section Receive
variable (b : Bracha n f α) (q : ℕ) (m : PhaseMessage α)

theorem hear_readySent : (b.hear q m).1.readySent = b.readySent := by
  cases m <;> simp only [hear] <;> split_ifs <;> rfl

theorem readySenders_subset_hear : b.readySenders ⊆ (b.hear q m).1.readySenders := by
  cases m with
  | init | echo => simp only [hear]; split_ifs <;> exact fun _ h => h
  | ready v =>
    simp only [hear]
    split_ifs
    · exact fun _ h => h
    · exact subset_insert _ _

theorem mem_readySenders_hear (v : α) : q ∈ (b.hear q (.ready v)).1.readySenders := by
  simp only [hear]
  split_ifs with h
  · exact h
  · exact mem_insert_self _ _

variable {b} in
theorem hear_counted (h : ∀ p ∈ b.readySenders, ∃ v, p ∈ votersOf b.readies v) :
    ∀ p ∈ (b.hear q m).1.readySenders, ∃ v, p ∈ votersOf (b.hear q m).1.readies v := by
  cases m with
  | init | echo => simp only [hear]; split_ifs <;> exact h
  | ready v =>
    simp only [hear]
    split_ifs
    · exact h
    · intro p hp
      rcases mem_insert.1 hp with rfl | hp
      · exact ⟨v, votersOf_vote_self⟩
      · obtain ⟨w, hw⟩ := h p hp
        exact ⟨w, votersOf_subset_vote w hw⟩

theorem sendReady_readies : b.sendReady.1.readies = b.readies := by
  unfold sendReady
  split_ifs
  · cases b.eligible <;> rfl
  · rfl

theorem sendReady_readySenders : b.sendReady.1.readySenders = b.readySenders := by
  unfold sendReady
  split_ifs
  · cases b.eligible <;> rfl
  · rfl

theorem sendReady_told (v : α) (h : b.sendReady.1.readySent = some v) :
    b.readySent = some v ∨ .ready v ∈ b.sendReady.2 := by
  unfold sendReady at h ⊢
  split_ifs at h ⊢
  · cases heligible : b.eligible with
    | none => exact .inl (by simpa [heligible] using h)
    | some w => exact .inr (by simpa [heligible, eq_comm] using h)
  · exact .inl h

/-- After the READY step either a READY is out or no value has more than `f` READYs. -/
theorem sendReady_due (h : b.sendReady.1.readySent = none) (v : α) :
    (votersOf b.readies v).card ≤ f := by
  unfold sendReady at h
  split_ifs at h with hnone
  · cases heligible : b.eligible with
    | none =>
      have hfirst := (Option.or_eq_none_iff.1 heligible).2
      exact Nat.lt_succ_iff.1 (votersOf_card_lt f.succ_pos hfirst v)
    | some w => simp [heligible] at h
  · exact absurd h (by simpa using hnone)

theorem decideOutput_readies : b.decideOutput.readies = b.readies := by
  unfold decideOutput
  split_ifs <;> rfl

theorem decideOutput_readySent : b.decideOutput.readySent = b.readySent := by
  unfold decideOutput
  split_ifs <;> rfl

theorem decideOutput_readySenders : b.decideOutput.readySenders = b.readySenders := by
  unfold decideOutput
  split_ifs <;> rfl

theorem decideOutput_due (hf : f < n) (h : b.decideOutput.output = none) (v : α) :
    (votersOf b.readies v).card < n - f := by
  unfold decideOutput at h
  split_ifs at h with hnone
  · exact votersOf_card_lt (Nat.sub_pos_of_lt hf) h v
  · exact absurd h (by simpa using hnone)

theorem receive_readySenders : (b.receive q m).1.readySenders = (b.hear q m).1.readySenders := by
  rw [receive, decideOutput_readySenders, sendReady_readySenders]

theorem receive_readies : (b.receive q m).1.readies = (b.hear q m).1.readies := by
  rw [receive, decideOutput_readies, sendReady_readies]

theorem receive_gain (hf : f < n) : Gain (some (q, m)) b (b.receive q m).1 (b.receive q m).2 := by
  constructor
  case told =>
    intro v hv
    rw [receive, decideOutput_readySent] at hv
    rcases sendReady_told _ v hv with h | h
    · exact .inl (by rwa [hear_readySent] at h)
    · exact .inr (List.mem_append_right _ h)
  case steady =>
    intro h
    constructor
    · intro hnone v
      rw [receive, decideOutput_readySent] at hnone
      rw [receive_readies]
      exact sendReady_due _ hnone v
    · intro hnone v
      rw [receive] at hnone
      rw [receive, decideOutput_readies]
      exact decideOutput_due _ hf hnone v
    · rw [receive_readySenders, receive_readies]
      exact hear_counted q m h.counted
  case senders_kept =>
    rw [receive_readySenders]
    exact b.readySenders_subset_hear q m
  case sender =>
    intro q' v hgot
    cases hgot
    rw [receive_readySenders]
    exact b.mem_readySenders_hear q v

end Receive

theorem steady_new (hf : f < n) (dealer : Option ℕ) : (new n f dealer : Bracha n f α).Steady := by
  constructor
  · simp [new, votersOf]
  · simpa [new, votersOf] using fun _ : α => Nat.sub_pos_of_lt hf
  · simp [new]

/-- Every move of the machine is the dealer's INIT or gains what it should. -/
theorem machine_gain (hf : f < n) {b t : Bracha n f α} {e : Event (Input α) (PhaseMessage α)}
    {out : List (ℕ × PhaseMessage α)} (h : (machine n f α).handle b e = .ok (t, out)) :
    (∃ v, t = b ∧ out = toAll n [.init v]) ∨
      ∃ ps, out = toAll n ps ∧ Gain (e.carried some) b t ps := by
  cases e with
  | input p i =>
    cases i with
    | agree v =>
      cases h
      exact .inr ⟨_, rfl, b.inputRa_gain v⟩
    | broadcast v =>
      cases h
      exact .inl ⟨v, rfl, rfl⟩
  | deliver p q m =>
    cases h
    exact .inr ⟨_, rfl, b.receive_gain q m hf⟩

section Network
variable {R : Roster} {V : World (Bracha R.n R.f α) (PhaseMessage α)}
  {schedule : List (Event (Input α) (PhaseMessage α))}

theorem roster_bound (R : Roster) : R.f < R.n := by
  have h := R.size
  omega

theorem run_steady (hV : ∀ p, (V.state p).Steady) (p : ℕ) :
    ((V.run R (machine R.n R.f α) schedule).state p).Steady := by
  refine run_local hV ?_ schedule p
  intro b e t out hb hact
  rcases machine_gain (roster_bound R) hact with ⟨v, rfl, -⟩ | ⟨ps, -, hgain⟩
  · exact hb
  · exact hgain.steady hb

/-- The READY of a party has gone to every party. -/
theorem run_told (hV : ∀ p v, (V.state p).readySent = some v → ∀ r < R.n, ⟨p, r, .ready v⟩ ∈ V.sent)
    (p : ℕ) (v : α) (hv : ((V.run R (machine R.n R.f α) schedule).state p).readySent = some v)
    (r : ℕ) (hr : r < R.n) : ⟨p, r, .ready v⟩ ∈ (V.run R (machine R.n R.f α) schedule).sent := by
  refine run_invariant (P := fun V : World (Bracha R.n R.f α) (PhaseMessage α) =>
    ∀ p v, (V.state p).readySent = some v → ∀ r < R.n, ⟨p, r, .ready v⟩ ∈ V.sent)
    hV ?_ schedule p v hv r hr
  intro V e t out hV _ hact
  refine V.forall_advance (P := fun p b => ∀ v, b.readySent = some v → ∀ r < R.n,
    ⟨p, r, .ready v⟩ ∈ (V.advance e.party t out).sent) ?_ ?_
  · intro v hv r hr
    rw [mem_advance_sent]
    rcases machine_gain (roster_bound R) hact with ⟨w, rfl, rfl⟩ | ⟨ps, rfl, hgain⟩
    · exact .inl (hV _ v hv r hr)
    · rcases hgain.told v hv with hv | hv
      · exact .inl (hV _ v hv r hr)
      · exact .inr ⟨rfl, mem_toAll.2 ⟨hr, hv⟩⟩
  · intro p v hv r hr
    exact mem_advance_sent.2 (.inl (hV p v hv r hr))

/-- A delivered READY is counted. -/
theorem delivered_counted {p q : ℕ} (hp : R.Honest p)
    (h : V.Delivered R (machine R.n R.f α) schedule ⟨q, p, .ready v⟩) :
    q ∈ ((V.run R (machine R.n R.f α) schedule).state p).readySenders := by
  refine h.lasting (L := fun _ => True) (P := fun b => q ∈ b.readySenders) hp
    (fun _ => trivial) (fun _ _ _ _ _ _ => trivial) ?_ ?_ ?_
  · intro b t out _ hact
    cases hact
    exact (b.receive_gain q (.ready v) (roster_bound R)).sender q v rfl
  · intro b e _ hact
    cases hact
  · intro b e t out _ hb hact
    rcases machine_gain (roster_bound R) hact with ⟨w, rfl, -⟩ | ⟨ps, -, hgain⟩
    · exact hb
    · exact hgain.senders_kept hb

/-- What an honest party broadcasts, the schedule made it broadcast. -/
theorem run_init {d r : ℕ} (hV : ∀ d r v, ⟨d, r, .init v⟩ ∉ V.sent)
    (h : ⟨d, r, .init v⟩ ∈ (V.run R (machine R.n R.f α) schedule).sent) :
    .input d (.broadcast v) ∈ schedule := by
  refine run_invariant_of_mem (P := fun V => ∀ d r v, ⟨d, r, .init v⟩ ∈ V.sent →
    .input d (.broadcast v) ∈ schedule) (fun d r v h => absurd h (hV d r v)) schedule ?_ d r v h
  intro V e t out he hV _ hact d r v hx
  rcases mem_advance_sent.1 hx with hx | ⟨rfl, hout⟩
  · exact hV d r v hx
  · cases e with
    | deliver p q m =>
      cases hact
      exact absurd (mem_toAll.1 hout).2 ((V.state p).receive_move q m |>.no_init v)
    | input p i =>
      cases i with
      | agree w =>
        cases hact
        exact absurd (mem_toAll.1 hout).2 ((V.state p).inputRa_move w |>.no_init v)
      | broadcast w =>
        cases hact
        have hv := (mem_toAll.1 hout).2
        rw [List.mem_singleton, PhaseMessage.init.injEq] at hv
        rw [hv]
        exact he

theorem inputRa_echoSent {b : Bracha n f α} {w : α} (h : (b.inputRa v).1.echoSent = some w) :
    b.echoSent = some w ∨ w = v := by
  unfold inputRa at h
  split_ifs at h
  · exact .inr (Option.some.inj h).symm
  · exact .inl h

/-- What a party echoes in an agreement, the schedule made it input. -/
theorem run_echo {p : ℕ} (hV : ∀ p, (V.state p).dealer = none ∧ (V.state p).echoSent = none)
    (h : ((V.run R (machine R.n R.f α) schedule).state p).echoSent = some v) :
    .input p (.agree v) ∈ schedule := by
  refine (run_invariant_of_mem (P := fun V : World (Bracha R.n R.f α) (PhaseMessage α) =>
    ∀ p, (V.state p).dealer = none ∧
      ∀ v, (V.state p).echoSent = some v → .input p (.agree v) ∈ schedule) ?_ schedule ?_ p).2 v h
  · exact fun p => ⟨(hV p).1, fun v hv => by simp [(hV p).2] at hv⟩
  · intro V e t out he hV _ hact
    refine V.forall_advance (P := fun p b => b.dealer = none ∧
      ∀ v, b.echoSent = some v → .input p (.agree v) ∈ schedule) ?_ hV
    obtain ⟨hdealer, hecho⟩ := hV e.party
    cases e with
    | deliver p q m =>
      cases hact
      have hmove := (V.state p).receive_move q m
      refine ⟨hmove.dealer.trans hdealer, fun v hv => ?_⟩
      rcases hmove.echo_from v hv with hv | ⟨-, hgot⟩ | ⟨d, hd, -⟩
      · exact hecho v hv
      · cases hgot
      · exact absurd (hdealer.symm.trans hd) (by simp)
    | input p i =>
      cases i with
      | agree w =>
        cases hact
        refine ⟨((V.state p).inputRa_move w).dealer.trans hdealer, fun v hv => ?_⟩
        rcases inputRa_echoSent hv with hv | rfl
        · exact hecho v hv
        · exact he
      | broadcast w =>
        cases hact
        exact ⟨hdealer, hecho⟩

/-- Two READYs of honest parties are for the same value: the ECHO quorums behind them
share an honest party, which echoed once. -/
theorem Backed.ready_agreement (hV : Backed V) {p q : ℕ} {w : α}
    (hv : (V.state p).readySent = some v) (hw : (V.state q).readySent = some w) : v = w := by
  obtain ⟨Q, hQ, hback⟩ := hV.ready p v hv
  obtain ⟨Q', hQ', hback'⟩ := hV.ready q w hw
  obtain ⟨r, hr, hr', hhonest⟩ := hQ.inter hQ'
  exact Option.some.inj ((hback r hr hhonest).symm.trans (hback' r hr' hhonest))

section Quiet
variable (hV : Backed V) (hsteady : ∀ p, (V.state p).Steady)
  (hheard : ∀ p q v, R.Honest p → R.Honest q → (V.state q).readySent = some v →
    q ∈ (V.state p).readySenders)
include hV hsteady hheard

variable {p q : ℕ}

/-- Once the honest READYs are delivered, each of them is counted for its value. -/
theorem honest_ready_counted (hp : R.Honest p) (hq : R.Honest q)
    (hv : (V.state q).readySent = some v) : q ∈ votersOf (V.state p).readies v := by
  obtain ⟨w, hw⟩ := (hsteady p).counted q (hheard p q v hp hq hv)
  have hready := hV.readies p q w hq hw
  rw [hv, Option.some.injEq] at hready
  rwa [hready]

variable (hv : (V.state p).output = some v)
include hv

/-- An honest output makes every honest party send its READY. -/
theorem all_ready (hq : R.Honest q) :
    (V.state q).readySent = some v := by
  obtain ⟨Q, hQ, hback⟩ := hV.output p v hv
  have hsub : Q \ R.faulty ⊆ votersOf (V.state q).readies v := by
    intro r hr
    obtain ⟨hmem, hout⟩ := mem_sdiff.1 hr
    have hr : R.Honest r := ⟨mem_range.1 (hQ.subset hmem), hout⟩
    exact honest_ready_counted hV hsteady hheard hq hr (hback r hmem hr)
  have hmany : R.f < (votersOf (V.state q).readies v).card :=
    lt_of_lt_of_le hQ.honest_card (card_le_card hsub)
  cases hready : (V.state q).readySent with
  | none => exact absurd ((hsteady q).ready_due hready v) (Nat.not_le.2 hmany)
  | some w =>
    obtain ⟨r, hr, hhonest⟩ := hQ.exists_honest
    rw [hV.ready_agreement hready (hback r hr hhonest)]

/-- An honest output makes every honest party output. -/
theorem all_output (hq : R.Honest q) :
    (V.state q).output = some v := by
  have hsub : Finset.range R.n \ R.faulty ⊆ votersOf (V.state q).readies v := by
    intro r hr
    obtain ⟨hmem, hout⟩ := mem_sdiff.1 hr
    have hr : R.Honest r := ⟨mem_range.1 hmem, hout⟩
    exact honest_ready_counted hV hsteady hheard hq hr (all_ready hV hsteady hheard hv hr)
  have hmany : R.n - R.f ≤ (votersOf (V.state q).readies v).card := by
    have hle := le_card_sdiff R.faulty (Finset.range R.n)
    have hcard := card_le_card hsub
    have hfaulty := R.faulty_card
    rw [card_range] at hle
    omega
  cases hout : (V.state q).output with
  | none => exact absurd ((hsteady q).output_due hout v) (Nat.not_lt.2 hmany)
  | some w => rw [hV.agreement hout hv]

end Quiet

/-- Reliable broadcast (with a dealer) and reliable agreement (without one), along every
schedule: honest outputs agree; they are what an honest dealer broadcast, or what some
honest party input; and once everything between honest parties is delivered, all of them
have output the value or none has output. -/
theorem agreement_validity_totality (R : Roster) (dealer : Option ℕ)
    (schedule : List (Event (Input α) (PhaseMessage α))) :
    let start : World (Bracha R.n R.f α) (PhaseMessage α) := .start fun _ => new R.n R.f dealer
    let V := start.run R (machine R.n R.f α) schedule
    (∀ p q v w, R.Honest p → R.Honest q → (V.state p).output = some v →
        (V.state q).output = some w → v = w) ∧
      (∀ d p v, dealer = some d → R.Honest d → R.Honest p → (V.state p).output = some v →
        .input d (.broadcast v) ∈ schedule) ∧
      (dealer = none → ∀ p v, R.Honest p → (V.state p).output = some v →
        ∃ q, R.Honest q ∧ .input q (.agree v) ∈ schedule) ∧
      (start.Quiet R (machine R.n R.f α) schedule →
        (∀ p, R.Honest p → (V.state p).output = none) ∨
          ∃ v, ∀ p, R.Honest p → (V.state p).output = some v) := by
  intro start V
  have hV : Backed V := (backed_start fun _ => dealer).run schedule
  refine ⟨?_, ?_, ?_, ?_⟩
  · exact fun p q v w _ _ hv hw => hV.agreement hv hw
  · intro d p v hdealer hd hp hv
    have hall : ∀ q, (V.state q).dealer = some d := fun q =>
      (run_dealer start q schedule).trans hdealer
    obtain ⟨q, hq⟩ := hV.output_init hd hall hv
    exact run_init (fun _ _ _ => List.not_mem_nil) hq
  · intro hdealer p v hp hv
    obtain ⟨Q, hQ, hback⟩ := hV.output_echoed hv
    obtain ⟨q, hq, hhonest⟩ := hQ.exists_honest
    exact ⟨q, hhonest, run_echo (fun _ => ⟨hdealer, rfl⟩) (hback q hq hhonest)⟩
  · intro hquiet
    have hsteady : ∀ p, (V.state p).Steady :=
      run_steady fun _ => steady_new (roster_bound R) dealer
    have hheard : ∀ p q v, R.Honest p → R.Honest q → (V.state q).readySent = some v →
        q ∈ (V.state p).readySenders := by
      intro p q v hp hq hv
      have hsent := run_told (V := start) (fun _ _ h => by cases h) q v hv p hp.1
      exact delivered_counted hp (hquiet _ hsent hq hp)
    by_cases hnone : ∀ p, R.Honest p → (V.state p).output = none
    · exact .inl hnone
    · push Not at hnone
      obtain ⟨p, -, hout⟩ := hnone
      obtain ⟨v, hv⟩ := Option.ne_none_iff_exists'.1 hout
      exact .inr ⟨v, fun q hq => all_output hV hsteady hheard hv hq⟩

end Network

end MiniDregg.PrivateBackend.Bracha
