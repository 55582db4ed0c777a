import MiniDregg.Network.Delivery
import MiniDregg.PrivateBackend.CoverGather

/-!
# What gatherings are bound to

Two facts about every run with at most `f` faulty parties among `3 f + 1`. All
outputs of a gathering share one set of a quorum of indexes, fixed by the first
honest PREPARE. All outputs under a cover stay within the indexes that honest
parties had validated when the first of them was made.

## Implementation notes

The second fact is about two moments of one run. At the earlier one a quorum has
withdrawn; at the later one a quorum has echoed the agreement on each index that
is output. The two quorums share an honest party, and after its withdrawal it
echoes nothing new.
-/

namespace MiniDregg.PrivateBackend

open Network Store Fallible CoverGather Finset World

namespace Gather

variable {n f : ℕ}

/-- A gathering is a part of itself. -/
def self (n f : ℕ) : Embedding (machine n f) (machine n f) where
  Local _ := True
  view g := g
  unwrap m := some m
  course g e t out _ hact := by
    refine ⟨trivial, out, ?_, fun r m => by simp⟩
    cases e with
    | input p i => exact .single_input hact
    | deliver p q m => exact .single_receive rfl hact

end Gather

namespace CoverGather

variable {n f : ℕ} {e : Event ℕ Message} {out : List (ℕ × Message)} {c t u : CoverGather n f}

/-- Every operation of the machine is a move. -/
theorem handle_move (h : (machine n f).handle c e = .ok (t, out)) :
    Move (e.carried some) c t out := by
  cases e with
  | input p i => exact validate_move h
  | deliver p q m => exact receive_move h

theorem carried_part {μ : Type} (part : Message → Option μ) (e : Event ℕ Message) :
    ((e.carried some).bind fun x => (part x.2).map fun y => (x.1, y)) = e.carried part := by
  cases e <;> rfl

/-- The gathering of the cover. -/
def gatherEmbedding (n f : ℕ) : Embedding (machine n f) (Gather.machine n f) where
  Local _ := True
  view := gather
  unwrap := gatherPart
  course c e t out _ hact := by
    refine ⟨trivial, ?_⟩
    rw [← carried_part]
    exact (handle_move hact).gather

/-- The agreement on one index. -/
def raEmbedding (n f k : ℕ) : Embedding (machine n f) (Bracha.machine n f (List UInt8)) where
  Local _ := True
  view c := c.ra k
  unwrap := raPart k
  course c e t out _ hact := by
    refine ⟨trivial, ?_⟩
    rw [← carried_part]
    exact (handle_move hact).ra k

section Parties

/-- What a party's own record says about itself. -/
structure Kept (c : CoverGather n f) : Prop where
  dealer : ∀ k, (c.ra k).dealer = none
  echo : ∀ k v, (c.ra k).echoSent = some v → k ∈ c.validated
  valid : ∀ k ∈ c.gather.valid, (c.ra k).output = some [1]
  output : ∀ o, c.output = some o → n - f ≤ c.withdrawals.card ∧ c.gather.output = some o

theorem kept_fresh (me : ℕ) (context : List UInt8) : Kept (fresh n f me context) := by
  constructor <;> simp [fresh, Bracha.new, Gather.fresh]

variable {got : Option (ℕ × Message)}

theorem Kept.move (hc : Kept c) (h : Move got c t out) : Kept t where
  dealer k := (h.dealer k).trans (hc.dealer k)
  echo k v hv :=
    (h.echo_from k v (hc.dealer k) hv).elim (fun hv => h.validated_kept (hc.echo k v hv)) And.right
  valid k hk :=
    (h.valid_from k hk).elim (fun hk => h.ra_output_kept k _ (hc.valid k hk)) id
  output o ho := by
    rcases h.output_from o ho with ho | ho
    · obtain ⟨hcard, hgather⟩ := hc.output o ho
      exact ⟨hcard.trans (card_le_card h.withdrawals_kept), h.gather_output_kept o hgather⟩
    · exact ho

/-- What holds of a party at a later moment: its output stays, and once it has withdrawn
it echoes no further agreement. -/
structure Later (c t : CoverGather n f) : Prop where
  output : ∀ o, c.output = some o → t.output = some o
  withdrawn : c.withdrawn = true → t.withdrawn = true
  echo : c.withdrawn = true → ∀ k v, (t.ra k).echoSent = some v → (c.ra k).echoSent = some v

theorem Later.refl (c : CoverGather n f) : Later c c := ⟨fun _ h => h, id, fun _ _ _ h => h⟩

theorem Later.trans (h : Later c t) (h' : Later t u) : Later c u where
  output o ho := h'.output o (h.output o ho)
  withdrawn hc := h'.withdrawn (h.withdrawn hc)
  echo hc k v hv := h.echo hc k v (h'.echo (h.withdrawn hc) k v hv)

theorem Later.move (hc : Kept c) (h : Move got c t out) : Later c t where
  output := h.output_kept
  withdrawn := h.withdrawn_kept
  echo hwithdrawn k v hv := by
    refine (h.echo_from k v (hc.dealer k) hv).resolve_right fun hnot => ?_
    rw [hwithdrawn] at hnot
    cases hnot.1

end Parties

section Network
variable {R : Roster} {W : World (CoverGather R.n R.f) Message}

/-- Withdrawals are counted once they were made. -/
structure Withdrawn (W : World (CoverGather R.n R.f) Message) : Prop where
  sent : ∀ p r x, R.Honest p → ⟨p, r, ⟨x, .withdraw⟩⟩ ∈ W.sent → (W.state p).withdrawn = true
  range : ∀ p, (W.state p).withdrawals ⊆ Finset.range R.n
  counted : ∀ p q, R.Honest q → q ∈ (W.state p).withdrawals → (W.state q).withdrawn = true
  sender : ∀ x ∈ W.sent, R.Honest x.sender

section
variable (context : List UInt8)

theorem withdrawn_start :
    Withdrawn (R := R) (.start fun p => fresh R.n R.f p context) := by
  constructor <;> simp [World.start, fresh]

theorem Withdrawn.advance (hW : Withdrawn W) (hpos : e.Possible R W) {t : CoverGather R.n R.f}
    (hact : (machine R.n R.f).handle (W.state e.party) e = .ok (t, out)) :
    Withdrawn (W.advance e.party t out) := by
  have hmove := handle_move hact
  have hgot : ∀ q x, e.carried some = some (q, (⟨x, .withdraw⟩ : Message)) →
      q < R.n ∧ (R.Honest q → (W.state q).withdrawn = true) := by
    intro q x hq
    cases e with
    | input p i => cases hq
    | deliver p q' m =>
      cases hq
      rcases hpos.2 with hfaulty | hsent
      · exact ⟨mem_range.1 (R.faulty_subset hfaulty), fun h => absurd hfaulty h.2⟩
      · exact ⟨(hW.sender _ hsent).1, fun h => hW.sent q p x h hsent⟩
  constructor
  case sent =>
    intro p r x hp hx
    rcases World.mem_advance_sent.1 hx with hlast | ⟨rfl, hnow⟩
    · exact World.advance_kept hmove.withdrawn_kept (hW.sent p r x hp hlast)
    · rw [World.advance_state_self]
      exact hmove.withdraw_out r x hnow
  case range =>
    refine W.forall_advance (P := fun _ c => c.withdrawals ⊆ Finset.range R.n) ?_ hW.range
    intro q hq
    rcases hmove.withdrawals_from q hq with hq | ⟨x, hx⟩
    · exact hW.range _ hq
    · exact mem_range.2 (hgot q x hx).1
  case counted =>
    intro p q hq hmem
    apply World.advance_kept hmove.withdrawn_kept
    obtain rfl | hne := eq_or_ne p e.party
    · rw [World.advance_state_self] at hmem
      rcases hmove.withdrawals_from q hmem with hmem | ⟨x, hx⟩
      · exact hW.counted _ q hq hmem
      · exact (hgot q x hx).2 hq
    · exact hW.counted p q hq (World.advance_state_ne hne ▸ hmem)
  case sender =>
    intro x hx
    rcases World.mem_advance_sent.1 hx with hlast | ⟨hsender, -⟩
    · exact hW.sender x hlast
    · exact hsender ▸ hpos.honest

variable (schedule : List (Event ℕ Message))

theorem withdrawn_run :
    Withdrawn ((World.start fun p => fresh R.n R.f p context).run R (machine R.n R.f) schedule) :=
  World.run_invariant (withdrawn_start context)
    (fun _ _ _ _ hW hpos hact => hW.advance hpos hact) schedule

theorem kept_run (p : ℕ) :
    Kept (((World.start fun p => fresh R.n R.f p context).run R (machine R.n R.f)
      schedule).state p) :=
  World.run_local (fun p => kept_fresh p context)
    (fun _ _ _ _ hs hact => hs.move (handle_move hact)) schedule p

end

theorem later_run (hW : ∀ p, Kept (W.state p)) (schedule : List (Event ℕ Message)) (p : ℕ) :
    Later (W.state p) ((W.run R (machine R.n R.f) schedule).state p) :=
  World.run_related (L := Kept) (r := Later) .refl (fun _ _ _ => .trans) hW
    (fun _ _ _ _ hs hact => ⟨hs.move (handle_move hact), .move hs (handle_move hact)⟩) schedule p

end Network

end CoverGather

/-- The facts about schedules at the moments of an endless one. -/
theorem CoverGather.after_of_le {R : Roster} (context : List UInt8)
    (schedule : ℕ → Event ℕ CoverGather.Message) {t t' : ℕ} (h : t ≤ t') (p : ℕ) :
    Later ((after R context schedule t).state p) ((after R context schedule t').state p) := by
  obtain ⟨between, hbetween⟩ := World.after_of_le (R := R) (M := machine R.n R.f)
    (.start fun p => fresh R.n R.f p context) schedule h
  rw [after, after, hbetween]
  exact later_run (kept_run context _) between p

/-- All outputs of honest parties contain one set of a quorum of indexes, and none changes
once it is set, whether the indexes are gathered alone or under a cover. -/
theorem gather_binding_core (R : Roster) :
    (∀ schedule : ℕ → Event ℕ IgBody, ∃ S : Finset ℕ, R.n - R.f ≤ S.card ∧
      ∀ t p o, R.Honest p → ((Gather.after R schedule t).state p).output = some o →
        S ⊆ o ∧ ∀ t' ≥ t, ((Gather.after R schedule t').state p).output = some o) ∧
    ∀ (context : List UInt8) (schedule : ℕ → Event ℕ CoverGather.Message),
      ∃ S : Finset ℕ, R.n - R.f ≤ S.card ∧
        ∀ t p o, R.Honest p → ((after R context schedule t).state p).output = some o →
          S ⊆ o ∧ ∀ t' ≥ t, ((after R context schedule t').state p).output = some o := by
  refine ⟨fun schedule => ?_, fun context schedule => ?_⟩
  · obtain ⟨S, hcard, hS⟩ := Gather.exists_core_of_part (Gather.self R.n R.f)
      (Gather.fresh R.n R.f) (fun _ => trivial) (fun p => ⟨p, rfl⟩) schedule
    refine ⟨S, hcard, fun t p o _ ho => ⟨hS t p o ho, fun t' htt' => ?_⟩⟩
    exact Gather.part_output_kept (Gather.self R.n R.f) _ (fun _ => trivial) (fun p => ⟨p, rfl⟩)
      schedule htt' ho
  · obtain ⟨S, hcard, hS⟩ := Gather.exists_core_of_part (gatherEmbedding R.n R.f)
      (fun p => fresh R.n R.f p context) (fun _ => trivial)
      (fun p => ⟨p, rfl⟩) schedule
    refine ⟨S, hcard, fun t p o _ ho => ⟨?_, fun t' htt' => ?_⟩⟩
    · exact hS t p o ((kept_run context _ p).output o ho).2
    · exact (after_of_le context schedule htt' p).output o ho

/-- Every output of an honest party under a cover is within the indexes that honest parties
had validated at any moment at which one of them had output, in particular at the first. -/
theorem cover_binding (R : Roster) (context : List UInt8)
    (schedule : ℕ → Event ℕ CoverGather.Message) (t₀ p₀ : ℕ) (o₀ : Finset ℕ) (_ : R.Honest p₀)
    (ho₀ : ((after R context schedule t₀).state p₀).output = some o₀) :
    ∀ t ≥ t₀, ∀ p o, R.Honest p →
      ((after R context schedule t).state p).output = some o →
      ∀ k ∈ o, ∃ q, R.Honest q ∧
        k ∈ ((after R context schedule t₀).state q).validated := by
  intro t htt p o _ ho k hk
  -- A quorum has withdrawn at the earlier moment.
  have hquorum := ((kept_run context _ p₀).output o₀ ho₀).1
  have hwithdrawn := withdrawn_run (R := R) context ((List.range t₀).map schedule)
  -- A quorum has echoed the agreement on the index at the later one.
  obtain ⟨V, hshowsV, hV⟩ := Gather.exists_part (gatherEmbedding R.n R.f)
    (fun p => fresh R.n R.f p context) (fun _ => trivial)
    (fun p => ⟨p, rfl⟩) schedule t
  have hkept := kept_run (R := R) context ((List.range t).map schedule) p
  have hvalid : k ∈ (V.state p).valid := by
    have hout : (V.state p).output = some o := by
      rw [hshowsV.state]
      exact (hkept.output o ho).2
    exact ((hV.backed.kept p).output o hout).1 hk
  rw [hshowsV.state] at hvalid
  obtain ⟨B, hshowsB, hB, -⟩ := Bracha.backed_part (raEmbedding R.n R.f k)
    (fun p => fresh R.n R.f p context) (fun _ => trivial)
    (fun _ => rfl) ((List.range t).map schedule)
  have hagreed : (B.state p).output = some [1] := by
    rw [hshowsB.state]
    exact hkept.valid k hvalid
  obtain ⟨Q, hQ, hecho⟩ := hB.output_echoed hagreed
  -- Their common honest party echoed before it withdrew.
  obtain ⟨q, hqw, hqQ, hq⟩ := Roster.Quorum.inter ⟨hwithdrawn.range p₀, hquorum⟩ hQ
  have hlate := hecho q hqQ hq
  rw [hshowsB.state] at hlate
  refine ⟨q, hq, (kept_run context _ q).echo k [1] ?_⟩
  exact (after_of_le context schedule htt q).echo
    (hwithdrawn.counted p₀ q hq hqw) k [1] hlate

section Sample

/-- Three parties validate three indexes each. -/
def fourInputs : List (Event ℕ CoverGather.Message) :=
  (List.range 3).flatMap fun p => (List.range 3).map (.input p)

/-- Four parties when everything they send has arrived. -/
def fourRun : World (CoverGather fourParties.n fourParties.f) CoverGather.Message :=
  ((start fun p => fresh fourParties.n fourParties.f p [7]).run fourParties
    (machine fourParties.n fourParties.f) fourInputs).flood fourParties
      (machine fourParties.n fourParties.f) 117 0

set_option maxRecDepth 20000 in
theorem fourRun_output : (fourRun.state 1).output = some {0, 1, 2} := by
  decide +kernel

theorem exists_fourRun : ∃ schedule t, after fourParties [7] schedule t = fourRun := by
  obtain ⟨later, hrun, -⟩ := exists_flood (R := fourParties)
    (M := machine fourParties.n fourParties.f)
    (W := .start fun p => fresh fourParties.n fourParties.f p [7]) 117 (k := 0) fourInputs
    (by simp)
  exact ⟨_, _, (after_getD _ (.input 0 0)).trans hrun⟩

/-- The output of a party contains a core of three indexes. -/
theorem gather_binding_core_four : ∃ schedule t, ∃ S : Finset ℕ, 3 ≤ S.card ∧ S ⊆ {0, 1, 2} ∧
    ∀ t' ≥ t, ((after fourParties [7] schedule t').state 1).output = some {0, 1, 2} := by
  obtain ⟨schedule, t, hrun⟩ := exists_fourRun
  obtain ⟨S, hcard, hS⟩ := (gather_binding_core fourParties).2 [7] schedule
  obtain ⟨hsub, hkept⟩ := hS t 1 {0, 1, 2} (by decide) (hrun ▸ fourRun_output)
  exact ⟨schedule, t, S, hcard, hsub, hkept⟩

/-- Whatever the party outputs, honest parties had validated when it first had output. -/
theorem cover_binding_four : ∃ schedule t,
    ((after fourParties [7] schedule t).state 1).output = some {0, 1, 2} ∧
      ∀ k ∈ ({0, 1, 2} : Finset ℕ), ∃ q, fourParties.Honest q ∧
        k ∈ ((after fourParties [7] schedule t).state q).validated := by
  obtain ⟨schedule, t, hrun⟩ := exists_fourRun
  have hout : ((after fourParties [7] schedule t).state 1).output = some {0, 1, 2} :=
    hrun ▸ fourRun_output
  exact ⟨schedule, t, hout, cover_binding fourParties [7] schedule t 1 _ (by decide) hout t le_rfl
    1 _ (by decide) hout⟩

end Sample

end MiniDregg.PrivateBackend
