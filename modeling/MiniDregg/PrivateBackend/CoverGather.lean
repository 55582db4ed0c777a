import MiniDregg.PrivateBackend.Gather

/-!
# Gathering under a cover

Each index has a reliable agreement in which a party takes part once it has
validated the index. The indexes the agreements output are gathered. A party
that has a quorum of them withdraws, and takes part in no further agreement;
it outputs what it has gathered after a quorum of parties has withdrawn.

## Implementation notes

The vector of agreements is a function of the index; the source checks every
index against `n` before it looks one up. `Move` states what one operation can
do; the agreements and the gathering are parts whose own moves it names.
-/

namespace MiniDregg.PrivateBackend

open Network Store Fallible List Function Gather Bracha

namespace CoverGather

/-- What a message of the cover is about. -/
inductive Body where
  | gather (b : IgBody)
  | ra (index : ℕ) (p : PhaseMessage (List UInt8))
  | withdraw
deriving DecidableEq

structure Message where
  context : List UInt8
  body : Body
deriving DecidableEq

end CoverGather

/-- One party's record of one gathering under a cover. -/
structure CoverGather (n f : ℕ) where
  me : ℕ
  context : List UInt8
  validated : Finset ℕ
  ra : ℕ → Bracha n f (List UInt8)
  gather : Gather n f
  igValid : Finset ℕ
  withdrawn : Bool
  withdrawals : Finset ℕ
  output : Option (Finset ℕ)

namespace CoverGather

variable {n f : ℕ}

/-- A party that has validated and heard nothing. -/
def fresh (n f me : ℕ) (context : List UInt8) : CoverGather n f :=
  ⟨me, context, ∅, fun _ => .new n f none, .fresh n f me, ∅, false, ∅, none⟩

def new (n f me : ℕ) (context : List UInt8) : Result (CoverGather n f) := do
  let gather ← Gather.new n f me
  return { fresh n f me context with gather := gather }

section
variable (c : CoverGather n f)

def all (bodies : List Body) : List (ℕ × Message) :=
  toAll n (bodies.map (Message.mk c.context))

def gatherPackets (out : List (ℕ × IgBody)) : List (ℕ × Message) :=
  out.map fun x => (x.1, ⟨c.context, .gather x.2⟩)

/-- An index that its agreement has output is handed to the gathering once. -/
def gatherIndex (index : ℕ) :
    Result (CoverGather n f × List (ℕ × Message)) :=
  if (c.ra index).output = some [1] ∧ index ∉ c.igValid then do
    let (gather, produced) ← c.gather.validate index
    return ({ c with igValid := insert index c.igValid, gather := gather },
      c.gatherPackets produced)
  else return (c, [])

def withdraw : CoverGather n f × List (ℕ × Message) :=
  if n - f ≤ c.igValid.card && !c.withdrawn then
    ({ c with withdrawn := true }, c.all [.withdraw])
  else (c, [])

def decideOutput : CoverGather n f :=
  if c.output.isNone && n - f ≤ c.withdrawals.card then { c with output := c.gather.output } else c

def progress : Result (CoverGather n f × List (ℕ × Message)) := do
  let (c, out) ← collect gatherIndex c (List.range n)
  return (c.withdraw.1.decideOutput, out ++ c.withdraw.2)

/-- The party's own input to the agreement on an index. -/
def agree (index : ℕ) : CoverGather n f × List (ℕ × Message) :=
  let input := (c.ra index).inputRa [1]
  ({ c with ra := update c.ra index input.1 }, c.all (input.2.map (.ra index)))

/-- An index is validated locally. -/
def validate (index : ℕ) :
    Result (CoverGather n f × List (ℕ × Message)) := do
  refuseIf (index ≥ n) "cover validation index"
  let validated := { c with validated := insert index c.validated }
  let agreed :=
    if index ∉ c.validated ∧ c.withdrawn = false then validated.agree index else (validated, [])
  let (t, out) ← agreed.1.progress
  return (t, agreed.2 ++ out)

/-- Agreements are on one value, and have no dealer. -/
def checkRa (index : ℕ) (p : PhaseMessage (List UInt8)) : Result Unit := do
  refuseIf (index ≥ n) "cover RA index"
  refuseIf (p.payload ≠ [1] || p matches .init _) "cover RA domain"

/-- A message is handed to the part it is for. READYs are relayed after a withdrawal too. -/
def hear (sender : ℕ) :
    Body → Result (CoverGather n f × List (ℕ × Message))
  | .gather b => do
    let (gather, produced) ← c.gather.receive sender b
    return ({ c with gather := gather }, c.gatherPackets produced)
  | .ra index p => do
    checkRa (n := n) index p
    let heard := (c.ra index).receive sender p
    return ({ c with ra := update c.ra index heard.1 },
      c.all (heard.2.map (.ra index)))
  | .withdraw => return ({ c with withdrawals := insert sender c.withdrawals }, [])

def receive (sender : ℕ) (message : Message) :
    Result (CoverGather n f × List (ℕ × Message)) := do
  refuseIf (sender ≥ n || message.context ≠ c.context) "cover sender/context"
  let (heard, out) ← c.hear sender message.body
  let (t, out') ← heard.progress
  return (t, out ++ out')

end

/-- The cover as a protocol of its own. Its inputs are local validations. -/
def machine (n f : ℕ) : Machine ℕ (CoverGather n f) Message where
  input := validate
  receive := receive

/-- The parties after the first `t` events of a schedule. -/
def after (R : Roster) (context : List UInt8) (schedule : ℕ → Event ℕ Message) (t : ℕ) :
    World (CoverGather R.n R.f) Message :=
  World.after R (machine R.n R.f) (.start fun p => fresh R.n R.f p context) schedule t

/-- What a message says to the agreement on an index. -/
def raPart (k : ℕ) (m : Message) : Option (PhaseMessage (List UInt8)) :=
  match m.body with
  | .ra index p => if index = k then some p else none
  | _ => none

/-- What a message says to the gathering. -/
def gatherPart (m : Message) : Option IgBody :=
  match m.body with
  | .gather b => some b
  | _ => none

section Moves

/-- What one operation can do to a party. `got` is the message that arrived, if any. -/
structure Move (got : Option (ℕ × Message)) (c t : CoverGather n f)
    (out : List (ℕ × Message)) : Prop where
  validated_kept : c.validated ⊆ t.validated
  withdrawn_kept : c.withdrawn = true → t.withdrawn = true
  withdrawals_kept : c.withdrawals ⊆ t.withdrawals
  output_kept : ∀ o, c.output = some o → t.output = some o
  gather_output_kept : ∀ o, c.gather.output = some o → t.gather.output = some o
  ra_output_kept : ∀ k v, (c.ra k).output = some v → (t.ra k).output = some v
  ra : ∀ k, (Bracha.machine n f (List UInt8)).Does (raPart k)
    (got.bind fun x => (raPart k x.2).map fun p => (x.1, p)) (c.ra k) (t.ra k) out
  gather : (Gather.machine n f).Does gatherPart
    (got.bind fun x => (gatherPart x.2).map fun b => (x.1, b)) c.gather t.gather out
  dealer : ∀ k, (t.ra k).dealer = (c.ra k).dealer
  echo_from : ∀ k v, (c.ra k).dealer = none → (t.ra k).echoSent = some v →
    (c.ra k).echoSent = some v ∨ c.withdrawn = false ∧ k ∈ t.validated
  withdraw_out : ∀ r x, (r, ⟨x, .withdraw⟩) ∈ out → t.withdrawn = true
  withdrawals_from : ∀ q ∈ t.withdrawals, q ∈ c.withdrawals ∨ ∃ x, got = some (q, ⟨x, .withdraw⟩)
  valid_from : ∀ k ∈ t.gather.valid, k ∈ c.gather.valid ∨ (t.ra k).output = some [1]
  output_from : ∀ o, t.output = some o → c.output = some o ∨
    n - f ≤ t.withdrawals.card ∧ t.gather.output = some o

variable {got : Option (ℕ × Message)} {c t u : CoverGather n f} {out later : List (ℕ × Message)}

namespace Move

theorem refl (got : Option (ℕ × Message)) (c : CoverGather n f) : Move got c c [] where
  validated_kept := subset_rfl
  withdrawn_kept h := h
  withdrawals_kept := subset_rfl
  output_kept _ h := h
  gather_output_kept _ h := h
  ra_output_kept _ _ h := h
  ra _ := .rest nofun
  gather := .rest nofun
  dealer _ := rfl
  echo_from _ _ _ := .inl
  withdraw_out _ _ h := absurd h not_mem_nil
  withdrawals_from _ := .inl
  valid_from _ := .inl
  output_from _ := .inl

/-- The parts of an operation follow one another. -/
theorem append (h : Move got c t out) (h' : Move got t u later) :
    Move got c u (out ++ later) where
  validated_kept := h.validated_kept.trans h'.validated_kept
  withdrawn_kept hc := h'.withdrawn_kept (h.withdrawn_kept hc)
  withdrawals_kept := h.withdrawals_kept.trans h'.withdrawals_kept
  output_kept o ho := h'.output_kept o (h.output_kept o ho)
  gather_output_kept o ho := h'.gather_output_kept o (h.gather_output_kept o ho)
  ra_output_kept k v hv := h'.ra_output_kept k v (h.ra_output_kept k v hv)
  ra k := (h.ra k).append (h'.ra k)
  gather := h.gather.append h'.gather
  dealer k := (h'.dealer k).trans (h.dealer k)
  echo_from k v hdealer hv := by
    rcases h'.echo_from k v ((h.dealer k).trans hdealer) hv with hv | ⟨hnot, hk⟩
    · exact (h.echo_from k v hdealer hv).imp_right fun ⟨hnot, hk⟩ =>
        ⟨hnot, h'.validated_kept hk⟩
    · refine .inr ⟨?_, hk⟩
      by_contra hc
      rw [Bool.not_eq_false] at hc
      rw [h.withdrawn_kept hc] at hnot
      cases hnot
  withdraw_out r x hx := by
    rcases mem_append.1 hx with hx | hx
    · exact h'.withdrawn_kept (h.withdraw_out r x hx)
    · exact h'.withdraw_out r x hx
  withdrawals_from q hq :=
    (h'.withdrawals_from q hq).elim (h.withdrawals_from q) .inr
  valid_from k hk :=
    (h'.valid_from k hk).elim
      (fun hk => (h.valid_from k hk).imp_right (h'.ra_output_kept k _)) .inr
  output_from o ho := by
    rcases h'.output_from o ho with ho | ho
    · refine (h.output_from o ho).imp_right fun ⟨hcard, hgather⟩ => ⟨?_, ?_⟩
      · exact hcard.trans (Finset.card_le_card h'.withdrawals_kept)
      · exact h'.gather_output_kept o hgather
    · exact .inr ho

end Move

variable {os : List (ℕ × IgBody)} {m : Message} {index : ℕ}

theorem gatherPackets_forwards (r : ℕ) (b : IgBody) :
    (r, b) ∈ os ↔ ∃ m, (r, m) ∈ c.gatherPackets os ∧ gatherPart m = some b := by
  simp only [gatherPackets, mem_map, Prod.mk.injEq]
  constructor
  · exact fun h => ⟨_, ⟨(r, b), h, rfl, rfl⟩, rfl⟩
  · rintro ⟨m, ⟨⟨r', b'⟩, h, rfl, rfl⟩, hb⟩
    cases hb
    exact h

variable {r k q : ℕ}

theorem mem_gatherPackets (h : (r, m) ∈ c.gatherPackets os) : ∃ b, m.body = .gather b := by
  obtain ⟨⟨r', b⟩, -, heq⟩ := mem_map.1 h
  cases heq
  exact ⟨b, rfl⟩

theorem mem_all {bodies : List Body} (h : (r, m) ∈ c.all bodies) : m.body ∈ bodies := by
  obtain ⟨-, h⟩ := mem_toAll.1 h
  obtain ⟨b, hb, rfl⟩ := mem_map.1 h
  exact hb

/-- A move of the gathering, whose messages go out wrapped. -/
theorem Move.ofGather {g : Gather n f} {gotGather : Option (ℕ × IgBody)}
    (hgather : (Gather.machine n f).Does gatherPart
      (got.bind fun x => (gatherPart x.2).map fun b => (x.1, b)) c.gather g (c.gatherPackets os))
    (hmove : Gather.Move gotGather c.gather g os) (igValid : Finset ℕ)
    (hvalid : ∀ k ∈ g.valid, k ∈ c.gather.valid ∨ (c.ra k).output = some [1]) :
    Move got c { c with igValid := igValid, gather := g } (c.gatherPackets os) :=
  { Move.refl got c with
    gather_output_kept := hmove.output_kept
    ra := fun k => .rest fun r m hm => by
      obtain ⟨b, hb⟩ := mem_gatherPackets hm
      simp [raPart, hb]
    gather := hgather
    withdraw_out := fun r x hx => by
      obtain ⟨b, hb⟩ := mem_gatherPackets hx
      cases hb
    valid_from := hvalid
    output_from := fun o ho => .inl ho }

theorem gatherIndex_move (h : c.gatherIndex index = .ok (t, out)) : Move got c t out := by
  unfold gatherIndex at h
  split_ifs at h with hnow
  · obtain ⟨⟨g, os⟩, hvalidate, h⟩ := bind_eq_ok.1 h
    cases h
    refine .ofGather ⟨os, .single_input hvalidate, gatherPackets_forwards⟩
      (validate_move hvalidate) _ fun k hk => ?_
    rw [validate_valid hvalidate, Finset.mem_insert] at hk
    rcases hk with rfl | hk
    · exact .inr hnow.1
    · exact .inl hk
  · cases h
    exact .refl got c

theorem withdraw_move (c : CoverGather n f) : Move got c c.withdraw.1 c.withdraw.2 := by
  unfold withdraw
  split_ifs
  · exact { Move.refl got c with
      withdrawn_kept := fun _ => rfl
      ra := fun k => .rest fun r m hm => by
        simp [raPart, mem_singleton.1 (mem_all hm)]
      gather := .rest fun r m hm => by
        simp [gatherPart, mem_singleton.1 (mem_all hm)]
      withdraw_out := fun _ _ _ => rfl
      echo_from := fun _ _ _ => .inl }
  · exact .refl got c

theorem decideOutput_move (c : CoverGather n f) : Move got c c.decideOutput [] := by
  unfold decideOutput
  split_ifs with hnow
  · rw [Bool.and_eq_true, Option.isNone_iff_eq_none, decide_eq_true_eq] at hnow
    exact { Move.refl got c with
      output_kept := fun o ho => by simp [hnow.1] at ho
      output_from := fun o ho => .inr ⟨hnow.2, ho⟩ }
  · exact .refl got c

theorem progress_move (h : c.progress = .ok (t, out)) : Move got c t out := by
  obtain ⟨⟨t', out'⟩, hloop, h⟩ := bind_eq_ok.1 h
  cases h
  have hgathered : Move got c t' ([] ++ out') :=
    collect_induction (P := fun t out => Move got c t out) (.refl got c)
      (fun _ _ _ _ _ _ hbefore hround => hbefore.append (gatherIndex_move hround)) hloop
  rw [nil_append] at hgathered
  simpa using (hgathered.append t'.withdraw_move).append t'.withdraw.1.decideOutput_move

/-- A move of the agreement on one index, whose messages go out wrapped. -/
theorem Move.ofRa {b : Bracha n f (List UInt8)} {ps : List (PhaseMessage (List UInt8))}
    {gotRa : Option (ℕ × PhaseMessage (List UInt8))}
    (hra : (Bracha.machine n f (List UInt8)).Does (raPart k)
      (got.bind fun x => (raPart k x.2).map fun p => (x.1, p)) (c.ra k) b
      (c.all (ps.map (.ra k))))
    (hmove : Bracha.Move gotRa (c.ra k) b ps)
    (hecho : gotRa = none → c.withdrawn = false ∧ k ∈ c.validated) :
    Move got c { c with ra := update c.ra k b } (c.all (ps.map (.ra k))) := by
  have hbody : ∀ {r m}, (r, m) ∈ c.all (ps.map (Body.ra k)) → ∃ p, m.body = .ra k p := by
    intro r m hm
    obtain ⟨p, -, hp⟩ := mem_map.1 (mem_all hm)
    exact ⟨p, hp.symm⟩
  have hother : ∀ {P : ℕ → Bracha n f (List UInt8) → Prop}, P k b → (∀ j, P j (c.ra j)) →
      ∀ j, P j (update c.ra k b j) := by
    intro P hk hrest j
    by_cases hj : j = k
    · subst hj
      rwa [update_self]
    · rw [update_of_ne hj]
      exact hrest j
  exact { Move.refl got c with
    ra_output_kept := hother (P := fun j a => ∀ v, (c.ra j).output = some v → a.output = some v)
      hmove.output_kept fun _ _ h => h
    ra := fun j => by
      by_cases hj : j = k
      · subst hj
        simpa only [update_self] using hra
      · simp only [update_of_ne hj]
        refine .rest fun r m hm => ?_
        obtain ⟨p, hp⟩ := hbody hm
        simp [raPart, hp, Ne.symm hj]
    gather := .rest fun r m hm => by
      obtain ⟨p, hp⟩ := hbody hm
      simp [gatherPart, hp]
    dealer := hother (P := fun j a => a.dealer = (c.ra j).dealer) hmove.dealer fun _ => rfl
    echo_from := hother (P := fun j a => ∀ v, (c.ra j).dealer = none → a.echoSent = some v →
        (c.ra j).echoSent = some v ∨ c.withdrawn = false ∧ j ∈ c.validated)
      (fun v hdealer hv => by
        rcases hmove.echo_from v hv with hv | ⟨-, hnone⟩ | ⟨q, hq, -⟩
        · exact .inl hv
        · exact .inr (hecho hnone)
        · rw [hdealer] at hq
          cases hq)
      fun _ _ _ => .inl
    withdraw_out := fun r x hx => by
      obtain ⟨p, hp⟩ := hbody hx
      cases hp
    valid_from := fun _ => .inl
    output_from := fun _ => .inl }

theorem raPart_wrap (k : ℕ) (x : List UInt8) (p : PhaseMessage (List UInt8)) :
    raPart k ⟨x, .ra k p⟩ = some p := by
  simp [raPart]

theorem agree_move (hnot : c.withdrawn = false) (hmem : index ∈ c.validated) :
    Move got c (c.agree index).1 (c.agree index).2 := by
  refine .ofRa ?_ ((c.ra index).inputRa_move [1]) fun _ => ⟨hnot, hmem⟩
  simpa only [all, map_map, comp_def] using
    does_inputRa (raPart_wrap index c.context) (c.ra index) [1]

theorem validate_move (h : c.validate index = .ok (t, out)) : Move none c t out := by
  obtain ⟨-, h⟩ := check_bind_eq_ok.1 h
  obtain ⟨⟨t', out'⟩, hprogress, h⟩ := bind_eq_ok.1 h
  cases h
  have hvalidated : Move none c { c with validated := insert index c.validated } [] :=
    { Move.refl none c with
      validated_kept := Finset.subset_insert _ _
      echo_from := fun _ _ _ => .inl }
  refine Move.append ?_ (progress_move hprogress)
  split_ifs with hnow
  · exact hvalidated.append (agree_move hnow.2 (Finset.mem_insert_self _ _))
  · exact hvalidated

theorem hear_move {x : List UInt8} {b : Body} (h : c.hear q b = .ok (t, out)) :
    Move (some (q, ⟨x, b⟩)) c t out := by
  cases b with
  | gather b =>
    obtain ⟨⟨g, os⟩, hreceive, h⟩ := bind_eq_ok.1 h
    cases h
    refine .ofGather ⟨os, .single_receive rfl hreceive, gatherPackets_forwards⟩
      (receive_move hreceive).1 c.igValid fun k hk => .inl ?_
    rwa [(receive_move hreceive).2] at hk
  | ra index p =>
    obtain ⟨-, h⟩ := check_bind_eq_ok.1 h
    cases h
    refine .ofRa ?_ ((c.ra index).receive_move q p) nofun
    simpa only [all, map_map, comp_def] using
      does_receive (raPart_wrap index c.context) (c.ra index)
        (by simp [raPart_wrap])
  | withdraw =>
    cases h
    exact { Move.refl (some (q, ⟨x, .withdraw⟩)) c with
      withdrawals_kept := Finset.subset_insert _ _
      withdrawals_from := fun q' hq' => by
        rcases Finset.mem_insert.1 hq' with rfl | hq'
        · exact .inr ⟨x, rfl⟩
        · exact .inl hq'
      output_from := fun _ => .inl }

theorem receive_move (h : c.receive q m = .ok (t, out)) : Move (some (q, m)) c t out := by
  obtain ⟨-, h⟩ := check_bind_eq_ok.1 h
  obtain ⟨⟨heard, first⟩, hheard, h⟩ := bind_eq_ok.1 h
  obtain ⟨⟨t', last⟩, hprogress, h⟩ := bind_eq_ok.1 h
  cases h
  exact (hear_move hheard).append (progress_move hprogress)

end Moves

end CoverGather

end MiniDregg.PrivateBackend
