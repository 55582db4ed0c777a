import MiniDregg.Network.Embedding
import MiniDregg.Store.OrderedMap

/-!
# Reliable broadcast and reliable agreement

One machine serves both: with a dealer it is Bracha's reliable broadcast and a
party echoes the dealer's first INIT, without one it is reliable agreement and a
party echoes its own input. From there on a party sends READY for the first
value with a quorum of ECHOs, or with more than `f` READYs, and outputs the
first value with a quorum of READYs.

## Implementation notes

The number of parties `n` and the fault bound `f`, constant fields of the
source's record, are parameters of the type. Values are of any ordered type; the
source uses byte strings, and picks the first eligible one in their order.

`Bracha.Move` says once what an operation can do to a party, and the network
invariant `Bracha.Backed` is proved from it alone. A host that runs the machine
as a part uses the results through an embedding.
-/

namespace MiniDregg.PrivateBackend

open Network Store Fallible World List

/-- Bytes in numerical order, so that byte strings are ordered as the source's maps order
them. -/
instance linearOrderUInt8 : LinearOrder UInt8 where
  le_refl := UInt8.le_refl
  le_trans _ _ _ := UInt8.le_trans
  le_antisymm _ _ := UInt8.le_antisymm
  le_total := UInt8.le_total
  lt_iff_le_not_ge a b := by
    simp only [UInt8.lt_iff_toNat_lt, UInt8.le_iff_toNat_le]
    omega
  toDecidableLE := inferInstance

/-- A message of the broadcast, with the value it is about. -/
inductive PhaseMessage (α : Type) where
  | init (v : α)
  | echo (v : α)
  | ready (v : α)
deriving DecidableEq

/-- The value a message is about. -/
def PhaseMessage.payload {α : Type} : PhaseMessage α → α
  | .init v => v
  | .echo v => v
  | .ready v => v

/-- One party's record of one broadcast or agreement. -/
structure Bracha (n f : ℕ) (α : Type) [LinearOrder α] where
  dealer : Option ℕ
  echoSent : Option α
  readySent : Option α
  echoSenders : Finset ℕ
  readySenders : Finset ℕ
  echos : OrderedMap α (Finset ℕ)
  readies : OrderedMap α (Finset ℕ)
  output : Option α
deriving DecidableEq

namespace Bracha

variable {n f : ℕ} {α : Type} [LinearOrder α] {v w : α}

section Tallies

section
variable (tally : OrderedMap α (Finset ℕ))

/-- The senders counted for a value. -/
def votersOf (v : α) : Finset ℕ := (tally.get? v).getD ∅

/-- One more sender counted for a value. -/
def vote (v : α) (sender : ℕ) : OrderedMap α (Finset ℕ) :=
  tally.insert v (insert sender (votersOf tally v))

/-- The first value with at least `q` senders. -/
def firstWith (q : ℕ) : Option α :=
  (tally.entries.find? fun e => q ≤ e.2.card).map Prod.fst

end

variable {tally : OrderedMap α (Finset ℕ)} {q p : ℕ}

theorem mem_votersOf_vote (h : p ∈ votersOf (vote tally v q) w) :
    p ∈ votersOf tally w ∨ p = q ∧ w = v := by
  simp only [vote, votersOf, OrderedMap.get?_insert] at h
  split_ifs at h with hw
  · subst hw
    rw [Option.getD_some, Finset.mem_insert] at h
    exact h.symm.imp_right fun hp => ⟨hp, rfl⟩
  · exact .inl h

theorem le_card_of_firstWith (h : firstWith tally q = some v) : q ≤ (votersOf tally v).card := by
  obtain ⟨⟨v', s⟩, hfind, rfl⟩ := Option.map_eq_some_iff.1 h
  have hget := OrderedMap.get?_eq_some.2 (mem_of_find?_eq_some hfind)
  have hcard : q ≤ s.card := by simpa using find?_some hfind
  rw [votersOf, hget]
  exact hcard

end Tallies

/-- A party that has heard nothing. -/
def new (n f : ℕ) (dealer : Option ℕ) : Bracha n f α :=
  ⟨dealer, none, none, ∅, ∅, .empty, .empty, none⟩

section
variable (b : Bracha n f α)

/-- The party's own input to an agreement, sent on as its ECHO. -/
def inputRa (v : α) : Bracha n f α × List (PhaseMessage α) :=
  if b.dealer.isNone && b.echoSent.isNone then ({ b with echoSent := some v }, [.echo v])
  else (b, [])

/-- A message is recorded: the dealer's first INIT is echoed, and each sender's first ECHO
and first READY are counted. -/
def hear (sender : ℕ) :
    PhaseMessage α → Bracha n f α × List (PhaseMessage α)
  | .init v =>
    if b.dealer == some sender && b.echoSent.isNone then
      ({ b with echoSent := some v }, [.echo v])
    else (b, [])
  | .echo v =>
    if sender ∈ b.echoSenders then (b, [])
    else
      ({ b with echoSenders := insert sender b.echoSenders, echos := vote b.echos v sender },
        [])
  | .ready v =>
    if sender ∈ b.readySenders then (b, [])
    else
      ({ b with
          readySenders := insert sender b.readySenders
          readies := vote b.readies v sender }, [])

/-- The value a READY may be sent for: one with a quorum of ECHOs, else one with more than
`f` READYs. -/
def eligible : Option α :=
  (firstWith b.echos (n - f)).or (firstWith b.readies (f + 1))

/-- The READY of the party is sent once. -/
def sendReady : Bracha n f α × List (PhaseMessage α) :=
  if b.readySent.isNone then
    match b.eligible with
    | some v => ({ b with readySent := some v }, [.ready v])
    | none => (b, [])
  else (b, [])

/-- The output is set once, to a value with a quorum of READYs. -/
def decideOutput : Bracha n f α :=
  if b.output.isNone then { b with output := firstWith b.readies (n - f) } else b

/-- A message arrives. -/
def receive (sender : ℕ) (m : PhaseMessage α) :
    Bracha n f α × List (PhaseMessage α) :=
  let heard := b.hear sender m
  let relayed := heard.1.sendReady
  (relayed.1.decideOutput, heard.2 ++ relayed.2)

end

/-- What one operation can do to a party. `got` is the message that arrived, if any. -/
structure Move (got : Option (ℕ × PhaseMessage α)) (b t : Bracha n f α)
    (out : List (PhaseMessage α)) : Prop where
  dealer : t.dealer = b.dealer
  echo_kept : ∀ v, b.echoSent = some v → t.echoSent = some v
  ready_kept : ∀ v, b.readySent = some v → t.readySent = some v
  output_kept : ∀ v, b.output = some v → t.output = some v
  echo_out : ∀ v, .echo v ∈ out → t.echoSent = some v
  ready_out : ∀ v, .ready v ∈ out → t.readySent = some v
  no_init : ∀ v, .init v ∉ out
  echo_from : ∀ v, t.echoSent = some v → b.echoSent = some v ∨ b.dealer = none ∧ got = none ∨
    ∃ q, b.dealer = some q ∧ got = some (q, .init v)
  echos_from : ∀ v q, q ∈ votersOf t.echos v → q ∈ votersOf b.echos v ∨ got = some (q, .echo v)
  readies_from : ∀ v q, q ∈ votersOf t.readies v →
    q ∈ votersOf b.readies v ∨ got = some (q, .ready v)
  ready_from : ∀ v, t.readySent = some v → b.readySent = some v ∨
    n - f ≤ (votersOf t.echos v).card ∨ f < (votersOf t.readies v).card
  output_from : ∀ v, t.output = some v → b.output = some v ∨
    n - f ≤ (votersOf t.readies v).card

variable {got : Option (ℕ × PhaseMessage α)}

namespace Move

variable {b t u : Bracha n f α}
  {out out' : List (PhaseMessage α)}

theorem refl (got : Option (ℕ × PhaseMessage α)) (b : Bracha n f α) : Move got b b [] where
  dealer := rfl
  echo_kept _ h := h
  ready_kept _ h := h
  output_kept _ h := h
  echo_out _ h := absurd h not_mem_nil
  ready_out _ h := absurd h not_mem_nil
  no_init _ := not_mem_nil
  echo_from _ := .inl
  echos_from _ _ := .inl
  readies_from _ _ := .inl
  ready_from _ := .inl
  output_from _ := .inl

end Move

theorem inputRa_move (b : Bracha n f α) (v : α) : Move none b (b.inputRa v).1 (b.inputRa v).2 := by
  unfold inputRa
  split_ifs with h
  · rw [Bool.and_eq_true, Option.isNone_iff_eq_none, Option.isNone_iff_eq_none] at h
    obtain ⟨hdealer, hecho⟩ := h
    exact { Move.refl none b with
      echo_kept := fun w hw => by simp [hecho] at hw
      echo_out := fun w hw => by simpa [eq_comm] using hw
      ready_out := fun w hw => by simp at hw
      no_init := fun w hw => by simp at hw
      echo_from := fun w _ => .inr (.inl ⟨hdealer, rfl⟩) }
  · exact .refl none b

theorem hear_move (b : Bracha n f α) (q : ℕ) (m : PhaseMessage α) :
    Move (some (q, m)) b (b.hear q m).1 (b.hear q m).2 := by
  cases m with
  | init v =>
    simp only [hear]
    split_ifs with h
    · rw [Bool.and_eq_true, beq_iff_eq, Option.isNone_iff_eq_none] at h
      obtain ⟨hdealer, hecho⟩ := h
      exact { Move.refl (some (q, .init v)) b with
        echo_kept := fun w hw => by simp [hecho] at hw
        echo_out := fun w hw => by simpa [eq_comm] using hw
        ready_out := fun w hw => by simp at hw
        no_init := fun w hw => by simp at hw
        echo_from := fun w hw => by
          cases hw
          exact .inr (.inr ⟨q, hdealer, rfl⟩) }
    · exact .refl _ b
  | echo v =>
    simp only [hear]
    split_ifs with h
    · exact .refl _ b
    · exact { Move.refl (some (q, .echo v)) b with
        echos_from := fun w p hp =>
          (mem_votersOf_vote hp).imp_right fun ⟨hpq, hwv⟩ => by rw [hpq, hwv]
        ready_from := fun w hw => .inl hw }
  | ready v =>
    simp only [hear]
    split_ifs with h
    · exact .refl _ b
    · exact { Move.refl (some (q, .ready v)) b with
        readies_from := fun w p hp =>
          (mem_votersOf_vote hp).imp_right fun ⟨hpq, hwv⟩ => by rw [hpq, hwv]
        ready_from := fun w hw => .inl hw
        output_from := fun w hw => .inl hw }

/-- The READY of an eligible value follows whatever was heard before it. -/
theorem Move.sendReady {b t : Bracha n f α} {out : List (PhaseMessage α)} (h : Move got b t out) :
    Move got b t.sendReady.1 (out ++ t.sendReady.2) := by
  unfold Bracha.sendReady
  split_ifs with hnone
  · rw [Option.isNone_iff_eq_none] at hnone
    cases heligible : t.eligible with
    | none => simpa using h
    | some v =>
      have hback : n - f ≤ (votersOf t.echos v).card ∨ f < (votersOf t.readies v).card := by
        rcases Option.or_eq_some_iff.1 heligible with hfirst | ⟨-, hfirst⟩
        · exact .inl (le_card_of_firstWith hfirst)
        · exact .inr (le_card_of_firstWith hfirst)
      exact { h with
        ready_kept := fun w hw => by rw [h.ready_kept w hw] at hnone; cases hnone
        echo_out := fun w hw => h.echo_out w (by simpa using hw)
        ready_out := fun w hw => by
          rcases mem_append.1 hw with hw | hw
          · rw [h.ready_out w hw] at hnone; cases hnone
          · simpa [eq_comm] using hw
        no_init := fun w hw => h.no_init w (by simpa using hw)
        ready_from := fun w hw => by
          cases hw
          exact .inr hback }
  · simpa using h

theorem Move.decideOutput {b t : Bracha n f α}
    {out : List (PhaseMessage α)} (h : Move got b t out) : Move got b t.decideOutput out := by
  unfold Bracha.decideOutput
  split_ifs with hnone
  · rw [Option.isNone_iff_eq_none] at hnone
    exact { h with
      output_kept := fun w hw => by rw [h.output_kept w hw] at hnone; cases hnone
      output_from := fun w hw => .inr (le_card_of_firstWith hw) }
  · exact h

theorem receive_move (b : Bracha n f α) (q : ℕ) (m : PhaseMessage α) :
    Move (some (q, m)) b (b.receive q m).1 (b.receive q m).2 :=
  (b.hear_move q m).sendReady.decideOutput

/-- A message for each of the `n` parties. -/
def toAll (n : ℕ) {μ : Type} (ps : List μ) : List (ℕ × μ) :=
  ps.flatMap fun p => (List.range n).map fun i => (i, p)

variable {r d : ℕ}

@[simp] theorem mem_toAll {μ : Type} {ps : List μ} {p : μ} :
    (r, p) ∈ toAll n ps ↔ r < n ∧ p ∈ ps := by
  simp [toAll, and_comm]

/-- What a host does with its part: it gives the agreement an input, or broadcasts a value
as the dealer. -/
inductive Input (α : Type) where
  | agree (v : α)
  | broadcast (v : α)

/-- The machine as a protocol of its own: every message goes to all parties. -/
def machine (n f : ℕ) (α : Type) [LinearOrder α] :
    Machine (Input α) (Bracha n f α) (PhaseMessage α) where
  input
    | b, .agree v => .ok ((b.inputRa v).1, toAll n (b.inputRa v).2)
    | b, .broadcast v => .ok (b, toAll n [.init v])
  receive b q m := .ok ((b.receive q m).1, toAll n (b.receive q m).2)

omit [LinearOrder α] in
/-- What the machine sends reaches a host's messages wrapped. -/
theorem mem_toAll_map {μ : Type} {wrap : PhaseMessage α → μ} {unwrap : μ → Option (PhaseMessage α)}
    (hwrap : ∀ p, unwrap (wrap p) = some p) {ps : List (PhaseMessage α)}
    {p : PhaseMessage α} :
    (r, p) ∈ toAll n ps ↔ ∃ m, (r, m) ∈ toAll n (ps.map wrap) ∧ unwrap m = some p := by
  simp only [mem_toAll, mem_map]
  constructor
  · rintro ⟨hr, hp⟩
    exact ⟨wrap p, ⟨hr, p, hp, rfl⟩, hwrap p⟩
  · rintro ⟨-, ⟨hr, p', hp', rfl⟩, hu⟩
    rw [hwrap] at hu
    cases hu
    exact ⟨hr, hp'⟩

section Hosts
variable {μ : Type} {wrap : PhaseMessage α → μ} {unwrap : μ → Option (PhaseMessage α)}

section
variable (hwrap : ∀ p, unwrap (wrap p) = some p) (b : Bracha n f α)
include hwrap b

theorem does_inputRa (v : α) :
    (machine n f α).Does unwrap got b (b.inputRa v).1
      (toAll n ((b.inputRa v).2.map wrap)) :=
  ⟨_, .single_input (i := .agree v) rfl, fun _ _ => mem_toAll_map hwrap⟩

theorem does_broadcast (v : α) : (machine n f α).Does unwrap got b b (toAll n [wrap (.init v)]) :=
  have hsent {r : ℕ} {p : PhaseMessage α} : (r, p) ∈ toAll n [PhaseMessage.init v] ↔
      ∃ m, (r, m) ∈ toAll n ([PhaseMessage.init v].map wrap) ∧ unwrap m = some p :=
    mem_toAll_map hwrap
  ⟨_, .single_input (i := .broadcast v) rfl, fun _ _ => hsent⟩

theorem does_receive {q : ℕ} {p : PhaseMessage α} (hgot : got = some (q, p)) :
    (machine n f α).Does unwrap got b (b.receive q p).1
      (toAll n ((b.receive q p).2.map wrap)) :=
  ⟨_, .single_receive hgot rfl, fun _ _ => mem_toAll_map hwrap⟩

end

end Hosts

section Network
variable {R : Roster} {V : World (Bracha R.n R.f α) (PhaseMessage α)}

/-- Every move of the machine is the dealer's INIT or an operation of the record. -/
theorem machine_move {b t : Bracha n f α} {e : Event (Input α) (PhaseMessage α)}
    {out : List (ℕ × PhaseMessage α)} (h : (machine n f α).handle b e = .ok (t, out)) :
    (∃ v, t = b ∧ out = toAll n [.init v]) ∨
      ∃ ps, out = toAll n ps ∧ Move (e.carried some) b t ps := by
  cases e with
  | input p i =>
    cases i with
    | agree v =>
      cases h
      exact .inr ⟨_, rfl, b.inputRa_move v⟩
    | broadcast v =>
      cases h
      exact .inl ⟨v, rfl, rfl⟩
  | deliver p q m =>
    cases h
    exact .inr ⟨_, rfl, b.receive_move q m⟩

/-- What stands behind the messages and records of the honest parties. -/
structure Backed (V : World (Bracha R.n R.f α) (PhaseMessage α)) : Prop where
  echo_sent : ∀ p r v, R.Honest p → ⟨p, r, .echo v⟩ ∈ V.sent → (V.state p).echoSent = some v
  ready_sent : ∀ p r v, R.Honest p → ⟨p, r, .ready v⟩ ∈ V.sent →
    (V.state p).readySent = some v
  echos_range : ∀ p v, votersOf (V.state p).echos v ⊆ Finset.range R.n
  readies_range : ∀ p v, votersOf (V.state p).readies v ⊆ Finset.range R.n
  echos : ∀ p q v, R.Honest q → q ∈ votersOf (V.state p).echos v →
    (V.state q).echoSent = some v
  readies : ∀ p q v, R.Honest q → q ∈ votersOf (V.state p).readies v →
    (V.state q).readySent = some v
  echo_init : ∀ p d v, R.Honest d → (V.state p).dealer = some d →
    (V.state p).echoSent = some v → ⟨d, p, .init v⟩ ∈ V.sent
  ready : ∀ p v, (V.state p).readySent = some v →
    ∃ Q, R.Quorum Q ∧ ∀ q ∈ Q, R.Honest q → (V.state q).echoSent = some v
  output : ∀ p v, (V.state p).output = some v →
    ∃ Q, R.Quorum Q ∧ ∀ q ∈ Q, R.Honest q → (V.state q).readySent = some v
  sender_range : ∀ x ∈ V.sent, R.Honest x.sender

theorem backed_start (dealer : ℕ → Option ℕ) :
    Backed (R := R) (α := α) (.start fun p => new R.n R.f (dealer p)) := by
  constructor <;> simp [start, new, votersOf]

section Preservation
variable {p : ℕ} {t : Bracha R.n R.f α} {ps : List (PhaseMessage α)}

/-- A move of one honest party keeps everything backed. Nothing rests on the absence of INITs, so it
may send any. -/
theorem Backed.move (hV : Backed V) (hp : R.Honest p) (h : Move got (V.state p) t ps)
    (hgot : ∀ q m, got = some (q, m) → q < R.n ∧ (R.Honest q → ⟨q, p, m⟩ ∈ V.sent))
    {out : List (PhaseMessage α)} (hout : ∀ m ∈ out, m ∈ ps ∨ ∃ v, m = .init v) :
    Backed (V.advance p t (toAll R.n out)) := by
  have hsent : ∀ x : Sent (PhaseMessage α), x ∈ (V.advance p t (toAll R.n out)).sent ↔
      x ∈ V.sent ∨ x.sender = p ∧ x.recipient < R.n ∧ x.message ∈ out := fun x => by
    rw [mem_advance_sent, mem_toAll]
  -- The voters of the moving party, and what stands behind each of them in the old world.
  have voters {S T : Finset ℕ} {m : PhaseMessage α} {P : ℕ → Prop}
      (hfrom : ∀ q ∈ T, q ∈ S ∨ got = some (q, m)) (hrange : S ⊆ Finset.range R.n)
      (hS : ∀ q, R.Honest q → q ∈ S → P q) (hm : ∀ q, R.Honest q → ⟨q, p, m⟩ ∈ V.sent → P q) :
      T ⊆ Finset.range R.n ∧ ∀ q ∈ T, R.Honest q → P q := by
    refine ⟨fun q hq => ?_, fun q hq hhonest => ?_⟩
    · exact (hfrom q hq).elim (@hrange q) fun hq => Finset.mem_range.2 (hgot q m hq).1
    · exact (hfrom q hq).elim (hS q hhonest) fun hq => hm q hhonest ((hgot q m hq).2 hhonest)
  have hechos (v : α) := voters (h.echos_from v) (hV.echos_range p v) (hV.echos p · v)
    (hV.echo_sent · p v)
  have hreadies (v : α) := voters (h.readies_from v) (hV.readies_range p v) (hV.readies p · v)
    (hV.ready_sent · p v)
  have quorum {P P' : ℕ → Prop} (hkept : ∀ q, P q → P' q)
      (hQ : ∃ Q, R.Quorum Q ∧ ∀ q ∈ Q, R.Honest q → P q) :
      ∃ Q, R.Quorum Q ∧ ∀ q ∈ Q, R.Honest q → P' q := by
    obtain ⟨Q, hQ, hback⟩ := hQ
    exact ⟨Q, hQ, fun q hq hhonest => hkept q (hback q hq hhonest)⟩
  constructor
  case echo_sent =>
    intro q r v hq hx
    rcases (hsent _).1 hx with hx | ⟨rfl, -, hx⟩
    · exact advance_kept (h.echo_kept v) (hV.echo_sent q r v hq hx)
    · rw [advance_state_self]
      exact h.echo_out v ((hout _ hx).resolve_right (by simp))
  case ready_sent =>
    intro q r v hq hx
    rcases (hsent _).1 hx with hx | ⟨rfl, -, hx⟩
    · exact advance_kept (h.ready_kept v) (hV.ready_sent q r v hq hx)
    · rw [advance_state_self]
      exact h.ready_out v ((hout _ hx).resolve_right (by simp))
  case echos_range =>
    exact V.forall_advance (P := fun _ b => ∀ v, votersOf b.echos v ⊆ Finset.range R.n)
      (fun v => (hechos v).1) hV.echos_range
  case readies_range =>
    exact V.forall_advance (P := fun _ b => ∀ v, votersOf b.readies v ⊆ Finset.range R.n)
      (fun v => (hreadies v).1) hV.readies_range
  case echos =>
    intro q' q v hq hmem
    apply advance_kept (h.echo_kept v)
    obtain rfl | hne := eq_or_ne q' p
    · rw [advance_state_self] at hmem
      exact (hechos v).2 q hmem hq
    · exact hV.echos q' q v hq (advance_state_ne hne ▸ hmem)
  case readies =>
    intro q' q v hq hmem
    apply advance_kept (h.ready_kept v)
    obtain rfl | hne := eq_or_ne q' p
    · rw [advance_state_self] at hmem
      exact (hreadies v).2 q hmem hq
    · exact hV.readies q' q v hq (advance_state_ne hne ▸ hmem)
  case echo_init =>
    refine V.forall_advance (P := fun q b => ∀ d v, R.Honest d → b.dealer = some d →
      b.echoSent = some v → ⟨d, q, .init v⟩ ∈ (V.advance p t (toAll R.n out)).sent) ?_ ?_
    · intro d v hd hdealer hecho
      rw [h.dealer] at hdealer
      refine (hsent _).2 (.inl ?_)
      rcases h.echo_from v hecho with hecho | ⟨hnone, -⟩ | ⟨q, hq, hinit⟩
      · exact hV.echo_init p d v hd hdealer hecho
      · cases hnone.symm.trans hdealer
      · cases hq.symm.trans hdealer
        exact (hgot _ _ hinit).2 hd
    · exact fun q d v hd hdealer hecho => (hsent _).2 (.inl (hV.echo_init q d v hd hdealer hecho))
  case ready =>
    intro q v hv
    refine quorum (fun q => advance_kept (h.echo_kept v)) ?_
    obtain rfl | hne := eq_or_ne q p
    · rw [advance_state_self] at hv
      -- More than `f` READYs include one of an honest party.
      rcases h.ready_from v hv with hv | hv | hv
      · exact hV.ready q v hv
      · exact ⟨_, ⟨(hechos v).1, hv⟩, (hechos v).2⟩
      · obtain ⟨r, hr, hhonest⟩ := Roster.exists_honest (hreadies v).1 hv
        exact hV.ready r v ((hreadies v).2 r hr hhonest)
    · exact hV.ready q v (advance_state_ne hne ▸ hv)
  case output =>
    intro q v hv
    refine quorum (fun q => advance_kept (h.ready_kept v)) ?_
    obtain rfl | hne := eq_or_ne q p
    · rw [advance_state_self] at hv
      rcases h.output_from v hv with hv | hv
      · exact hV.output q v hv
      · exact ⟨_, ⟨(hreadies v).1, hv⟩, (hreadies v).2⟩
    · exact hV.output q v (advance_state_ne hne ▸ hv)
  case sender_range =>
    intro x hx
    rcases (hsent x).1 hx with hx | ⟨rfl, -⟩
    · exact hV.sender_range x hx
    · exact hp

end Preservation

/-- Everything stays backed along every schedule. -/
theorem Backed.run (hV : Backed V) (schedule : List (Event (Input α) (PhaseMessage α))) :
    Backed (V.run R (machine R.n R.f α) schedule) := by
  refine run_invariant hV ?_ schedule
  intro V e t out hV hpos hact
  have hp := hpos.honest
  rcases machine_move hact with ⟨v, rfl, rfl⟩ | ⟨ps, rfl, hmove⟩
  · exact hV.move hp (.refl none _) (by simp) (by simp)
  · refine hV.move hp hmove (fun q m hgot => ?_) fun _ => .inl
    cases e with
    | input p i => cases hgot
    | deliver p q' m' =>
      cases hgot
      rcases hpos.2 with hfaulty | hsent
      · exact ⟨Finset.mem_range.1 (R.faulty_subset hfaulty), fun h => absurd hfaulty h.2⟩
      · exact ⟨(hV.sender_range _ hsent).1, fun _ => hsent⟩

/-- Two honest outputs are for the same value: their READY quorums share an honest party,
which sent one READY. -/
theorem Backed.agreement (hV : Backed V) {p q : ℕ}
    (hv : (V.state p).output = some v) (hw : (V.state q).output = some w) : v = w := by
  obtain ⟨Q, hQ, hback⟩ := hV.output p v hv
  obtain ⟨Q', hQ', hback'⟩ := hV.output q w hw
  obtain ⟨r, hr, hr', hhonest⟩ := hQ.inter hQ'
  have hready := hback r hr hhonest
  rw [hback' r hr' hhonest] at hready
  cases hready
  rfl

/-- An output rests on a quorum whose honest members echoed the value. -/
theorem Backed.output_echoed (hV : Backed V) {p : ℕ} (hv : (V.state p).output = some v) :
    ∃ Q, R.Quorum Q ∧ ∀ q ∈ Q, R.Honest q → (V.state q).echoSent = some v := by
  obtain ⟨Q, hQ, hback⟩ := hV.output p v hv
  obtain ⟨q, hq, hhonest⟩ := hQ.exists_honest
  exact hV.ready q v (hback q hq hhonest)

/-- What is output of an honest dealer's broadcast was broadcast by the dealer. -/
theorem Backed.output_init (hV : Backed V) {p : ℕ} (hd : R.Honest d)
    (hdealer : ∀ q, (V.state q).dealer = some d) (hv : (V.state p).output = some v) :
    ∃ q, ⟨d, q, .init v⟩ ∈ V.sent := by
  obtain ⟨Q, hQ, hback⟩ := hV.output_echoed hv
  obtain ⟨q, hq, hhonest⟩ := hQ.exists_honest
  exact ⟨q, hV.echo_init q d v hd (hdealer q) (hback q hq hhonest)⟩

theorem run_dealer (V : World (Bracha R.n R.f α) (PhaseMessage α)) (p : ℕ)
    (schedule : List (Event (Input α) (PhaseMessage α))) :
    ((V.run R (machine R.n R.f α) schedule).state p).dealer = (V.state p).dealer := by
  refine run_related (L := fun _ => True)
    (r := fun b t : Bracha R.n R.f α => t.dealer = b.dealer)
    (fun _ => rfl) (fun _ _ _ h h' => h'.trans h) (fun _ => trivial) ?_ schedule p
  intro b e t out _ hact
  refine ⟨trivial, ?_⟩
  rcases machine_move hact with ⟨v, rfl, -⟩ | ⟨ps, -, hmove⟩
  · rfl
  · exact hmove.dealer

section Part
variable {ι σ μ : Type} [DecidableEq μ] {M : Machine ι σ μ} (E : Embedding M (machine R.n R.f α))
  (init : ℕ → σ) (hlocal : ∀ p, E.Local (init p)) {dealer : Option ℕ}
  (hnew : ∀ p, E.view (init p) = new R.n R.f dealer) (schedule : List (Event ι μ))
include hlocal hnew

/-- A host that starts with a fresh part keeps the part backed along every schedule. -/
theorem backed_part : ∃ V : World (Bracha R.n R.f α) (PhaseMessage α),
    E.Shows ((start init).run R M schedule) V ∧ Backed V ∧
      ∀ p, (V.state p).dealer = dealer := by
  obtain ⟨schedule', hshows⟩ := E.exists_schedule (E.shows_start init) hlocal schedule
  refine ⟨_, hshows, Backed.run ?_ schedule', fun p => ?_⟩
  · simpa only [hnew] using backed_start fun _ => dealer
  · rw [run_dealer]
    simp only [start, hnew, new]

variable {p q : ℕ}
  (hv : (E.view (((start init).run R M schedule).state p)).output = some v)
include hv

/-- Two honest outputs of a part are the same. -/
theorem part_agreement
    (hw : (E.view (((start init).run R M schedule).state q)).output = some w) : v = w := by
  obtain ⟨V, hshows, hV, -⟩ := backed_part E init hlocal hnew schedule
  rw [← hshows.state] at hv hw
  exact hV.agreement hv hw

/-- What a part outputs was sent by its dealer, if that is honest. -/
theorem part_output_init (hd : R.Honest d) (hdealer : dealer = some d) :
    ∃ q m, ⟨d, q, m⟩ ∈ ((start init).run R M schedule).sent ∧
      E.unwrap m = some (.init v) := by
  obtain ⟨V, hshows, hV, hdealers⟩ := backed_part E init hlocal hnew schedule
  rw [← hshows.state] at hv
  obtain ⟨q, hq⟩ := hV.output_init hd (fun q => (hdealers q).trans hdealer) hv
  obtain ⟨m, hm, hunwrap⟩ := (hshows.sent _).1 hq
  exact ⟨q, m, hm, hunwrap⟩

end Part

end Network

end Bracha

end MiniDregg.PrivateBackend
