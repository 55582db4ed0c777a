import MiniDregg.PrivateBackend.Bracha
import MiniDregg.Store.Ascending
import Mathlib.Data.Finset.Union

/-!
# Gathering indexes

Each party INFORMs the others of the indexes it has validated once it has a
quorum of them, ACKs an INFORM whose indexes it has validated itself, and sends
a PREPARE with its validated indexes after a quorum of ACKs. Its output is the
union of the first quorum of PREPAREs it has accepted.

## Implementation notes

The five parts of the source's `progress` are one definition each, in the order
in which the source runs them; all of them read the same validated set. `Move`
states what one operation can do, and both the facts about one party and the
network invariant are proved from it.
-/

namespace MiniDregg.PrivateBackend

open Network Store Fallible World List OrderedMap Bracha

/-- A message of the gathering. -/
inductive IgBody where
  | inform (s : Finset ℕ)
  | ack
  | prepare (s : Finset ℕ)
deriving DecidableEq

/-- One party's record of one gathering. -/
structure Gather (n f : ℕ) where
  me : ℕ
  valid : Finset ℕ
  informSent : Bool
  prepareSent : Bool
  informs : OrderedMap ℕ (Finset ℕ)
  prepares : OrderedMap ℕ (Finset ℕ)
  acked : Finset ℕ
  acks : Finset ℕ
  accepted : Finset ℕ
  output : Option (Finset ℕ)
deriving DecidableEq

namespace Gather

variable {n f : ℕ}

/-- A party that has validated and heard nothing. -/
def fresh (n f me : ℕ) : Gather n f :=
  ⟨me, ∅, false, false, .empty, .empty, ∅, ∅, ∅, none⟩

def new (n f me : ℕ) : Result (Gather n f) := do
  refuseIf (n ≠ 3 * f + 1 || n > 16 || me ≥ n) "gather access structure"
  return fresh n f me

/-- The first value a sender gives under its name is kept. -/
def orInsert (m : OrderedMap ℕ (Finset ℕ)) (sender : ℕ) (s : Finset ℕ) :
    OrderedMap ℕ (Finset ℕ) :=
  if m.contains sender then m else m.insert sender s

/-- Only sets of a quorum of known indexes are looked at. -/
def check (n f : ℕ) (s : Finset ℕ) : Result Unit :=
  refuseIf (s.card < n - f || !decide (s ⊆ Finset.range n)) "gather set quality/range"

section
variable (g : Gather n f)

def sendInform : Gather n f × List (ℕ × IgBody) :=
  if n - f ≤ g.valid.card && !g.informSent then
    ({ g with informSent := true }, toAll n [.inform g.valid])
  else (g, [])

/-- The senders whose INFORM can be acknowledged now and was not before. -/
def toAck : List ℕ :=
  (g.informs.entries.filter fun e => e.2 ⊆ g.valid && e.1 ∉ g.acked).map Prod.fst

def sendAcks : Gather n f × List (ℕ × IgBody) :=
  ({ g with acked := g.acked ∪ g.toAck.toFinset }, g.toAck.map fun j => (j, .ack))

/-- ACKs of the party's own INFORM needed before it sends PREPARE. -/
def ackQuorum (n f : ℕ) : ℕ := n - f

def sendPrepare : Gather n f × List (ℕ × IgBody) :=
  if g.informSent && ackQuorum n f ≤ g.acks.card && !g.prepareSent then
    ({ g with prepareSent := true }, toAll n [.prepare g.valid])
  else (g, [])

/-- The senders whose PREPARE holds validated indexes only. -/
def acceptable : List ℕ :=
  (g.prepares.entries.filter fun e => e.2 ⊆ g.valid).map Prod.fst

def accept : Gather n f :=
  { g with accepted := g.accepted ∪ g.acceptable.toFinset }

/-- The union of the PREPAREs of the first `n - f` accepted senders. -/
def gathered : Finset ℕ :=
  ((ascending g.accepted).take (n - f)).toFinset.biUnion fun j => (g.prepares.get? j).getD ∅

/-- The output is set once; late arrivals do not change it. -/
def decideOutput : Gather n f :=
  if g.output.isNone && n - f ≤ g.accepted.card then { g with output := some g.gathered } else g

def progress : Gather n f × List (ℕ × IgBody) :=
  let informed := g.sendInform
  let acknowledged := informed.1.sendAcks
  let prepared := acknowledged.1.sendPrepare
  (prepared.1.accept.decideOutput, informed.2 ++ acknowledged.2 ++ prepared.2)

/-- An index is validated locally. -/
def validate (index : ℕ) : Result (Gather n f × List (ℕ × IgBody)) := do
  refuseIf (index ≥ n) "validation index"
  return progress { g with valid := insert index g.valid }

/-- A message is recorded. -/
def hear (sender : ℕ) : IgBody → Result (Gather n f)
  | .inform s => do
    check n f s
    return { g with informs := orInsert g.informs sender s }
  | .prepare s => do
    check n f s
    return { g with prepares := orInsert g.prepares sender s }
  | .ack => return { g with acks := insert sender g.acks }

def receive (sender : ℕ) (message : IgBody) :
    Result (Gather n f × List (ℕ × IgBody)) := do
  refuseIf (sender ≥ n) "gather sender"
  let heard ← g.hear sender message
  return heard.progress

end

/-- The gathering as a protocol of its own. Its inputs are local validations. -/
def machine (n f : ℕ) : Machine ℕ (Gather n f) IgBody where
  input := validate
  receive := receive

/-- The parties after the first `t` events of a schedule. -/
def after (R : Roster) (schedule : ℕ → Event ℕ IgBody) (t : ℕ) :
    World (Gather R.n R.f) IgBody :=
  World.after R (machine R.n R.f) (.start (fresh R.n R.f)) schedule t

variable {got : Option (ℕ × IgBody)} {out : List (ℕ × IgBody)}

section Moves

/-- What one operation can do to a party. -/
structure Move (got : Option (ℕ × IgBody)) (g t : Gather n f) (out : List (ℕ × IgBody)) :
    Prop where
  got_range : ∀ q m, got = some (q, m) → q < n
  valid_kept : g.valid ⊆ t.valid
  inform_kept : g.informSent = true → t.informSent = true
  prepare_kept : g.prepareSent = true → t.prepareSent = true
  output_kept : ∀ o, g.output = some o → t.output = some o
  prepares_kept : ∀ q s, g.prepares.get? q = some s → t.prepares.get? q = some s
  inform_out : ∀ r s, (r, .inform s) ∈ out →
    g.informSent = false ∧ t.informSent = true ∧ s = t.valid
  inform_from : t.informSent = true → g.informSent = true ∨
    n - f ≤ t.valid.card ∧ ∀ r < n, (r, .inform t.valid) ∈ out
  ack_out : ∀ r, (r, .ack) ∈ out → ∃ s, t.informs.get? r = some s ∧ s ⊆ t.valid
  prepare_out : ∀ r s, (r, .prepare s) ∈ out →
    g.prepareSent = false ∧ t.prepareSent = true ∧ s = t.valid
  prepare_from : t.prepareSent = true → g.prepareSent = true ∨
    t.informSent = true ∧ n - f ≤ t.acks.card
  informs_from : ∀ q s, t.informs.get? q = some s →
    g.informs.get? q = some s ∨ got = some (q, .inform s)
  prepares_from : ∀ q s, t.prepares.get? q = some s →
    g.prepares.get? q = some s ∨ got = some (q, .prepare s)
  acks_from : ∀ q, q ∈ t.acks → q ∈ g.acks ∨ got = some (q, .ack)
  accepted_from : ∀ q, q ∈ t.accepted → q ∈ g.accepted ∨
    ∃ s, t.prepares.get? q = some s ∧ s ⊆ t.valid
  output_from : ∀ o, t.output = some o → g.output = some o ∨
    n - f ≤ t.accepted.card ∧ o = t.gathered

variable {q : ℕ} {m : IgBody} {q' j index : ℕ} {s s' : Finset ℕ}

theorem get?_orInsert {m : OrderedMap ℕ (Finset ℕ)}
    (h : (orInsert m q s).get? q' = some s') : m.get? q' = some s' ∨ q' = q ∧ s' = s := by
  unfold orInsert at h
  split_ifs at h
  · exact .inl h
  · exact (of_get?_insert h).symm

theorem orInsert_kept {m : OrderedMap ℕ (Finset ℕ)}
    (h : m.get? q' = some s') : (orInsert m q s).get? q' = some s' := by
  unfold orInsert
  split_ifs with hq
  · exact h
  · rw [get?_insert_ne, h]
    rintro rfl
    exact hq (contains_iff.2 ⟨s', h⟩)

variable {g t : Gather n f}

theorem Move.refl (hgot : ∀ q m, got = some (q, m) → q < n) (g : Gather n f) : Move got g g [] where
  got_range := hgot
  valid_kept := subset_rfl
  inform_kept := id
  prepare_kept := id
  output_kept _ := id
  prepares_kept _ _ := id
  inform_out := nofun
  inform_from := .inl
  ack_out := nofun
  prepare_out := nofun
  prepare_from := .inl
  informs_from _ _ := .inl
  prepares_from _ _ := .inl
  acks_from _ := .inl
  accepted_from _ := .inl
  output_from _ := .inl

theorem Move.sendInform (h : Move got g t out) :
    Move got g t.sendInform.1 (out ++ t.sendInform.2) := by
  unfold Gather.sendInform
  split_ifs with hnow
  · rw [Bool.and_eq_true, decide_eq_true_eq, Bool.not_eq_true'] at hnow
    obtain ⟨hcard, hnot⟩ := hnow
    have hbefore : g.informSent = false := by
      cases hg : g.informSent with
      | false => rfl
      | true => simp [h.inform_kept hg] at hnot
    exact { h with
      inform_kept := fun _ => rfl
      inform_out := fun r s hs => by
        refine ⟨hbefore, rfl, ?_⟩
        rcases mem_append.1 hs with hs | hs
        · exact (h.inform_out r s hs).2.2
        · simpa using (mem_toAll.1 hs).2
      inform_from := fun _ => .inr ⟨hcard, fun r hr =>
        mem_append.2 (.inr (mem_toAll.2 ⟨hr, mem_singleton_self _⟩))⟩
      ack_out := fun r hr => h.ack_out r (by simpa using hr)
      prepare_out := fun r s hs => h.prepare_out r s (by simpa using hs)
      prepare_from := fun hp => (h.prepare_from hp).imp_right fun ⟨_, hacks⟩ => ⟨rfl, hacks⟩ }
  · simpa using h

theorem mem_toAck (h : j ∈ t.toAck) : ∃ s, t.informs.get? j = some s ∧ s ⊆ t.valid := by
  obtain ⟨⟨j', s⟩, hmem, rfl⟩ := mem_map.1 h
  obtain ⟨hentry, hnow⟩ := mem_filter.1 hmem
  rw [Bool.and_eq_true, decide_eq_true_eq] at hnow
  exact ⟨s, get?_eq_some.2 hentry, hnow.1⟩

theorem Move.sendAcks (h : Move got g t out) : Move got g t.sendAcks.1 (out ++ t.sendAcks.2) :=
  { h with
    inform_out := fun r s hs => h.inform_out r s (by simpa [Gather.sendAcks] using hs)
    inform_from := fun hi => (h.inform_from hi).imp_right fun ⟨hcard, hall⟩ =>
      ⟨hcard, fun r hr => mem_append_left _ (hall r hr)⟩
    ack_out := fun r hr => by
      rcases mem_append.1 hr with hr | hr
      · exact h.ack_out r hr
      · obtain ⟨j, hj, heq⟩ := mem_map.1 hr
        cases heq
        exact mem_toAck (t := t) hj
    prepare_out := fun r s hs => h.prepare_out r s (by simpa [Gather.sendAcks] using hs) }

theorem Move.sendPrepare (h : Move got g t out) :
    Move got g t.sendPrepare.1 (out ++ t.sendPrepare.2) := by
  unfold Gather.sendPrepare
  split_ifs with hnow
  · rw [Bool.and_eq_true, Bool.and_eq_true, decide_eq_true_eq] at hnow
    obtain ⟨⟨hinform, hacks⟩, hnot⟩ := hnow
    have hbefore : g.prepareSent = false := by
      cases hg : g.prepareSent with
      | false => rfl
      | true => simp [h.prepare_kept hg] at hnot
    exact { h with
      prepare_kept := fun _ => rfl
      inform_out := fun r s hs => h.inform_out r s (by simpa using hs)
      inform_from := fun hi => (h.inform_from hi).imp_right fun ⟨hcard, hall⟩ =>
        ⟨hcard, fun r hr => mem_append_left _ (hall r hr)⟩
      ack_out := fun r hr => h.ack_out r (by simpa using hr)
      prepare_out := fun r s hs => by
        refine ⟨hbefore, rfl, ?_⟩
        rcases mem_append.1 hs with hs | hs
        · exact (h.prepare_out r s hs).2.2
        · simpa using (mem_toAll.1 hs).2
      prepare_from := fun _ => .inr ⟨hinform, hacks⟩ }
  · simpa using h

theorem mem_acceptable (h : j ∈ t.acceptable) :
    ∃ s, t.prepares.get? j = some s ∧ s ⊆ t.valid := by
  obtain ⟨⟨j', s⟩, hmem, rfl⟩ := mem_map.1 h
  obtain ⟨hentry, hnow⟩ := mem_filter.1 hmem
  exact ⟨s, get?_eq_some.2 hentry, by simpa using hnow⟩

/-- Accepting comes before the output is looked at, so the output is still the old one. -/
theorem Move.accept (h : Move got g t out) (houtput : t.output = g.output) :
    Move got g t.accept out :=
  { h with
    accepted_from := fun q hq => by
      rcases Finset.mem_union.1 hq with hq | hq
      · exact h.accepted_from q hq
      · exact .inr (mem_acceptable (mem_toFinset.1 hq))
    output_from := fun o ho => .inl (houtput ▸ ho) }

theorem Move.decideOutput (h : Move got g t out) : Move got g t.decideOutput out := by
  unfold Gather.decideOutput
  split_ifs with hnow
  · rw [Bool.and_eq_true, Option.isNone_iff_eq_none, decide_eq_true_eq] at hnow
    exact { h with
      output_kept := fun o ho => by
        rw [h.output_kept o ho] at hnow
        cases hnow.1
      output_from := fun o ho => by
        cases ho
        exact .inr ⟨hnow.2, rfl⟩ }
  · exact h

section
variable (g : Gather n f)

/-- Sending sets a mark and nothing else. -/
theorem sendInform_frame : ∃ b, g.sendInform.1 = { g with informSent := b } := by
  unfold Gather.sendInform
  split_ifs
  · exact ⟨true, rfl⟩
  · exact ⟨g.informSent, rfl⟩

theorem sendPrepare_frame :
    ∃ b, g.sendPrepare.1 = { g with prepareSent := b } := by
  unfold Gather.sendPrepare
  split_ifs
  · exact ⟨true, rfl⟩
  · exact ⟨g.prepareSent, rfl⟩

theorem decideOutput_valid : g.decideOutput.valid = g.valid := by
  unfold Gather.decideOutput
  split_ifs <;> rfl

theorem progress_valid : g.progress.1.valid = g.valid := by
  obtain ⟨b, hb⟩ := g.sendInform_frame
  obtain ⟨b', hb'⟩ := g.sendInform.1.sendAcks.1.sendPrepare_frame
  calc g.progress.1.valid
      = g.sendInform.1.sendAcks.1.sendPrepare.1.valid := decideOutput_valid _
    _ = g.sendInform.1.valid := by rw [hb']; rfl
    _ = g.valid := by rw [hb]

end

theorem Move.progress (h : Move got g t []) (houtput : t.output = g.output) :
    Move got g t.progress.1 t.progress.2 := by
  have hparts := h.sendInform.sendAcks.sendPrepare
  rw [nil_append] at hparts
  refine (hparts.accept ?_).decideOutput
  obtain ⟨b, hb⟩ := t.sendInform_frame
  obtain ⟨b', hb'⟩ := t.sendInform.1.sendAcks.1.sendPrepare_frame
  rw [hb']
  simp only [Gather.sendAcks, hb, houtput]

theorem validate_move (h : g.validate index = .ok (t, out)) : Move none g t out := by
  obtain ⟨-, h⟩ := check_bind_eq_ok.1 h
  cases h
  have hquiet : Move none g { g with valid := insert index g.valid } [] :=
    { (Move.refl (by simp) g : Move none g g []) with
      valid_kept := Finset.subset_insert _ _
      inform_out := nofun
      inform_from := .inl
      ack_out := nofun
      prepare_out := nofun
      accepted_from := fun _ => .inl }
  exact hquiet.progress rfl

theorem validate_valid (h : g.validate index = .ok (t, out)) :
    t.valid = insert index g.valid := by
  obtain ⟨-, h⟩ := check_bind_eq_ok.1 h
  cases h
  exact progress_valid _

theorem hear_move (hq : q < n) (h : g.hear q m = .ok t) :
    Move (some (q, m)) g t [] ∧ t.output = g.output ∧ t.valid = g.valid := by
  have hgot : ∀ q' m', some (q, m) = some (q', m') → q' < n := by
    rintro q' m' ⟨⟩
    exact hq
  have hquiet := Move.refl hgot g
  cases m with
  | inform s =>
    obtain ⟨-, h⟩ := check_bind_eq_ok.1 h
    cases h
    exact ⟨{ hquiet with
      ack_out := nofun
      informs_from := fun q' s' h' =>
        (get?_orInsert h').imp_right fun ⟨hq', hs'⟩ => by rw [hq', hs'] }, rfl, rfl⟩
  | prepare s =>
    obtain ⟨-, h⟩ := check_bind_eq_ok.1 h
    cases h
    exact ⟨{ hquiet with
      prepares_kept := fun _ _ => orInsert_kept
      prepares_from := fun q' s' h' =>
        (get?_orInsert h').imp_right fun ⟨hq', hs'⟩ => by rw [hq', hs']
      accepted_from := fun _ => .inl
      output_from := fun _ => .inl }, rfl, rfl⟩
  | ack =>
    cases h
    exact ⟨{ hquiet with
      prepare_from := .inl
      acks_from := fun q' h' =>
        (Finset.mem_insert.1 h').symm.imp_right fun hq' => by rw [hq'] }, rfl, rfl⟩

theorem receive_move (h : g.receive q m = .ok (t, out)) :
    Move (some (q, m)) g t out ∧ t.valid = g.valid := by
  obtain ⟨hq, h⟩ := check_bind_eq_ok.1 h
  obtain ⟨heard, hheard, h⟩ := bind_eq_ok.1 h
  cases h
  have hlt : q < n := by simpa using hq
  obtain ⟨hmove, houtput, hvalid⟩ := hear_move hlt hheard
  exact ⟨hmove.progress houtput, (progress_valid heard).trans hvalid⟩

/-- Every operation of the machine is a move. -/
theorem handle_move {e : Event ℕ IgBody} (h : (machine n f).handle g e = .ok (t, out)) :
    Move (e.carried some) g t out := by
  cases e with
  | input p i => exact validate_move h
  | deliver p q m => exact (receive_move h).1

end Moves

/-- What a party's own record says about itself. -/
structure Kept (g : Gather n f) : Prop where
  acks_range : g.acks ⊆ Finset.range n
  prepares_range : ∀ q s, g.prepares.get? q = some s → q < n
  accepted : ∀ q ∈ g.accepted, ∃ s, g.prepares.get? q = some s ∧ s ⊆ g.valid
  output : ∀ o, g.output = some o → o ⊆ g.valid ∧
    ∃ Q ⊆ Finset.range n, n - f ≤ Q.card ∧ ∀ q ∈ Q, ∃ s, g.prepares.get? q = some s ∧ s ⊆ o

theorem kept_fresh (me : ℕ) : Kept (fresh n f me) := by
  constructor <;> simp [fresh]

/-- The gathered set is the union of a quorum of accepted PREPAREs. -/
theorem gathered_spec {g : Gather n f}
    (haccepted : ∀ q ∈ g.accepted, ∃ s, g.prepares.get? q = some s ∧ s ⊆ g.valid)
    (hrange : ∀ q s, g.prepares.get? q = some s → q < n) (hcard : n - f ≤ g.accepted.card) :
    g.gathered ⊆ g.valid ∧ ∃ Q ⊆ Finset.range n, n - f ≤ Q.card ∧
      ∀ q ∈ Q, ∃ s, g.prepares.get? q = some s ∧ s ⊆ g.gathered := by
  have hmem : ∀ q ∈ ((ascending g.accepted).take (n - f)).toFinset, q ∈ g.accepted :=
    fun q hq => mem_ascending.1 (mem_of_mem_take (mem_toFinset.1 hq))
  refine ⟨fun k hk => ?_, _, fun q hq => ?_, (card_take_ascending hcard).ge, fun q hq => ?_⟩
  · obtain ⟨q, hq, hk⟩ := Finset.mem_biUnion.1 hk
    obtain ⟨s, hs, hsub⟩ := haccepted q (hmem q hq)
    rw [hs, Option.getD_some] at hk
    exact hsub hk
  · obtain ⟨s, hs, -⟩ := haccepted q (hmem q hq)
    exact Finset.mem_range.2 (hrange q s hs)
  · obtain ⟨s, hs, -⟩ := haccepted q (hmem q hq)
    refine ⟨s, hs, fun k hk => Finset.mem_biUnion.2 ⟨q, hq, ?_⟩⟩
    rwa [hs, Option.getD_some]

theorem Kept.move {g t : Gather n f} (hg : Kept g) (h : Move got g t out) : Kept t := by
  have hrange : ∀ q s, t.prepares.get? q = some s → q < n := fun q s hs =>
    (h.prepares_from q s hs).elim (hg.prepares_range q s) (h.got_range q _)
  have haccepted : ∀ q ∈ t.accepted, ∃ s, t.prepares.get? q = some s ∧ s ⊆ t.valid := by
    intro q hq
    rcases h.accepted_from q hq with hq | hq
    · obtain ⟨s, hs, hsub⟩ := hg.accepted q hq
      exact ⟨s, h.prepares_kept q s hs, hsub.trans h.valid_kept⟩
    · exact hq
  refine ⟨fun q hq => ?_, hrange, haccepted, fun o ho => ?_⟩
  · rcases h.acks_from q hq with hq | hq
    · exact hg.acks_range hq
    · exact Finset.mem_range.2 (h.got_range q _ hq)
  · rcases h.output_from o ho with ho | ⟨hcard, rfl⟩
    · obtain ⟨hvalid, Q, hQ, hquorum, hback⟩ := hg.output o ho
      refine ⟨hvalid.trans h.valid_kept, Q, hQ, hquorum, fun q hq => ?_⟩
      obtain ⟨s, hs, hsub⟩ := hback q hq
      exact ⟨s, h.prepares_kept q s hs, hsub⟩
    · exact gathered_spec haccepted hrange hcard

section Network
variable {R : Roster} {V : World (Gather R.n R.f) IgBody}

/-- What stands behind the messages and records of the honest parties. -/
structure Backed (V : World (Gather R.n R.f) IgBody) : Prop where
  kept : ∀ p, Kept (V.state p)
  inform_sent : ∀ p r s, R.Honest p → ⟨p, r, .inform s⟩ ∈ V.sent →
    (V.state p).informSent = true
  inform_unique : ∀ p r r' s s', R.Honest p → ⟨p, r, .inform s⟩ ∈ V.sent →
    ⟨p, r', .inform s'⟩ ∈ V.sent → s = s'
  inform_all : ∀ p, (V.state p).informSent = true → ∃ s, R.n - R.f ≤ s.card ∧
    s ⊆ (V.state p).valid ∧ ∀ r < R.n, ⟨p, r, .inform s⟩ ∈ V.sent
  ack_sent : ∀ p q, R.Honest p → R.Honest q → ⟨q, p, .ack⟩ ∈ V.sent →
    ∃ s, ⟨p, q, .inform s⟩ ∈ V.sent ∧ s ⊆ (V.state q).valid
  prepare_sent : ∀ p r s, R.Honest p → ⟨p, r, .prepare s⟩ ∈ V.sent →
    (V.state p).prepareSent = true
  informs : ∀ p q s, R.Honest q → (V.state p).informs.get? q = some s →
    ⟨q, p, .inform s⟩ ∈ V.sent
  prepares : ∀ p q s, R.Honest q → (V.state p).prepares.get? q = some s →
    ⟨q, p, .prepare s⟩ ∈ V.sent
  acks : ∀ p q, R.Honest q → q ∈ (V.state p).acks → ⟨q, p, .ack⟩ ∈ V.sent

theorem backed_start (me : ℕ → ℕ) : Backed (R := R) (.start fun p => fresh R.n R.f (me p)) := by
  constructor <;> simp [World.start, fresh]
  exact fun p => kept_fresh (me p)

/-- A move of one honest party keeps everything backed. -/
theorem Backed.move (hV : Backed V) {p : ℕ} (hp : R.Honest p) {t : Gather R.n R.f}
    (h : Move got (V.state p) t out)
    (hgot : ∀ q m, got = some (q, m) → R.Honest q → ⟨q, p, m⟩ ∈ V.sent) :
    Backed (V.advance p t out) := by
  have hold : ∀ {x : Sent IgBody}, x ∈ V.sent → x ∈ (V.advance p t out).sent := fun hx =>
    mem_advance_sent.2 (.inl hx)
  have hvalid : ∀ q, (V.state q).valid ⊆ ((V.advance p t out).state q).valid :=
    V.forall_advance (P := fun q g => (V.state q).valid ⊆ g.valid) h.valid_kept fun _ => subset_rfl
  have hinforms : ∀ q s, R.Honest q → t.informs.get? q = some s → ⟨q, p, .inform s⟩ ∈ V.sent :=
    fun q s hq hs => (h.informs_from q s hs).elim (hV.informs p q s hq) fun hg => hgot q _ hg hq
  constructor
  case kept => exact V.forall_advance (P := fun _ g => Kept g) ((hV.kept p).move h) hV.kept
  case inform_sent =>
    intro q r s hq hx
    rcases mem_advance_sent.1 hx with hx | ⟨rfl, hnow⟩
    · exact advance_kept h.inform_kept (hV.inform_sent q r s hq hx)
    · rw [advance_state_self]
      exact (h.inform_out r s hnow).2.1
  case inform_unique =>
    intro q r r' s s' hq hx hx'
    rcases mem_advance_sent.1 hx with hlast | ⟨rfl, hnow⟩
    · rcases mem_advance_sent.1 hx' with hlast' | ⟨rfl, hnow'⟩
      · exact hV.inform_unique q r r' s s' hq hlast hlast'
      · exact absurd (hV.inform_sent _ r s hq hlast) (by simp [(h.inform_out r' s' hnow').1])
    · rcases mem_advance_sent.1 hx' with hlast' | ⟨-, hnow'⟩
      · exact absurd (hV.inform_sent _ r' s' hq hlast') (by simp [(h.inform_out r s hnow).1])
      · rw [(h.inform_out r s hnow).2.2, (h.inform_out r' s' hnow').2.2]
  case inform_all =>
    refine V.forall_advance (P := fun q g => g.informSent = true → ∃ s, R.n - R.f ≤ s.card ∧
      s ⊆ g.valid ∧ ∀ r < R.n, ⟨q, r, .inform s⟩ ∈ (V.advance p t out).sent) ?_ ?_
    · intro ht
      rcases h.inform_from ht with hbefore | ⟨hcard, hall⟩
      · obtain ⟨s, hcard, hsub, hall⟩ := hV.inform_all p hbefore
        exact ⟨s, hcard, hsub.trans h.valid_kept, fun r hr => hold (hall r hr)⟩
      · exact ⟨t.valid, hcard, subset_rfl, fun r hr =>
          mem_advance_sent.2 (.inr ⟨rfl, hall r hr⟩)⟩
    · intro q hq
      obtain ⟨s, hcard, hsub, hall⟩ := hV.inform_all q hq
      exact ⟨s, hcard, hsub, fun r hr => hold (hall r hr)⟩
  case ack_sent =>
    intro r q hr hq hx
    rcases mem_advance_sent.1 hx with hx | ⟨rfl, hnow⟩
    · obtain ⟨s, hs, hsub⟩ := hV.ack_sent r q hr hq hx
      exact ⟨s, hold hs, hsub.trans (hvalid q)⟩
    · obtain ⟨s, hs, hsub⟩ := h.ack_out r hnow
      refine ⟨s, hold (hinforms r s hr hs), ?_⟩
      rwa [advance_state_self]
  case prepare_sent =>
    intro q r s hq hx
    rcases mem_advance_sent.1 hx with hx | ⟨rfl, hnow⟩
    · exact advance_kept h.prepare_kept (hV.prepare_sent q r s hq hx)
    · rw [advance_state_self]
      exact (h.prepare_out r s hnow).2.1
  case informs =>
    intro p' q s hq hs
    obtain rfl | hne := eq_or_ne p' p
    · exact hold (hinforms q s hq (by simpa using hs))
    · exact hold (hV.informs p' q s hq (advance_state_ne hne ▸ hs))
  case prepares =>
    intro p' q s hq hs
    obtain rfl | hne := eq_or_ne p' p
    · exact hold ((h.prepares_from q s (by simpa using hs)).elim (hV.prepares p' q s hq)
        fun hg => hgot q _ hg hq)
    · exact hold (hV.prepares p' q s hq (advance_state_ne hne ▸ hs))
  case acks =>
    intro p' q hq hs
    obtain rfl | hne := eq_or_ne p' p
    · exact hold ((h.acks_from q (by simpa using hs)).elim (hV.acks p' q hq)
        fun hg => hgot q _ hg hq)
    · exact hold (hV.acks p' q hq (advance_state_ne hne ▸ hs))

end Network

section Core
variable {R : Roster} {V : World (Gather R.n R.f) IgBody}

/-- A set that more than `f` honest parties have validated and have put into every PREPARE
they sent. -/
structure Core (V : World (Gather R.n R.f) IgBody) (S : Finset ℕ) : Prop where
  card : R.n - R.f ≤ S.card
  holders : ∃ A ⊆ Finset.range R.n, R.f < A.card ∧ ∀ q ∈ A, S ⊆ (V.state q).valid ∧
    R.Honest q ∧ ∀ r s, ⟨q, r, .prepare s⟩ ∈ V.sent → S ⊆ s

variable {p : ℕ} {S o : Finset ℕ}

/-- The first PREPARE of an honest party makes its INFORM a core: a quorum acknowledged
the INFORM, and none of its honest members has sent a PREPARE yet. -/
theorem Backed.exists_core (hV : Backed V) (hp : R.Honest p)
    (hready : (V.state p).informSent = true ∧ R.n - R.f ≤ (V.state p).acks.card)
    (hfirst : ∀ q r s, R.Honest q → ⟨q, r, .prepare s⟩ ∈ V.sent → q = p ∧ s = (V.state p).valid) :
    ∃ S, Core V S := by
  obtain ⟨S, hcard, hsub, hall⟩ := hV.inform_all p hready.1
  have hquorum : R.Quorum (V.state p).acks := ⟨(hV.kept p).acks_range, hready.2⟩
  refine ⟨S, hcard, _, Finset.sdiff_subset.trans hquorum.subset, hquorum.honest_card, ?_⟩
  intro q hq
  obtain ⟨hack, hfaulty⟩ := Finset.mem_sdiff.1 hq
  have hhonest : R.Honest q := ⟨Finset.mem_range.1 (hquorum.subset hack), hfaulty⟩
  obtain ⟨s, hs, hvalid⟩ := hV.ack_sent p q hp hhonest (hV.acks p q hhonest hack)
  obtain rfl : S = s := hV.inform_unique p q q S s hp (hall q hhonest.1) hs
  refine ⟨hvalid, hhonest, fun r s' hs' => ?_⟩
  obtain ⟨-, rfl⟩ := hfirst q r s' hhonest hs'
  exact hsub

theorem Core.move (hS : Core V S) {t : Gather R.n R.f} (h : Move got (V.state p) t out) :
    Core (V.advance p t out) S := by
  obtain ⟨A, hA, hcard, hhold⟩ := hS.holders
  refine ⟨hS.card, A, hA, hcard, fun q hq => ?_⟩
  obtain ⟨hvalid, hhonest, hsent⟩ := hhold q hq
  refine ⟨?_, hhonest, fun r s hs => ?_⟩
  · exact V.forall_advance (P := fun q g => S ⊆ (V.state q).valid → S ⊆ g.valid)
      (fun hsub => hsub.trans h.valid_kept) (fun _ => id) q hvalid
  · rcases mem_advance_sent.1 hs with hlast | ⟨rfl, hnow⟩
    · exact hsent r s hlast
    · rw [(h.prepare_out r s hnow).2.2]
      exact hvalid.trans h.valid_kept

/-- Every output of an honest party contains the core: a quorum of PREPAREs meets the
holders of the core. -/
theorem Core.subset_output (hS : Core V S) (hV : Backed V) (ho : (V.state p).output = some o) :
    S ⊆ o := by
  obtain ⟨A, hA, hcard, hhold⟩ := hS.holders
  obtain ⟨-, Q, hQ, hquorum, hprepares⟩ := (hV.kept p).output o ho
  obtain ⟨q, hq, hqA⟩ := Roster.Quorum.meets ⟨hQ, hquorum⟩ hA hcard
  obtain ⟨s, hs, hsub⟩ := hprepares q hq
  obtain ⟨-, hhonest, hsent⟩ := hhold q hqA
  exact (hsent p s (hV.prepares p q s hhonest hs)).trans hsub

/-- Everything is backed, and once an honest party has sent a PREPARE there is a core. -/
structure Bound (V : World (Gather R.n R.f) IgBody) : Prop where
  backed : Backed V
  core : (∀ p r s, R.Honest p → ⟨p, r, .prepare s⟩ ∉ V.sent) ∨ ∃ S, Core V S

theorem bound_start (me : ℕ → ℕ) : Bound (R := R) (.start fun p => fresh R.n R.f (me p)) :=
  ⟨backed_start me, .inl fun p r s _ => by simp [World.start]⟩

theorem Bound.move (hV : Bound V) (hp : R.Honest p) {t : Gather R.n R.f}
    (h : Move got (V.state p) t out)
    (hgot : ∀ q m, got = some (q, m) → R.Honest q → ⟨q, p, m⟩ ∈ V.sent) :
    Bound (V.advance p t out) := by
  have hbacked := hV.backed.move hp h hgot
  refine ⟨hbacked, ?_⟩
  rcases hV.core with hnone | ⟨S, hS⟩
  · by_cases hsend : ∃ r s, (r, IgBody.prepare s) ∈ out
    · obtain ⟨r, s, hs⟩ := hsend
      refine .inr (hbacked.exists_core hp ?_ ?_)
      · rw [advance_state_self]
        obtain ⟨hbefore, hafter, -⟩ := h.prepare_out r s hs
        refine (h.prepare_from hafter).resolve_left fun hsent => ?_
        cases hbefore.symm.trans hsent
      · intro q r' s' hq hx
        rcases mem_advance_sent.1 hx with hlast | ⟨rfl, hnow⟩
        · exact absurd hlast (hnone q r' s' hq)
        · rw [advance_state_self]
          exact ⟨rfl, (h.prepare_out r' s' hnow).2.2⟩
    · refine .inl fun q r s hq hx => ?_
      rcases mem_advance_sent.1 hx with hlast | ⟨rfl, hnow⟩
      · exact hnone q r s hq hlast
      · exact hsend ⟨r, s, hnow⟩
  · exact .inr ⟨S, hS.move h⟩

/-- The facts about moves, along a schedule. -/
theorem Bound.run (hV : Bound V) (schedule : List (Event ℕ IgBody)) :
    Bound (V.run R (machine R.n R.f) schedule) := by
  refine run_invariant hV ?_ schedule
  intro V e t out hV hpos hact
  refine hV.move hpos.honest (handle_move hact) fun q m hgot hq => ?_
  cases e with
  | input p i => cases hgot
  | deliver p q' m' =>
    cases hgot
    exact hpos.2.resolve_left hq.2

theorem Core.run (hS : Core V S) (schedule : List (Event ℕ IgBody)) :
    Core (V.run R (machine R.n R.f) schedule) S :=
  run_invariant (P := fun V => Core V S) hS
    (fun _ _ _ _ hS _ hact => hS.move (handle_move hact)) schedule

theorem run_output (ho : (V.state p).output = some o) (schedule : List (Event ℕ IgBody)) :
    ((V.run R (machine R.n R.f) schedule).state p).output = some o :=
  run_related (L := fun _ => True)
    (r := fun g t : Gather R.n R.f => ∀ o, g.output = some o → t.output = some o)
    (fun _ _ h => h) (fun _ _ _ h h' o ho => h' o (h o ho)) (fun _ => trivial)
    (fun _ _ _ _ _ hact => ⟨trivial, (handle_move hact).output_kept⟩) schedule p o ho

/-- Where an honest party has output, there is a core. -/
theorem Bound.exists_core (hV : Bound V) (ho : (V.state p).output = some o) : ∃ S, Core V S := by
  refine hV.core.resolve_left fun hnone => ?_
  obtain ⟨-, Q, hQ, hquorum, hprepares⟩ := (hV.backed.kept p).output o ho
  obtain ⟨q, hq, hhonest⟩ := Roster.Quorum.exists_honest ⟨hQ, hquorum⟩
  obtain ⟨s, hs, -⟩ := hprepares q hq
  exact hnone q p s hhonest (hV.backed.prepares p q s hhonest hs)

section Parts
variable {ι σ μ : Type} [DecidableEq μ] {M : Machine ι σ μ} (E : Embedding M (machine R.n R.f))
  (init : ℕ → σ)

section
variable (hlocal : ∀ p, E.Local (init p))
include hlocal

/-- The gathering inside a host after the first `t` events. -/
theorem exists_part
    (hfresh : ∀ p, ∃ me, E.view (init p) = fresh R.n R.f me) (schedule : ℕ → Event ι μ) (t : ℕ) :
    ∃ V, E.Shows (World.after R M (.start init) schedule t) V ∧ Bound V := by
  choose me hme using hfresh
  obtain ⟨schedule', hshows⟩ :=
    E.exists_schedule (R := R) (E.shows_start init) hlocal ((List.range t).map schedule)
  refine ⟨_, hshows, Bound.run ?_ schedule'⟩
  simpa only [hme] using bound_start me

/-- A part that gathers goes on from any moment to any later one. -/
theorem exists_later_part (schedule : ℕ → Event ι μ)
    {t t' : ℕ} (htt' : t ≤ t') {V : World (Gather R.n R.f) IgBody}
    (hV : E.Shows (World.after R M (.start init) schedule t) V) :
    ∃ later, E.Shows (World.after R M (.start init) schedule t')
      (V.run R (machine R.n R.f) later) := by
  obtain ⟨between, hbetween⟩ :=
    World.after_of_le (R := R) (M := M) (.start init) schedule htt'
  rw [hbetween]
  exact E.exists_schedule hV (E.local_run hlocal _) between

variable (hfresh : ∀ p, ∃ me, E.view (init p) = fresh R.n R.f me)
include hfresh

variable (schedule : ℕ → Event ι μ)

/-- An output inside a host does not change once it is set. -/
theorem part_output_kept {t t' p : ℕ} (htt' : t ≤ t') {o : Finset ℕ}
    (ho : (E.view ((World.after R M (.start init) schedule t).state p)).output = some o) :
    (E.view ((World.after R M (.start init) schedule t').state p)).output = some o := by
  obtain ⟨V, hshows, -⟩ := exists_part E init hlocal hfresh schedule t
  obtain ⟨later, hlater⟩ := exists_later_part E init hlocal schedule htt' hshows
  rw [← hshows.state] at ho
  rw [← hlater.state]
  exact run_output ho later

/-- Along an endless schedule of a host, one set of a quorum of indexes is in every output
that any party ever has. -/
theorem exists_core_of_part :
    ∃ S : Finset ℕ, R.n - R.f ≤ S.card ∧ ∀ t p o,
      (E.view ((World.after R M (.start init) schedule t).state p)).output = some o → S ⊆ o := by
  by_cases hever : ∃ t p o,
      (E.view ((World.after R M (.start init) schedule t).state p)).output = some o
  · obtain ⟨t₀, p₀, o₀, ho₀⟩ := hever
    obtain ⟨V, hshows, hbound⟩ := exists_part E init hlocal hfresh schedule t₀
    rw [← hshows.state] at ho₀
    obtain ⟨S, hS⟩ := hbound.exists_core ho₀
    refine ⟨S, hS.card, fun t p o ho => ?_⟩
    -- Earlier outputs are still there at `t₀`; later ones are those of a continuation.
    rcases le_total t t₀ with htt₀ | htt₀
    · have hlater := part_output_kept E init hlocal hfresh schedule htt₀ ho
      rw [← hshows.state] at hlater
      exact hS.subset_output hbound.backed hlater
    · obtain ⟨later, hlater⟩ := exists_later_part E init hlocal schedule htt₀ hshows
      rw [← hlater.state] at ho
      exact (hS.run later).subset_output (hbound.run later).backed ho
  · refine ⟨Finset.range R.n, by simp, fun t p o ho => absurd ⟨t, p, o, ho⟩ hever⟩

end

end Parts

end Core

end Gather

end MiniDregg.PrivateBackend
