import MiniDregg.PrivateBackend.SealedOutboxSteps

/-!
# Whole runs of the sealed outbox

A run is a list of calls, each with what it draws at random and the outcome of its
writes, and of restarts that replay the WAL. What a call has answered stays recorded in
every later state, which is why a repeated call has only one answer to give.
-/

namespace MiniDregg.PrivateBackend.SealedOutbox

open Fallible TransitionJournal Store.OrderedMap State SealedOutbox.Store
open MiniDregg.Store (OrderedMap)

/-! ## Calls and what they leave behind -/

inductive Call
  | prepare (party : CommitteeParty) (sequence : UInt64) (message : Bytes)
      (recipient : RecipientSpec) (publicKey : Bytes) (nonce : Result (Wire.Fixed 32))
  | sealDraft (receipt : DraftReceipt) (credential : Bytes) (transit : Transit)
  | attachOuter (receipt : DraftReceipt) (credential : Bytes)
  | refineInner (receipt : DraftReceipt) (credential : Bytes) (transit : Transit)
  | refinedCapsule (receipt : VersionReceipt)
  | attachRefinedOuter (receipt : VersionReceipt) (credential : Bytes)

inductive Answer
  | draft (receipt : DraftReceipt)
  | version (receipt : VersionReceipt)
  | capsule (raw : Bytes)

def perform (sha : Wire.Digest) (s : Store) (fault : Option WriteFault) :
    Call → Store × Result Answer
  | .prepare party sequence message recipient publicKey nonce =>
    let r := prepare sha s party sequence message recipient publicKey nonce fault
    (r.1, r.2.map .draft)
  | .sealDraft receipt credential transit =>
    let r := sealDraft sha s receipt credential transit fault
    (r.1, r.2.map .capsule)
  | .attachOuter receipt credential =>
    let r := attachOuter sha s receipt credential fault
    (r.1, r.2.map .capsule)
  | .refineInner receipt credential transit =>
    let r := refineInner sha s receipt credential transit fault
    (r.1, r.2.map .version)
  | .refinedCapsule receipt => (s, (refinedCapsule s receipt).map .capsule)
  | .attachRefinedOuter receipt credential =>
    let r := attachRefinedOuter sha s receipt credential fault
    (r.1, r.2.map .capsule)

/-- The entry under a key, when it carries the commitment. -/
def State.Has (s : State) (key : Bytes) (commitment : Wire.Fixed 64) (p : Entry → Prop) : Prop :=
  ∃ e, s.entries.get? key = some e ∧ e.commitment = commitment ∧ p e

/-- The state holds what the call has answered. -/
def Recorded (s : State) : Call → Answer → Prop
  | .prepare party sequence message recipient publicKey _, .draft r =>
    ∃ e, s.entries.get? (nullifier party sequence) = some e ∧
      (e.party = party ∧ e.message = message ∧ e.recipient = recipient ∧
        e.publicKey = publicKey) ∧
      r = ⟨nullifier party sequence, party, sequence, e.commitment, recipient⟩
  | .sealDraft r _ _, .capsule raw => s.Has r.key r.commitment fun e => e.capsule = some raw
  | .attachOuter r _, .capsule raw => s.Has r.key r.commitment fun e => e.finalCapsule = some raw
  | .refineInner r c _, .version v =>
    v = ⟨r.key, c, r.commitment⟩ ∧ s.Has r.key r.commitment fun e =>
      ∃ w, e.refinements.get? c = some w
  | .refinedCapsule v, .capsule raw => s.Has v.key v.commitment fun e =>
    ∃ w, e.refinements.get? v.credential = some w ∧
      (w.capsule = raw ∨ w.finalCapsule = some raw)
  | .attachRefinedOuter v _, .capsule raw => s.Has v.key v.commitment fun e =>
    ∃ w, e.refinements.get? v.credential = some w ∧ w.finalCapsule = some raw
  | _, _ => False

/-- The second store follows the first by at most one event. -/
structure Follows (sha : Wire.Digest) (identity : Bytes) (initial : State) (s s' : Store) :
    Prop where
  backed : ∃ next, s'.Backed sha identity initial next
  state : s'.state = s.state ∨ s.state.Replaces s'.state

variable {c : Call} {key : Bytes} {commitment : Wire.Fixed 64}

section Calls
variable {sha : Wire.Digest} {identity : Bytes} {initial : State} {s : Store}
  {next : Option State} {missing other unknown : String}

theorem Follows.extends {s' : Store} (h : Follows sha identity initial s s') :
    s.state.Extends s'.state := by
  rcases h.state with heq | hrep
  · rw [heq]
    exact .refl _
  · exact hrep.extends

theorem Follows.bounded {s' : Store} (h : Follows sha identity initial s s')
    (hs : s.state.Bounded) : s'.state.Bounded := by
  rcases h.state with heq | hrep
  · rw [heq]
    exact hs
  · exact hrep.bounded hs

theorem follows_self (h : s.Backed sha identity initial next) :
    Follows sha identity initial s s := ⟨⟨next, h⟩, .inl rfl⟩

/-- Appending an event applies exactly that event, or keeps the state. -/
theorem record_follows (h : s.Backed sha identity initial next) (e : Event)
    (fault : Option WriteFault) :
    Follows sha identity initial s (Store.record sha s e fault).1 ∧
      ∀ out, (Store.record sha s e fault).2 = .ok out →
        s.state.step e = .ok ((Store.record sha s e fault).1.state, out) := by
  have happend := h.append e.encode fault
  unfold Store.record
  generalize s.append sha e.encode fault = r at happend
  cases happend with
  | refused x => exact ⟨follows_self h, by simp⟩
  | applied happly backed =>
    have hstep := apply_encode happly
    refine ⟨⟨⟨none, backed⟩, .inr (step_replaces hstep)⟩, ?_⟩
    intro out hout
    cases hout
    exact hstep
  | uncertain x state backed => exact ⟨⟨⟨_, backed⟩, .inl state⟩, by simp⟩

/-- What a call promises: it follows the store and its answer is recorded. -/
def Answers (sha : Wire.Digest) (identity : Bytes) (initial : State) (s : Store) (c : Call)
    (r : Store × Result Answer) : Prop :=
  Follows sha identity initial s r.1 ∧ ∀ a, r.2 = .ok a → Recorded r.1.state c a

section
variable (h : s.Backed sha identity initial next)
include h

theorem answers_error (c : Call) (x : String) : Answers sha identity initial s c (s, .error x) :=
  ⟨follows_self h, fun _ ha => by cases ha⟩

theorem answers_self {a : Answer} (ha : Recorded s.state c a) :
    Answers sha identity initial s c (s, .ok a) := by
  refine ⟨follows_self h, ?_⟩
  intro a' ha'
  cases ha'
  exact ha

/-- A call that ends in an append answers what the applied event has recorded. -/
theorem answers_record {e : Event} (fault : Option WriteFault) (answer : Bytes → Answer)
    (hrec : ∀ s' out, s.state.step e = .ok (s', out) → Recorded s' c (answer out)) :
    Answers sha identity initial s c
      ((Store.record sha s e fault).1, (Store.record sha s e fault).2.map answer) := by
  obtain ⟨hfollows, hstep⟩ := record_follows h e fault
  refine ⟨hfollows, ?_⟩
  intro a ha
  cases hr : (Store.record sha s e fault).2 with
  | error x =>
    rw [hr] at ha
    cases ha
  | ok out =>
    rw [hr] at ha
    cases ha
    exact hrec _ out (hstep out hr)

end

theorem entryFor_eq_ok {e : Entry} : entryFor s key commitment missing other = .ok e ↔
      s.state.entries.get? key = some e ∧ e.commitment = commitment := by
  simp only [entryFor, bind_eq_ok, entry_eq_ok, refuseIf_decide, ne_eq, not_not, pure_inj]
  constructor
  · rintro ⟨e', he, _, hc, rfl⟩
    exact ⟨he, hc⟩
  · rintro ⟨he, hc⟩
    exact ⟨e, he, (), hc, rfl⟩

theorem version_eq_ok {v : VersionReceipt} {w : RefinedVersion} :
    version s v missing other unknown = .ok w ↔
      s.state.Has v.key v.commitment fun e => e.refinements.get? v.credential = some w := by
  simp only [version, bind_eq_ok, entryFor_eq_ok, okOr_eq_ok, State.Has, and_assoc]

section
variable (h : s.Backed sha identity initial next) (fault : Option WriteFault)
include h fault

theorem prepare_answers (party : CommitteeParty) (sequence : UInt64) (message : Bytes)
    (recipient : RecipientSpec) (publicKey : Bytes) (nonce : Result (Wire.Fixed 32)) :
    Answers sha identity initial s (.prepare party sequence message recipient publicKey nonce)
      (perform sha s fault (.prepare party sequence message recipient publicKey nonce)) := by
  simp only [perform, prepare]
  cases hget : s.state.entries.get? (nullifier party sequence) with
  | some old =>
    simp only
    split_ifs with hconflict
    · exact answers_error h _ _
    · simp only [ne_eq, not_or, not_not] at hconflict
      exact answers_self h ⟨old, hget, hconflict, rfl⟩
  | none =>
    simp only
    cases HidingDraft.new party sequence message recipient nonce with
    | error x => exact answers_error h _ _
    | ok draft =>
      simp only
      obtain ⟨hfollows, hstep⟩ := record_follows h
        (.draft party sequence recipient publicKey draft.hidingNonce message) fault
      generalize Store.record sha s _ fault = r at hfollows hstep
      obtain ⟨s', r⟩ := r
      cases r with
      | error x => exact ⟨hfollows, fun _ ha => by cases ha⟩
      | ok out =>
        obtain ⟨-, commitment, hs'⟩ := stepDraft_eq_ok (hstep out rfl)
        have he := (congrArg (·.entries.get? (nullifier party sequence)) hs').trans get?_insert_self
        dsimp only at he
        refine ⟨?_, ?_⟩
        · simpa only [he] using hfollows
        · intro a ha
          simp only [he] at ha ⊢
          cases ha
          exact ⟨_, he, ⟨rfl, rfl, rfl, rfl⟩, rfl⟩

theorem sealDraft_answers (r : DraftReceipt) (credential : Bytes) (transit : Transit) :
    Answers sha identity initial s (.sealDraft r credential transit)
      (perform sha s fault (.sealDraft r credential transit)) := by
  simp only [perform, sealDraft]
  cases hentry : entryFor s r.key r.commitment "draft receipt scope"
    "draft receipt semantic scope" with
  | error x => exact answers_error h _ _
  | ok e =>
    obtain ⟨he, hcommit⟩ := entryFor_eq_ok.1 hentry
    simp only
    cases hcapsule : e.capsule with
    | some raw => exact answers_self h ⟨e, he, hcommit, hcapsule⟩
    | none =>
      simp only
      cases sealEntry e credential transit with
      | error x => exact answers_error h _ _
      | ok raw =>
        apply answers_record h fault Answer.capsule
        intro s' out hstep
        obtain ⟨rfl, e₁, he₁, -, rfl⟩ := stepInner_eq_ok hstep
        cases he.symm.trans he₁
        exact ⟨_, get?_insert_self, hcommit, rfl⟩

theorem attachOuter_answers (r : DraftReceipt) (credential : Bytes) :
    Answers sha identity initial s (.attachOuter r credential)
      (perform sha s fault (.attachOuter r credential)) := by
  simp only [perform, attachOuter]
  cases hentry : entryFor s r.key r.commitment "draft outer receipt scope"
    "draft outer semantic scope" with
  | error x => exact answers_error h _ _
  | ok e =>
    obtain ⟨he, hcommit⟩ := entryFor_eq_ok.1 hentry
    simp only
    cases hfinal : e.finalCapsule with
    | some raw => exact answers_self h ⟨e, he, hcommit, hfinal⟩
    | none =>
      apply answers_record h fault Answer.capsule
      intro s' out hstep
      obtain ⟨e₁, he₁, -, rfl⟩ := stepOuter_eq_ok hstep
      cases he.symm.trans he₁
      exact ⟨_, get?_insert_self, hcommit, rfl⟩

theorem refineInner_answers (r : DraftReceipt) (credential : Bytes) (transit : Transit) :
    Answers sha identity initial s (.refineInner r credential transit)
      (perform sha s fault (.refineInner r credential transit)) := by
  simp only [perform, refineInner]
  cases hentry : s.state.entry r.key "refinement receipt scope" with
  | error x => exact answers_error h _ _
  | ok e =>
    have he := entry_eq_ok.1 hentry
    simp only
    split_ifs with hrefused hknown hfull
    · exact answers_error h _ _
    · simp only [ne_eq, not_or, not_not] at hrefused
      exact answers_self h ⟨rfl, e, he, hrefused.1, contains_iff.1 hknown⟩
    · exact answers_error h _ _
    · simp only [ne_eq, not_or, not_not] at hrefused
      cases sealEntry e credential transit with
      | error x => exact answers_error h _ _
      | ok raw =>
        simp only
        have hrec : ∀ s' out, s.state.step (.refined r.key credential raw) = .ok (s', out) →
            Recorded s' (.refineInner r credential transit)
              (.version ⟨r.key, credential, r.commitment⟩) := by
          intro s' out hstep
          obtain ⟨e₁, he₁, -, -, rfl⟩ := stepRefined_eq_ok hstep
          cases he.symm.trans he₁
          exact ⟨rfl, _, get?_insert_self, hrefused.1, _,
            get?_insert_self⟩
        have hanswers := answers_record h fault _ hrec
        generalize Store.record sha s _ fault = x at hanswers
        obtain ⟨s', x⟩ := x
        cases x with
        | error | ok => exact hanswers

theorem refinedCapsule_answers (v : VersionReceipt) :
    Answers sha identity initial s (.refinedCapsule v)
      (perform sha s fault (.refinedCapsule v)) := by
  simp only [perform, refinedCapsule]
  cases hversion : version s v "refined receipt scope" "refined semantic scope"
    "refined credential scope" with
  | error x => exact answers_error h _ _
  | ok w =>
    obtain ⟨e, he, hcommit, hw⟩ := version_eq_ok.1 hversion
    apply answers_self h
    refine ⟨e, he, hcommit, w, hw, ?_⟩
    cases hfinal : w.finalCapsule with
    | none => exact .inl rfl
    | some raw => exact .inr rfl

theorem attachRefinedOuter_answers (v : VersionReceipt) (credential : Bytes) :
    Answers sha identity initial s (.attachRefinedOuter v credential)
      (perform sha s fault (.attachRefinedOuter v credential)) := by
  simp only [perform, attachRefinedOuter]
  cases hversion : version s v "refined outer scope" "refined outer semantic scope"
    "refined outer credential scope" with
  | error x => exact answers_error h _ _
  | ok w =>
    obtain ⟨e, he, hcommit, hw⟩ := version_eq_ok.1 hversion
    simp only
    cases hfinal : w.finalCapsule with
    | some raw => exact answers_self h ⟨e, he, hcommit, w, hw, hfinal⟩
    | none =>
      apply answers_record h fault Answer.capsule
      intro s' out hstep
      obtain ⟨e₁, w₁, he₁, hw₁, -, rfl⟩ := stepRefinedOuter_eq_ok hstep
      cases he.symm.trans he₁
      exact ⟨_, get?_insert_self, hcommit, _, get?_insert_self, rfl⟩

/-- Every call keeps the store backed and records what it answers. -/
theorem perform_answers (c : Call) : Answers sha identity initial s c (perform sha s fault c) := by
  cases c with
  | prepare party sequence message recipient publicKey nonce =>
    exact prepare_answers h fault party sequence message recipient publicKey nonce
  | sealDraft r credential transit => exact sealDraft_answers h fault r credential transit
  | attachOuter r credential => exact attachOuter_answers h fault r credential
  | refineInner r credential transit => exact refineInner_answers h fault r credential transit
  | refinedCapsule v => exact refinedCapsule_answers h fault v
  | attachRefinedOuter v credential => exact attachRefinedOuter_answers h fault v credential

end

end Calls

/-! ## What is recorded stays recorded -/

variable {s : State} {a : Answer}

theorem State.Extends.has {s' : State} (h : s.Extends s') {p p' : Entry → Prop}
    (hp : ∀ e e', e.Extends e' → p e → p' e') (hhas : s.Has key commitment p) :
    s'.Has key commitment p' := by
  obtain ⟨e, he, hcommit, hpe⟩ := hhas
  obtain ⟨e', he', hext⟩ := h key e he
  exact ⟨e', he', hext.commitment.trans hcommit, hp e e' hext hpe⟩

theorem Recorded.mono {s' : State} (h : s.Extends s') (hrec : Recorded s c a) :
    Recorded s' c a := by
  cases c with
  | prepare party sequence message recipient publicKey nonce =>
    cases a with
    | draft r =>
      obtain ⟨e, he, ⟨hparty, hmessage, hrecipient, hkey⟩, hr⟩ := hrec
      obtain ⟨e', he', hext⟩ := h _ e he
      refine ⟨e', he', ⟨hext.party.trans hparty, hext.message.trans hmessage,
        hext.recipient.trans hrecipient, hext.publicKey.trans hkey⟩, ?_⟩
      rw [hext.commitment]
      exact hr
    | version | capsule => cases hrec
  | sealDraft r credential transit =>
    cases a with
    | capsule raw => exact h.has (fun e e' hext => hext.capsule raw) hrec
    | draft | version => cases hrec
  | attachOuter r credential =>
    cases a with
    | capsule raw => exact h.has (fun e e' hext => hext.finalCapsule raw) hrec
    | draft | version => cases hrec
  | refineInner r credential transit =>
    cases a with
    | version v =>
      refine ⟨hrec.1, h.has ?_ hrec.2⟩
      rintro e e' hext ⟨w, hw⟩
      obtain ⟨w', hw', -⟩ := hext.refinements _ w hw
      exact ⟨w', hw'⟩
    | draft | capsule => cases hrec
  | refinedCapsule v =>
    cases a with
    | capsule raw =>
      refine h.has ?_ hrec
      rintro e e' hext ⟨w, hw, hraw⟩
      obtain ⟨w', hw', hext'⟩ := hext.refinements _ w hw
      refine ⟨w', hw', hraw.imp ?_ ?_⟩
      · exact hext'.capsule.trans
      · exact hext'.finalCapsule raw
    | draft | version => cases hrec
  | attachRefinedOuter v credential =>
    cases a with
    | capsule raw =>
      refine h.has ?_ hrec
      rintro e e' hext ⟨w, hw, hraw⟩
      obtain ⟨w', hw', hext'⟩ := hext.refinements _ w hw
      exact ⟨w', hw', hext'.finalCapsule raw hraw⟩
    | draft | version => cases hrec

/-- What a call binds: a draft, a capsule or a final capsule of a nullifier, a refinement
or the final capsule of one. Reading a refinement binds nothing. -/
inductive Slot
  | draft (key : Bytes)
  | capsule (key : Bytes)
  | finalCapsule (key : Bytes)
  | refinement (key credential : Bytes)
  | refinedFinal (key credential : Bytes)

def Call.slot : Call → Option Slot
  | .prepare party sequence _ _ _ _ => some (.draft (nullifier party sequence))
  | .sealDraft r _ _ => some (.capsule r.key)
  | .attachOuter r _ => some (.finalCapsule r.key)
  | .refineInner r credential _ => some (.refinement r.key credential)
  | .refinedCapsule _ => none
  | .attachRefinedOuter v _ => some (.refinedFinal v.key v.credential)

/-- The bytes a slot holds. -/
def State.retained (s : State) : Slot → Option Bytes
  | .draft _ => none
  | .capsule key => (s.entries.get? key).bind Entry.capsule
  | .finalCapsule key => (s.entries.get? key).bind Entry.finalCapsule
  | .refinement _ _ => none
  | .refinedFinal key credential => (s.entries.get? key).bind fun e =>
    (e.refinements.get? credential).bind RefinedVersion.finalCapsule

/-- The content of a recorded answer, read off the slot alone. -/
def Bound (s : State) (x : Slot) : Answer → Prop
  | .draft r => ∃ e, x = .draft r.key ∧ s.entries.get? r.key = some e ∧ r.party = e.party ∧
      nullifier e.party r.sequence = r.key ∧ r.commitment = e.commitment ∧
      r.recipient = e.recipient
  | .version v => ∃ e, x = .refinement v.key v.credential ∧ s.entries.get? v.key = some e ∧
      v.commitment = e.commitment
  | .capsule raw => s.retained x = some raw

theorem Recorded.bound {x : Slot} (h : Recorded s c a) (hx : c.slot = some x) : Bound s x a := by
  cases c with
  | prepare party sequence message recipient publicKey nonce =>
    cases a with
    | draft r =>
      cases hx
      obtain ⟨e, he, ⟨rfl, -, rfl, -⟩, rfl⟩ := h
      exact ⟨e, rfl, he, rfl, rfl, rfl, rfl⟩
    | version | capsule => cases h
  | sealDraft | attachOuter =>
    cases a with
    | capsule raw =>
      cases hx
      obtain ⟨e, he, -, hraw⟩ := h
      simp only [Bound, State.retained, he, Option.bind_some, hraw]
    | draft | version => cases h
  | refineInner r credential transit =>
    cases a with
    | version v =>
      cases hx
      obtain ⟨rfl, e, he, hcommit, -⟩ := h
      exact ⟨e, rfl, he, hcommit.symm⟩
    | draft | capsule => cases h
  | refinedCapsule v => cases hx
  | attachRefinedOuter v credential =>
    cases a with
    | capsule raw =>
      cases hx
      obtain ⟨e, he, -, w, hw, hraw⟩ := h
      simp only [Bound, State.retained, he, hw, Option.bind_some, hraw]
    | draft | version => cases h

theorem nullifier_sequence {p : CommitteeParty} {n n' : UInt64}
    (h : nullifier p n = nullifier p n') : n = n' :=
  le64_delimited.injective (List.append_cancel_left h)

/-- A slot has one content. -/
theorem Bound.unique {x : Slot} {a' : Answer} (h : Bound s x a) (h' : Bound s x a') : a = a' := by
  cases a with
  | draft r =>
    obtain ⟨k, p, n, c, q⟩ := r
    obtain ⟨e, rfl, he, rfl, hn, rfl, rfl⟩ := h
    cases a' with
    | draft r' =>
      obtain ⟨k', p', n', c', q'⟩ := r'
      obtain ⟨e', hk, he', rfl, hn', rfl, rfl⟩ := h'
      cases hk
      cases he.symm.trans he'
      have hseq : n = n' := nullifier_sequence (hn.trans hn'.symm)
      rw [hseq]
    | version v =>
      obtain ⟨_, hk, -⟩ := h'
      cases hk
    | capsule raw => cases h'
  | version v =>
    obtain ⟨k, c, m⟩ := v
    obtain ⟨e, rfl, he, rfl⟩ := h
    cases a' with
    | draft r =>
      obtain ⟨_, hk, -⟩ := h'
      cases hk
    | version v' =>
      obtain ⟨k', c', m'⟩ := v'
      obtain ⟨e', hk, he', rfl⟩ := h'
      cases hk
      cases he.symm.trans he'
      rfl
    | capsule raw => cases h'
  | capsule raw =>
    cases a' with
    | draft | version =>
      obtain ⟨_, rfl, -⟩ := h'
      cases h
    | capsule raw' =>
      have heq : some raw = some raw' := Eq.trans (Eq.symm h) h'
      cases heq
      rfl

end MiniDregg.PrivateBackend.SealedOutbox
