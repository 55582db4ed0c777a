import MiniDregg.PrivateBackend.SealedOutboxRuns

/-!
# Immutability of the sealed outbox

Over every run of calls, failed writes and restarts: entries only grow, a repeated call
answers what it answered first, and capsules handed out stay retained in their current
form.
-/

namespace MiniDregg.PrivateBackend.SealedOutbox

open Fallible TransitionJournal List Cursor SealedOutbox.Store CodecNat Wire
open MiniDregg.Store (OrderedMap)

/-- One event in the life of an outbox. -/
inductive Action
  | call (c : Call) (fault : Option WriteFault)
  | restart

section Runs
variable (sha : Wire.Digest) (sourceIdentity : Bytes) (maxEntries : Nat)

/-- One event, with the call it answers and the answer. -/
def act (s : Store) : Action → Result (Store × List (Call × Result Answer))
  | .call c fault => .ok ((perform sha s fault c).1, [(c, (perform sha s fault c).2)])
  | .restart => do
    let s' ← (openStore sha s.file sourceIdentity maxEntries).2
    pure (s', [])

/-- The outbox after a list of events, and the calls it has answered. -/
def run (s : Store) (actions : List Action) : Result (Store × List (Call × Result Answer)) :=
  collect (act sha sourceIdentity maxEntries) s actions

/-- A store of a run: its file backs it and every answer is recorded. -/
structure Sound (s : Store) (log : List (Call × Result Answer)) : Prop where
  backed : ∃ next, s.Backed sha (Store.identity sourceIdentity maxEntries)
    ⟨.empty, maxEntries⟩ next
  bounded : s.state.Bounded
  recorded : ∀ c a, (c, .ok a) ∈ log → Recorded s.state c a

variable {sha sourceIdentity maxEntries} {s s' : Store} {log : List (Call × Result Answer)}

theorem Sound.follows (h : Sound sha sourceIdentity maxEntries s log)
    (hnext : Follows sha (Store.identity sourceIdentity maxEntries) ⟨.empty, maxEntries⟩ s s') :
    Sound sha sourceIdentity maxEntries s' log where
  backed := hnext.backed
  bounded := hnext.bounded h.bounded
  recorded c a hmem := (h.recorded c a hmem).mono hnext.extends

/-- What an outbox that could be opened on an empty directory looks like. -/
theorem openStore_empty {f₀ : Bytes} {s₀ : Store}
    (hopen : openStore sha [] sourceIdentity maxEntries = (f₀, .ok s₀)) :
    (∀ file, openStore sha file sourceIdentity maxEntries =
      openJournal sha file (Store.identity sourceIdentity maxEntries) ⟨.empty, maxEntries⟩) ∧
    (Store.identity sourceIdentity maxEntries).length ≤ MAX ∧
    Sound sha sourceIdentity maxEntries s₀ [] := by
  unfold openStore at hopen ⊢
  split_ifs at hopen ⊢ with hcap
  · cases hopen
  · obtain ⟨hid, hholds⟩ := openJournal_empty hopen
    refine ⟨fun _ => rfl, hid, ⟨none, .settled hholds⟩, ?_, by simp⟩
    have hstate : s₀.state = ⟨.empty, maxEntries⟩ := by
      have hreplays := hholds.replays
      generalize s₀.state = m at hreplays
      cases hreplays
      rfl
    intro k e he
    rw [hstate] at he
    cases he

section
variable (hid : (Store.identity sourceIdentity maxEntries).length ≤ MAX)
  (hreopen : ∀ file, openStore sha file sourceIdentity maxEntries =
    openJournal sha file (Store.identity sourceIdentity maxEntries) ⟨.empty, maxEntries⟩)
  (h : Sound sha sourceIdentity maxEntries s log)
include hid hreopen h

/-- One event succeeds, keeps the invariant and extends the state. -/
theorem Sound.act (x : Action) :
    ∃ s' out, SealedOutbox.act sha sourceIdentity maxEntries s x = .ok (s', out) ∧
      Sound sha sourceIdentity maxEntries s' (log ++ out) ∧ s.state.Extends s'.state := by
  obtain ⟨next, hback⟩ := h.backed
  cases x with
  | call c fault =>
    obtain ⟨hfollows, hrec⟩ := perform_answers hback fault c
    refine ⟨_, _, rfl, ?_, hfollows.extends⟩
    have hkept := h.follows hfollows
    refine ⟨hkept.backed, hkept.bounded, ?_⟩
    intro c' a hmem
    rcases mem_append.1 hmem with hmem | hmem
    · exact hkept.recorded c' a hmem
    · obtain ⟨rfl, hr⟩ := Prod.mk.inj (mem_singleton.1 hmem)
      exact hrec a hr.symm
  | restart =>
    obtain ⟨f, s', hopen, hback', hstate⟩ := hback.reopen hid
    have hfollows : Follows sha (Store.identity sourceIdentity maxEntries) ⟨.empty, maxEntries⟩
        s s' := by
      refine ⟨⟨none, hback'⟩, hstate.imp_right ?_⟩
      rintro ⟨e, out, happly⟩
      obtain ⟨e', -, hstep⟩ := apply_eq_ok happly
      exact State.step_replaces hstep
    refine ⟨s', [], ?_, by simpa using h.follows hfollows, hfollows.extends⟩
    simp only [SealedOutbox.act, hreopen, hopen, ok_bind, pure_eq_ok]

/-- A run succeeds, keeps the invariant and extends the state. -/
theorem Sound.run (actions : List Action) :
    ∃ s' out, SealedOutbox.run sha sourceIdentity maxEntries s actions = .ok (s', out) ∧
      Sound sha sourceIdentity maxEntries s' (log ++ out) ∧ s.state.Extends s'.state := by
  have hround (t : Store) (before : List (Call × Result Answer)) (x : Action)
      (ht : Sound sha sourceIdentity maxEntries t before ∧ s.state.Extends t.state) :
      ∃ t' out, SealedOutbox.act sha sourceIdentity maxEntries t x = .ok (t', out) ∧
        Sound sha sourceIdentity maxEntries t' (before ++ out) ∧ s.state.Extends t'.state := by
    obtain ⟨t', out, hact, hsound, hext⟩ := ht.1.act hid hreopen x
    exact ⟨t', out, hact, hsound, ht.2.trans hext⟩
  exact collect_total hround actions ⟨h, .refl _⟩

end

/-- Two recorded answers of one slot agree. -/
theorem Sound.unique (h : Sound sha sourceIdentity maxEntries s log) {c c' : Call} {a a' : Answer}
    {x : Slot} (hmem : (c, .ok a) ∈ log) (hmem' : (c', .ok a') ∈ log) (hx : c.slot = some x)
    (hx' : c'.slot = some x) : a = a' :=
  ((h.recorded c a hmem).bound hx).unique ((h.recorded c' a' hmem').bound hx')

end Runs

/-- Between any two points of any run the entries only grow, no entry has more than eight
refinements, and all successful answers to calls on one slot are equal. A draft with
other content for a bound nullifier is refused; another credential for a capsule or a
final capsule that is set is answered with the retained bytes. A refinement is answered with its
capsule until its outer credential is attached, and with its final capsule from then on. -/
theorem outbox_immutable {sha : Wire.Digest} {sourceIdentity : Bytes} {maxEntries : Nat}
    {f₀ : Bytes} {s₀ : Store}
    (hopen : openStore sha [] sourceIdentity maxEntries = (f₀, .ok s₀))
    (before after : List Action) :
    ∃ s log s' log', run sha sourceIdentity maxEntries s₀ before = .ok (s, log) ∧
      run sha sourceIdentity maxEntries s after = .ok (s', log') ∧
      s.state.Extends s'.state ∧ s.state.Bounded ∧
      (∀ c a c' a' x, (c, .ok a) ∈ log ++ log' → (c', .ok a') ∈ log ++ log' →
        c.slot = some x → c'.slot = some x → a = a') ∧
      (∀ party sequence message recipient publicKey nonce fault e,
        s.state.entries.get? (nullifier party sequence) = some e →
        ¬ (e.party = party ∧ e.message = message ∧ e.recipient = recipient ∧
          e.publicKey = publicKey) →
        prepare sha s party sequence message recipient publicKey nonce fault =
          (s, .error "public nullifier body/recipient/key conflict")) ∧
      (∀ r credential transit fault raw,
        s.state.Has r.key r.commitment (fun e => e.capsule = some raw) →
        sealDraft sha s r credential transit fault = (s, .ok raw)) ∧
      (∀ r credential fault raw,
        s.state.Has r.key r.commitment (fun e => e.finalCapsule = some raw) →
        attachOuter sha s r credential fault = (s, .ok raw)) ∧
      (∀ v raw, refinedCapsule s v = .ok raw ↔ ∃ w, s.state.Has v.key v.commitment
          (fun e => e.refinements.get? v.credential = some w) ∧
        (w.finalCapsule = some raw ∨ w.finalCapsule = none ∧ w.capsule = raw)) := by
  obtain ⟨hreopen, hid, hsound₀⟩ := openStore_empty hopen
  obtain ⟨s, log, hrun, hsound, -⟩ := hsound₀.run hid hreopen before
  obtain ⟨s', log', hrun', hsound', hext⟩ := hsound.run hid hreopen after
  refine ⟨s, log, s', log', hrun, hrun', hext, hsound.bounded, ?_, ?_, ?_, ?_, ?_⟩
  · intro c a c' a' x hmem hmem' hx hx'
    exact hsound'.unique hmem hmem' hx hx'
  · intro party sequence message recipient publicKey nonce fault e he hne
    simp only [prepare, he]
    exact if_pos (by simpa only [not_and_or] using hne)
  · rintro r credential transit fault raw ⟨e, he, hcommit, hraw⟩
    simp only [sealDraft, entryFor_eq_ok.2 ⟨he, hcommit⟩, hraw]
  · rintro r credential fault raw ⟨e, he, hcommit, hraw⟩
    simp only [attachOuter, entryFor_eq_ok.2 ⟨he, hcommit⟩, hraw]
  · intro v raw
    simp only [refinedCapsule, bind_eq_ok, version_eq_ok, pure_inj, Option.getD_eq_iff]

/-! ## A run on one draft -/

namespace Sample

def party : CommitteeParty :=
  ⟨⟨.acs, ⟨new 1, [1], new 1, new 1, new 1⟩, new 1,
    [1], 0, [1]⟩, 0, [1], new 1, [1], [1]⟩

def publicKey : Bytes := [7]

def recipient : RecipientSpec :=
  ⟨new 2, new 1, recipientKeyId publicKey, 512⟩

def message : Bytes := [42]

def nonce : Wire.Fixed 32 := .zeros 32

def commitment : Wire.Fixed 64 :=
  semanticCommitment nonce (Envelope.signingBytes ⟨party, 0, message, [1]⟩)

def receipt : DraftReceipt := ⟨nullifier party 0, party, 0, commitment, recipient⟩

/-- The parts of a capsule of the right shape. -/
def parts : SealedParts :=
  ⟨.zeros _, .zeros 24, .zeros 32, replicate 528 0⟩

def transit : Transit := fun _ _ _ _ => some parts

/-- The capsule with an outer credential, or with none. -/
def capsule (outer : Bytes) : SealedIngress :=
  ⟨party, 0, recipient, commitment, parts.hybridCiphertext, parts.nonce, parts.commitment,
    parts.ciphertext, outer⟩

def identity : Bytes := Store.identity [1] 2

def prepare : Call := .prepare party 0 message recipient publicKey (.ok nonce)

def innerBytes : Bytes := (capsule []).encoding

section Run
variable (sha : Wire.Digest)

/-- The outbox before its first call. -/
def fresh : Store := Journal.fresh sha identity ⟨.empty, 2⟩

theorem fresh_opens : openStore sha [] [1] 2 = (header sha identity, .ok (fresh sha)) := by
  have hcap : ¬ (2 = 0 ∨ 2 > 65536) := by decide
  have hid : identity.length ≤ MAX := by decide
  have hpos : ([] : Bytes).length < (header sha identity).length := by
    simp only [header, length_append, sha.length_digest, length_nil]
    omega
  rw [openStore, if_neg hcap]
  exact openJournal_header sha identity [] hid _ nil_prefix hpos

end Run

theorem sealed_bytes :
    (sealDraft sha256 (perform sha256 (fresh sha256) none prepare).1
      receipt [1] transit none).2 = .ok innerBytes ∧
    (sealDraft sha256 (perform sha256
      (perform sha256 (fresh sha256) none prepare).1 none
      (.sealDraft receipt [1] transit)).1 receipt [3] transit none).2 = .ok innerBytes := by
  decide +kernel

end Sample

section
variable {sha : Wire.Digest} {s : Store} {r : DraftReceipt} {raw credential : Bytes}

theorem perform_sealDraft {transit : Transit}
    (h : (sealDraft sha s r credential transit none).2 = .ok raw) :
    (perform sha s none (.sealDraft r credential transit)).2 = .ok (.capsule raw) := by
  simp only [perform, h, Except.map]

/-- Three calls, each on the outbox the one before it has left. -/
theorem run_calls {sourceIdentity : Bytes} {maxEntries : Nat} {c c' c'' : Call} {a' a'' : Answer}
    (ha' : (perform sha (perform sha s none c).1 none c').2 = .ok a')
    (ha'' : (perform sha (perform sha (perform sha s none c).1 none c').1 none c'').2 = .ok a'') :
    ∃ log, run sha sourceIdentity maxEntries s [.call c none, .call c' none, .call c'' none] =
        .ok ((perform sha (perform sha (perform sha s none c).1 none c').1 none c'').1, log) ∧
      (c', .ok a') ∈ log ∧ (c'', .ok a'') ∈ log := by
  rw [← ha', ← ha'']
  exact ⟨_, rfl, by simp, by simp⟩

end

theorem outbox_immutable_sample :
    ∃ s log s' log', run sha256 [1] 2 (Sample.fresh sha256)
        [.call Sample.prepare none, .call (.sealDraft Sample.receipt [1] Sample.transit) none] =
          .ok (s, log) ∧
      run sha256 [1] 2 s [.restart, .call (.attachOuter Sample.receipt [2]) none] =
        .ok (s', log') ∧
      s.state.Extends s'.state := by
  obtain ⟨s, log, s', log', hrun, hrun', hext, -⟩ :=
    outbox_immutable (Sample.fresh_opens sha256)
      [.call Sample.prepare none, .call (.sealDraft Sample.receipt [1] Sample.transit) none]
      [.restart, .call (.attachOuter Sample.receipt [2]) none]
  exact ⟨s, log, s', log', hrun, hrun', hext⟩

/-- A second sealing with another credential is not refused: it is answered with the
capsule of the first. -/
theorem other_credential_answered :
    ∃ s log, run sha256 [1] 2 (Sample.fresh sha256)
        [.call Sample.prepare none, .call (.sealDraft Sample.receipt [1] Sample.transit) none,
          .call (.sealDraft Sample.receipt [3] Sample.transit) none] = .ok (s, log) ∧
      (.sealDraft Sample.receipt [1] Sample.transit, .ok (.capsule Sample.innerBytes)) ∈ log ∧
      (.sealDraft Sample.receipt [3] Sample.transit, .ok (.capsule Sample.innerBytes)) ∈ log := by
  have hseal := perform_sealDraft Sample.sealed_bytes.1
  have hagain := perform_sealDraft Sample.sealed_bytes.2
  exact ⟨_, run_calls hseal hagain⟩

end MiniDregg.PrivateBackend.SealedOutbox
