import MiniDregg.PrivateBackend.DurableMachine
import MiniDregg.PrivateBackend.RecipientSeal
import MiniDregg.Store.WriteOnce
import MiniDregg.Wire.Order

/-!
# The sealed outbox

Drafts, capsules and refined capsules of an endpoint, kept under their nullifiers
behind a transition WAL. Every call reads the retained entry first and appends an event
only for what is not there yet.

## Implementation notes

`Event.read` and `State.step` are the two halves of `State::apply`: each of its arms
reads every field of the event before its first check. What a call draws at random (the
hiding nonce, the randomness of the sealing) and the outcome of the writes are
parameters of the call.
-/

namespace MiniDregg.PrivateBackend.SealedOutbox

open Fallible TransitionJournal Cursor
open MiniDregg.Store (OrderedMap)
open Wire (Octets)

def nullifier (party : CommitteeParty) (sequence : UInt64) : Bytes :=
  ascii "DREGG.PRIVATE.SEALED.NULLIFIER\x02" ++ party.context.protocol.code ::
    party.context.generation.put ++ bytes party.context.session ++ le16 party.party ++
    le64 sequence

def MAX_REFINEMENTS : Nat := 8

structure RefinedVersion where
  capsule : Bytes
  finalCapsule : Option Bytes

structure Entry where
  party : CommitteeParty
  sequence : UInt64
  message : Bytes
  recipient : RecipientSpec
  publicKey : Bytes
  hidingNonce : Wire.Fixed 32
  commitment : Wire.Fixed 64
  capsule : Option Bytes
  innerCredential : Option Bytes
  finalCapsule : Option Bytes
  refinements : OrderedMap Octets RefinedVersion

def Entry.draft (e : Entry) : Result HidingDraft :=
  HidingDraft.fromRetained e.party e.sequence e.message e.recipient e.hidingNonce

structure State where
  entries : OrderedMap Octets Entry
  maxEntries : Nat

/-! ## Events -/

inductive Event
  | draft (party : CommitteeParty) (sequence : UInt64) (recipient : RecipientSpec)
      (publicKey : Bytes) (hidingNonce : Wire.Fixed 32) (message : Bytes)
  | inner (key credential capsule : Bytes)
  | outer (key credential : Bytes)
  | refined (key credential capsule : Bytes)
  | refinedOuter (key inner outer : Bytes)

namespace Event

def encode : Event → Bytes
  | draft party sequence recipient publicKey hidingNonce message =>
    0 :: bytes party.encode ++ le64 sequence ++ recipient.put ++ bytes publicKey ++
      hidingNonce.1 ++ bytes message
  | inner key credential capsule => 1 :: bytes key ++ bytes credential ++ bytes capsule
  | outer key credential => 2 :: bytes key ++ bytes credential
  | refined key credential capsule => 3 :: bytes key ++ bytes credential ++ bytes capsule
  | refinedOuter key inner' outer' => 4 :: bytes key ++ bytes inner' ++ bytes outer'

def readDraft (c : Bytes) : Result Event := do
  let (p, c) ← Cursor.bytes c
  let party ← CommitteeParty.decode p
  let (sequence, c) ← u64 c
  let (recipient, c) ← RecipientSpec.get c
  let (publicKey, c) ← Cursor.bytes c
  let (hidingNonce, c) ← take 32 c
  let (message, c) ← Cursor.bytes c
  finish c
  pure (draft party sequence recipient publicKey hidingNonce message)

/-- Two byte strings and the end of the event. -/
def read₂ (make : Bytes → Bytes → Event) (c : Bytes) : Result Event := do
  let (x, c) ← Cursor.bytes c
  let (y, c) ← Cursor.bytes c
  finish c
  pure (make x y)

/-- Three byte strings and the end of the event. -/
def read₃ (make : Bytes → Bytes → Bytes → Event) (c : Bytes) : Result Event := do
  let (x, c) ← Cursor.bytes c
  let (y, c) ← Cursor.bytes c
  let (z, c) ← Cursor.bytes c
  finish c
  pure (make x y z)

/-- The fields of an event behind its tag. -/
def readBody (tag : UInt8) (c : Bytes) : Result Event :=
  if tag = 0 then readDraft c
  else if tag = 1 then read₃ inner c
  else if tag = 2 then read₂ outer c
  else if tag = 3 then read₃ refined c
  else if tag = 4 then read₃ refinedOuter c
  else .error "sealed draft event"

def read (event : Bytes) : Result Event := do
  let c ← new event
  let (tag, c) ← byte c
  readBody tag c

end Event

/-! ## Transitions -/

namespace State

/-- The entry of a draft that has not been sealed. -/
def drafted (party : CommitteeParty) (sequence : UInt64) (recipient : RecipientSpec)
    (publicKey : Bytes) (hidingNonce : Wire.Fixed 32) (message : Bytes)
    (commitment : Wire.Fixed 64) : Entry :=
  ⟨party, sequence, message, recipient, publicKey, hidingNonce, commitment, none, none, none,
    .empty⟩

variable (s : State)

def entry (key : Bytes) (missing : String) : Result Entry :=
  okOr (s.entries.get? key) missing

/-- A capsule that does not belong to the entry or already has an outer credential. -/
def foreign (e : Entry) (capsule : SealedIngress) : Bool :=
  decide (capsule.party ≠ e.party) || decide (capsule.sequence ≠ e.sequence) ||
    decide (capsule.recipient ≠ e.recipient) ||
    decide (capsule.semanticCommitment ≠ e.commitment) ||
    !capsule.outerNativeCredential.isEmpty

def stepDraft (party : CommitteeParty) (sequence : UInt64)
    (recipient : RecipientSpec) (publicKey : Bytes) (hidingNonce : Wire.Fixed 32)
    (message : Bytes) : Result (State × Bytes) := do
  let key := nullifier party sequence
  refuseIf (s.entries.contains key || decide (s.entries.entries.length ≥ s.maxEntries))
    "duplicate/capacity draft event"
  refuseIf (decide (recipientKeyId publicKey ≠ recipient.keyId))
    "draft recipient enrollment binding"
  let draft ← HidingDraft.fromRetained party sequence message recipient hidingNonce
  pure (⟨s.entries.insert key
    (drafted party sequence recipient publicKey hidingNonce message draft.commitment),
    s.maxEntries⟩, draft.commitment.1)

def stepInner (key credential capsule : Bytes) : Result (State × Bytes) := do
  let e ← s.entry key "unknown draft"
  let sealedCapsule ← SealedIngress.decode capsule
  refuseIf (e.capsule.isSome || credential.isEmpty || foreign e sealedCapsule)
    "sealed draft binding/conflicting retry"
  pure (⟨s.entries.insert key
    { e with innerCredential := some credential, capsule := some capsule }, s.maxEntries⟩, capsule)

def stepOuter (key credential : Bytes) : Result (State × Bytes) := do
  let e ← s.entry key "unknown outer draft"
  refuseIf (credential.isEmpty || e.finalCapsule.isSome) "outer credential duplicate/empty"
  let raw ← okOr e.capsule "inner seal pending"
  let sealedCapsule ← SealedIngress.decode raw
  let final ← SealedIngress.encode { sealedCapsule with outerNativeCredential := credential }
  pure (⟨s.entries.insert key { e with finalCapsule := some final }, s.maxEntries⟩, final)

def stepRefined (key credential capsule : Bytes) : Result (State × Bytes) := do
  let e ← s.entry key "unknown refinement draft"
  let sealedCapsule ← SealedIngress.decode capsule
  refuseIf (e.capsule.isNone || credential.isEmpty ||
    decide (e.innerCredential = some credential) || e.refinements.contains credential ||
    decide (e.refinements.entries.length ≥ MAX_REFINEMENTS) || foreign e sealedCapsule)
    "refinement bound/duplicate/context"
  pure (⟨s.entries.insert key
    { e with refinements := e.refinements.insert credential ⟨capsule, none⟩ }, s.maxEntries⟩,
    capsule)

def stepRefinedOuter (key inner outer : Bytes) : Result (State × Bytes) := do
  let e ← s.entry key "unknown refinement outer"
  let v ← okOr (e.refinements.get? inner) "unknown refined credential"
  refuseIf (outer.isEmpty || v.finalCapsule.isSome) "refined outer duplicate/empty"
  let sealedCapsule ← SealedIngress.decode v.capsule
  let raw ← SealedIngress.encode { sealedCapsule with outerNativeCredential := outer }
  pure (⟨s.entries.insert key
    { e with refinements := e.refinements.insert inner { v with finalCapsule := some raw } },
    s.maxEntries⟩, raw)

def step : Event → Result (State × Bytes)
  | .draft party sequence recipient publicKey hidingNonce message =>
    s.stepDraft party sequence recipient publicKey hidingNonce message
  | .inner key credential capsule => s.stepInner key credential capsule
  | .outer key credential => s.stepOuter key credential
  | .refined key credential capsule => s.stepRefined key credential capsule
  | .refinedOuter key inner outer => s.stepRefinedOuter key inner outer

end State

instance : Machine State where
  apply s event := do
    let e ← Event.read event
    s.step e

/-! ## Calls -/

structure DraftReceipt where
  key : Bytes
  party : CommitteeParty
  sequence : UInt64
  commitment : Wire.Fixed 64
  recipient : RecipientSpec

structure VersionReceipt where
  key : Bytes
  credential : Bytes
  commitment : Wire.Fixed 64

abbrev Store := TransitionJournal.Journal State

namespace Store

def identity (sourceIdentity : Bytes) (maxEntries : Nat) : Bytes :=
  ascii "DREGG.PRIVATE.SEALED.OUTBOX.WAL\x02" ++ bytes sourceIdentity ++
    (CodecNat.new maxEntries).put

/-- `Store::open`. -/
def openStore (sha : Wire.Digest) (file sourceIdentity : Bytes) (maxEntries : Nat) :
    Bytes × Result Store :=
  if maxEntries = 0 ∨ maxEntries > 65536 then (file, .error "sealed draft public capacity")
  else openJournal sha file (identity sourceIdentity maxEntries) ⟨.empty, maxEntries⟩

variable (sha : Wire.Digest) (s : Store)

/-- The entry a receipt names, when the receipt carries its commitment. -/
def entryFor (key : Bytes) (commitment : Wire.Fixed 64) (missing other : String) :
    Result Entry := do
  let e ← s.state.entry key missing
  refuseIf (decide (e.commitment ≠ commitment)) other
  pure e

/-- Append an event and answer with what its application returned. -/
def record (event : Event) (fault : Option WriteFault) : Store × Result Bytes :=
  s.append sha event.encode fault

def prepare (party : CommitteeParty) (sequence : UInt64) (message : Bytes)
    (recipient : RecipientSpec) (publicKey : Bytes) (nonce : Result (Wire.Fixed 32))
    (fault : Option WriteFault) : Store × Result DraftReceipt :=
  let key := nullifier party sequence
  match s.state.entries.get? key with
  | some old =>
    if old.party ≠ party ∨ old.message ≠ message ∨ old.recipient ≠ recipient ∨
        old.publicKey ≠ publicKey then
      (s, .error "public nullifier body/recipient/key conflict")
    else (s, .ok ⟨key, party, sequence, old.commitment, recipient⟩)
  | none =>
    match HidingDraft.new party sequence message recipient nonce with
    | .error e => (s, .error e)
    | .ok draft =>
      match record sha s (.draft party sequence recipient publicKey draft.hidingNonce message)
        fault with
      | (s', .error e) => (s', .error e)
      | (s', .ok _) =>
        match s'.state.entries.get? key with
        | none => (s', .error "index of a missing entry")
        | some actual => (s', .ok ⟨key, party, sequence, actual.commitment, recipient⟩)

/-- The capsule of an entry under a credential. -/
def sealEntry (e : Entry) (credential : Bytes) (transit : Transit) : Result Bytes := do
  let draft ← e.draft
  let sealedCapsule ← draft.«seal» credential e.publicKey transit
  sealedCapsule.encode

section
variable (receipt : DraftReceipt) (credential : Bytes) (transit : Transit)
  (fault : Option WriteFault)

/-- `Store::seal`. -/
def sealDraft : Store × Result Bytes :=
  match entryFor s receipt.key receipt.commitment "draft receipt scope"
    "draft receipt semantic scope" with
  | .error e => (s, .error e)
  | .ok e =>
    match e.capsule with
    | some raw => (s, .ok raw)
    | none =>
      match sealEntry e credential transit with
      | .error x => (s, .error x)
      | .ok raw => record sha s (.inner receipt.key credential raw) fault

def attachOuter : Store × Result Bytes :=
  match entryFor s receipt.key receipt.commitment "draft outer receipt scope"
    "draft outer semantic scope" with
  | .error e => (s, .error e)
  | .ok e =>
    match e.finalCapsule with
    | some raw => (s, .ok raw)
    | none => record sha s (.outer receipt.key credential) fault

def refineInner : Store × Result VersionReceipt :=
  let version : VersionReceipt := ⟨receipt.key, credential, receipt.commitment⟩
  match s.state.entry receipt.key "refinement receipt scope" with
  | .error e => (s, .error e)
  | .ok e =>
    if e.commitment ≠ receipt.commitment ∨ credential = [] ∨ e.capsule = none ∨
        e.innerCredential = some credential then
      (s, .error "refinement requires distinct retained credential")
    else if e.refinements.contains credential then (s, .ok version)
    else if e.refinements.entries.length ≥ MAX_REFINEMENTS then
      (s, .error "public refinement lifetime exhausted")
    else
      match sealEntry e credential transit with
      | .error x => (s, .error x)
      | .ok raw =>
        match record sha s (.refined receipt.key credential raw) fault with
        | (s', .error x) => (s', .error x)
        | (s', .ok _) => (s', .ok version)

end

section
variable (receipt : VersionReceipt)

/-- The refinement a receipt names. -/
def version (missing other unknown : String) :
    Result RefinedVersion := do
  let e ← entryFor s receipt.key receipt.commitment missing other
  okOr (e.refinements.get? receipt.credential) unknown

/-- The current form of a refinement. -/
def refinedCapsule : Result Bytes := do
  let v ← version s receipt "refined receipt scope" "refined semantic scope"
    "refined credential scope"
  pure (v.finalCapsule.getD v.capsule)

def attachRefinedOuter (credential : Bytes)
    (fault : Option WriteFault) : Store × Result Bytes :=
  match version s receipt "refined outer scope" "refined outer semantic scope"
    "refined outer credential scope" with
  | .error e => (s, .error e)
  | .ok v =>
    match v.finalCapsule with
    | some raw => (s, .ok raw)
    | none => record sha s (.refinedOuter receipt.key receipt.credential credential) fault

end

def retainedCapsule (receipt : DraftReceipt) (exact_ : Bytes) : Result Bytes := do
  let e ← entryFor s receipt.key receipt.commitment "retained version scope"
    "retained version semantic scope"
  if e.finalCapsule.or e.capsule = some exact_ then pure exact_
  else if e.refinements.values.any fun v => decide (v.finalCapsule.getD v.capsule = exact_) then
    pure exact_
  else .error "source selected capsule was never retained"

end Store

end MiniDregg.PrivateBackend.SealedOutbox
