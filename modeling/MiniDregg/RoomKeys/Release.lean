import MiniDregg.Control.Durable
import MiniDregg.RoomKeys.Lineage
import MiniDregg.Wire.Order

/-!
# Releasing room keys

A release is drafted, bound and disclosed. Its draft is a directory of its own, with the
manifest, the encrypted key of a new epoch and one marker file for each later state. The
first turn writes the release records into the keys cell; a fresh view of the cell is read
back and checked; the second turn writes the wraps themselves. Starting a release kills every
other release of the room that is not disclosed.

## Implementation notes

The process works on its own directories, one call after another, and can die at every
operation on them. A file is published by renaming, so it is stored whole or not at all. What
the Host answers is an input of a call. The log is not part of the program: it records, in
order, what the results speak about. Handing over the wraps and hearing the answer are two
operations, so a call can fail between them.

The entries of the drafts directory are read in the order of their names. Encrypting the key
cache is a parameter, with the salt and nonce of a call.
-/

namespace MiniDregg.RoomKeys

open Fallible Store Durable
open Wire (Octets Fixed)

/-- The key of an epoch. -/
structure RoomKey where
  epoch : UInt32
  secret : Fixed 32
  deriving DecidableEq

/-- The founder-signed wrap and the release record that names it. -/
structure Delivery where
  wrap : WrapAtom
  release : ReleaseStatement
  deriving DecidableEq

/-- What a release is drafted from. -/
structure ReleaseSpec where
  room : UInt64
  keys : UInt64
  keysRef : String
  purpose : String
  headBefore : Option EpochHead
  /-- The key of a new epoch; none when held epochs are wrapped again. -/
  key : Option RoomKey
  deliveries : List Delivery
  deriving DecidableEq

/-- The manifest of a draft. -/
structure Manifest where
  operation : Digest
  proposal : String
  room : UInt64
  keysCell : UInt64
  keysRef : String
  purpose : String
  headBefore : Option EpochHead
  keyEpoch : Option UInt32
  deliveries : List Delivery
  encryptedKeyCommitment : Option Digest
  deriving DecidableEq

/-- The directory of a draft: `draft.json`, `draft-key.cache`, `applied.json`,
`disclosed.json` and `dead.json`. -/
structure Draft where
  manifest : Option Manifest
  cache : Option Bytes
  applied : Option (List Nat)
  disclosed : Option Unit
  dead : Option String
  deriving DecidableEq

/-- A directory just made. -/
def Draft.made : Draft := ⟨none, none, none, none, none⟩

inductive ReleaseState where
  | drafted
  | applied
  | disclosed
  | dead (why : String)
  deriving DecidableEq

def Draft.state (d : Draft) : ReleaseState :=
  match d.dead with
  | some reason => .dead reason
  | none =>
    if d.disclosed.isSome then .disclosed
    else if d.applied.isSome then .applied
    else .drafted

/-- What happened to the release of an operation. -/
inductive Event where
  /-- A readback of it was accepted. -/
  | accepted (operation : Digest)
  /-- Its wraps turn was handed to the Host. -/
  | handed (operation : Digest)
  /-- It died because another release of the room was started. -/
  | superseded (operation : Digest)
  /-- It died because its readback was refused. -/
  | refused (operation : Digest)
  deriving DecidableEq

/-- The drafts of a client, and what happened to them. -/
structure World where
  drafts : OrderedMap Octets Draft
  log : List Event
  deriving DecidableEq

/-- The name of the directory of an operation. -/
def directoryName (operation : Digest) : Octets := operation.1

namespace World

def empty : World := ⟨.empty, []⟩

variable (w : World)

def draft? (operation : Digest) : Option Draft :=
  w.drafts.get? (directoryName operation)

def setDraft (operation : Digest) (d : Draft) : World :=
  { w with drafts := w.drafts.insert (directoryName operation) d }

def changeDraft (operation : Digest) (f : Draft → Draft) : World :=
  { w with drafts := w.drafts.modify (directoryName operation) f }

def note (event : Event) : World := { w with log := w.log ++ [event] }

end World

/-- The encrypted key cache of a draft. -/
structure KeyCustody where
  /-- Encrypt one key of a room under a passphrase, with a salt and nonce. -/
  saveCache : Bytes → UInt64 → RoomKey → Nat → Bytes
  /-- The keys of all rooms in a cache, by epoch. -/
  loadCache : Bytes → Bytes → Result (List (UInt64 × RoomKey))

def validateName (value : String) : Result Unit :=
  refuseIf (value.isEmpty || decide (64 < value.length) ||
      !value.toList.all fun ch => ch.isAlphanum || ch == '-')
    "workspace name must contain 1..64 ASCII letters, digits or hyphens"

section Draft
variable (c : Crypto)

/-- The operation of a proposal in a room. -/
def operationOf (room : UInt64) (proposal : String) : Digest :=
  lineageDigest c [frame "DREGG/PRIVATE-ROOM-RELEASE-OPERATION/v1",
    frame (toString room.toNat), frame proposal]

def cacheCommitment (encrypted : Bytes) : Digest :=
  lineageDigest c [frame "DREGG/PRIVATE-ROOM-DRAFT-CACHE/v1", encrypted]

def keyCommitment (room keys : UInt64) (key : RoomKey) : Digest :=
  lineageDigest c [frame "DREGG/PRIVATE-ROOM-KEY/v1", Wire.be64 room, Wire.be64 keys,
    Wire.be32 key.epoch, key.secret.1]

/-- Read the manifest of a directory. -/
def Draft.load (operation : Digest) (d : Draft) : Result Manifest :=
  match d.manifest with
  | none => .error "room release draft is incomplete; it is never disclosed (start a new operation)"
  | some m => do
    refuseIf (m.operation ≠ operation) "retained room release operation differs"
    if m.keyEpoch.isSome then do
      let encrypted ← okOr d.cache "No such file or directory (os error 2)"
      let commitment ← okOr m.encryptedKeyCommitment
        "workspace record lacks encryptedKeyCommitmentHex"
      refuseIf (cacheCommitment c encrypted ≠ commitment)
        "retained release encrypted key differs; nothing is disclosed"
      return m
    else return m

/-- One delivery of a spec, its address not among those before it. -/
def ReleaseSpec.checkDelivery (spec : ReleaseSpec) (addresses : List Nat) (d : Delivery) :
    Result Unit :=
  match d.wrap.attestation with
  | none => .error "release draft requires signed deliveries"
  | some a => do
    d.release.names c d.wrap
    refuseIf (a.certificate.room ≠ spec.room ∨ a.certificate.keys ≠ spec.keys ∨
        d.wrap.address ∈ addresses)
      "retained deliveries differ from their room or repeat an address"
    match spec.key with
    | none => return ()
    | some key =>
      refuseIf (d.wrap.epoch ≠ key.epoch ∨ a.certificate.keyCommitment ≠
          keyCommitment c a.certificate.room a.certificate.keys key)
        "a new epoch's deliveries must all carry its key"

def ReleaseSpec.checkDeliveries (spec : ReleaseSpec) : List Nat → List Delivery → Result Unit
  | _, [] => .ok ()
  | addresses, d :: rest => do
    spec.checkDelivery c addresses d
    spec.checkDeliveries (d.wrap.address :: addresses) rest

variable (spec : ReleaseSpec)

def ReleaseSpec.check : Result Unit := do
  refuseIf (spec.deliveries.isEmpty || decide (64 < spec.deliveries.length))
    "a release carries 1..64 deliveries"
  spec.checkDeliveries c [] spec.deliveries

/-- One retained delivery, read back. -/
def Delivery.read (d : Delivery) : Result Delivery := do
  d.wrap.checkAddress
  d.release.checkAddress
  d.release.names c d.wrap
  return d

def Manifest.readDeliveries (m : Manifest) : Result (List Delivery) :=
  m.deliveries.mapM (Delivery.read c)

/-- The manifest of a spec, without the commitment of its key cache. -/
def ReleaseSpec.manifest (operation : Digest) (proposal : String) : Manifest where
  operation := operation
  proposal := proposal
  room := spec.room
  keysCell := spec.keys
  keysRef := spec.keysRef
  purpose := spec.purpose
  headBefore := spec.headBefore
  keyEpoch := spec.key.map (·.epoch)
  deliveries := spec.deliveries
  encryptedKeyCommitment := none

end Draft

section Readback
variable (c : Crypto)

/-- One delivery against the view that was read back. -/
def checkDelivered (lineage : Lineage) (records : List (UInt64 × Digest)) (me : UInt64)
    (members : List UInt64) (release : ReleaseStatement) : Result Unit := do
  let member := release.member.toNat
  refuseIf (lineage.releases.get? release.address ≠ some release)
    s!"the readback lacks this release's exact record for member {member}"
  refuseIf (lineage.wraps.any fun w =>
      w.epoch == release.epoch && w.gen == release.gen && w.member == release.member)
    "a wrap already exists at this delivery's address"
  if release.member = me then return ()
  else do
    refuseIf ((records.reverse.lookup release.member).any fun digest =>
        decide (digest ≠ release.record))
      s!"member {member} published a different recipient record after this release was drafted: the bound key is stale"
    refuseIf (!members.contains release.member)
      s!"member {member} no longer holds a grant under the room"

/-- The check of a fresh view after the release records were written. -/
def checkReadback (m : Manifest) (deliveries : List Delivery) (founder : Key) (me : UInt64)
    (view : View) (members : List UInt64) : Result Unit := do
  let lineage ← verifyLineage c m.room m.keysCell founder view none
  refuseIf (lineage.head ≠ m.headBefore) "the room's epoch moved after this release was drafted"
  deliveries.forM fun d => checkDelivered lineage view.records me members d.release

end Readback

/-- One call: which release of which room is run, with what is built when there is none, and
what the Host answers. -/
structure Call where
  room : UInt64
  proposal : String
  founder : Key
  me : UInt64
  passphrase : Bytes
  nonce : Nat
  build : Result ReleaseSpec
  view : View
  members : List UInt64

/-- What a disclosed release yields. -/
structure Released where
  key : Option RoomKey
  wraps : List WrapAtom
  deriving DecidableEq

section Files
variable (c : Crypto) (k : KeyCustody)

def load (operation : Digest) : Durable World (Option Manifest) := do
  let held ← read (·.draft? operation)
  match held with
  | none => return none
  | some d => do
    let m ← lift (d.load c operation)
    return some m

def state (operation : Digest) : Durable World ReleaseState :=
  read fun w => ((w.draft? operation).getD .made).state

/-- Publish a file of a draft once: a retry with the same content changes nothing. -/
def publish {α : Type} [DecidableEq α] (operation : Digest) (name : String)
    (file : Draft → Option α) (value : α) (effect : World → World) : Durable World Unit := do
  let held ← read fun w => (w.draft? operation).bind file
  match held with
  | some prior => refuseIf (prior ≠ value) s!"retained JSON differs from exact request: {name}"
  | none => write effect

variable (operation : Digest)

/-- Mark a release as dead, unless it is. -/
def kill (reason : String) (event : Event) : Durable World Unit := do
  let s ← state operation
  match s with
  | .dead _ => return ()
  | .disclosed => lift (.error "a disclosed release cannot be killed")
  | _ => publish operation "dead.json" (·.dead) reason fun w =>
    (w.changeDraft operation fun d => { d with dead := some reason }).note event

/-- The manifests of all directories, as far as they load. -/
def loadAll : List (Octets × Draft) → Result (List Manifest)
  | [] => .ok []
  | (name, d) :: rest =>
    if h : name.length = 32 then do
      let m ← d.load c ⟨name, h⟩
      let others ← loadAll rest
      return m :: others
    else loadAll rest

/-- The retained releases of a room. -/
def draftsOfRoom (room : UInt64) : Durable World (List Manifest) := do
  let entries ← read (·.drafts.entries)
  let all ← lift (loadAll c entries)
  return all.filter fun m => m.room == room

/-- Kill a release that is neither disclosed nor dead. -/
def supersedeOne (proposal : String) (m : Manifest) : Durable World Unit := do
  let s ← state m.operation
  let reason := s!"superseded by release {proposal}"
  match s with
  | .drafted => kill m.operation reason (.superseded m.operation)
  | .applied => kill m.operation reason (.superseded m.operation)
  | _ => return ()

def supersede (proposal : String) : List Manifest → Durable World Unit
  | [] => return ()
  | m :: rest => do
    supersedeOne proposal m
    supersede proposal rest

/-- Encrypt the key of a new epoch into the directory; the manifest with its commitment. -/
def stageKey (call : Call) (spec : ReleaseSpec) (m : Manifest) :
    Durable World Manifest :=
  match spec.key with
  | none => return m
  | some key => do
    write fun w => w.changeDraft operation fun d =>
      { d with cache := some (k.saveCache call.passphrase spec.room key call.nonce) }
    let held ← read fun w => (w.draft? operation).bind (·.cache)
    let encrypted ← lift (okOr held "No such file or directory (os error 2)")
    return { m with encryptedKeyCommitment := some (cacheCommitment c encrypted) }

/-- Draft a release: its directory, then the key cache, then the manifest. -/
def stage (call : Call) (spec : ReleaseSpec) : Durable World Manifest := do
  lift (spec.check c)
  elsewhere
  let held ← load c operation
  refuseIf held.isSome
    "room release operation already exists; it is resumed, never re-drafted"
  write fun w => w.setDraft operation .made
  let m ← stageKey c k operation call spec (spec.manifest operation call.proposal)
  publish operation "draft.json" (·.manifest) m fun w =>
    w.changeDraft operation fun d => { d with manifest := some m }
  let staged ← load c operation
  lift (okOr staged "retained room release draft disappeared")

/-- The key of a release, from its encrypted cache. -/
def releasedKey (passphrase : Bytes) (m : Manifest) :
    Durable World (Option RoomKey) :=
  match m.keyEpoch with
  | none => return none
  | some epoch => do
    let held ← read fun w => (w.draft? operation).bind (·.cache)
    let encrypted ← lift (okOr held "cannot read key cache")
    let ring ← lift (k.loadCache passphrase encrypted)
    let held := (ring.filter fun r => r.1 == m.room).map (·.2)
    refuseIf (held.map (·.epoch) ≠ [epoch])
      "retained release cache must contain exactly its committed epoch"
    let key ← lift (okOr (held.find? fun key => key.epoch == epoch)
      "retained release key absent")
    let deliveries ← lift (m.readDeliveries c)
    lift <| deliveries.forM fun d =>
      match d.wrap.attestation with
      | none => .error "unsigned delivery"
      | some a => refuseIf (a.certificate.keyCommitment ≠
          keyCommitment c a.certificate.room a.certificate.keys key)
          "retained draft key differs from the signed epoch commitment"
    return some key

end Files

section Run
variable (c : Crypto) (k : KeyCustody)

section
variable (operation : Digest) (call : Call)

/-- The draft of a call: the one that is retained, or a new one in place of all others. -/
def draftFor : Durable World Manifest := do
  let held ← load c operation
  match held with
  | some m => return m
  | none => do
    let spec ← lift call.build
    refuseIf (spec.room ≠ call.room) "release spec names another room"
    let others ← draftsOfRoom c call.room
    supersede call.proposal others
    stage c k operation call spec

/-- A turn that writes atoms into the keys cell carries at most 64. -/
def contentRequest (atoms : Nat) : Result Unit :=
  refuseIf (decide (atoms = 0) || decide (64 < atoms))
    s!"one keys write carries 1..64 atoms, not {atoms}"

variable (m : Manifest)

variable (deliveries : List Delivery)

/-- The first turn and the readback after it. -/
def bindRelease :
    Durable World Unit := do
  lift (contentRequest deliveries.length)
  -- The turn, the view and the members of the room.
  elsewhere
  elsewhere
  elsewhere
  let proposal := call.proposal
  match checkReadback c m deliveries call.founder call.me call.view call.members with
  | .error why => do
    kill operation why (.refused operation)
    lift (.error s!"release {proposal}: its records were bound but the readback refused; nothing was disclosed and this release is dead forever: {why}")
  | .ok _ => do
    remember (·.note (.accepted operation))
    let releases := deliveries.map (·.release.address)
    publish operation "applied.json" (·.applied) releases fun w =>
      w.changeDraft operation fun d => { d with applied := some releases }

def released :
    Durable World Released := do
  let key ← releasedKey c k operation call.passphrase m
  return { key := key, wraps := deliveries.map (·.wrap) }

/-- The second turn. -/
def disclose :
    Durable World Released := do
  let s ← state operation
  let proposal := call.proposal
  match s with
  | .dead why => lift (.error s!"release {proposal} died before disclosure ({why})")
  | _ => do
    lift (contentRequest deliveries.length)
    write (·.note (.handed operation))
    -- The answer of the Host, which can be lost.
    elsewhere
    publish operation "disclosed.json" (·.disclosed) () fun w =>
      w.changeDraft operation fun d => { d with disclosed := some () }
    released c k operation call m deliveries

end

/-- Run or resume a release through its states. -/
def runRelease (call : Call) : Durable World Released := do
  lift (validateName call.proposal)
  let operation := operationOf c call.room call.proposal
  let m ← draftFor c k operation call
  let deliveries ← lift (m.readDeliveries c)
  let s ← state operation
  let proposal := call.proposal
  match s with
  | .dead why => lift (.error
      s!"release {proposal} is dead and is never disclosed ({why}); start a new operation")
  | .disclosed => released c k operation call m deliveries
  | .applied => disclose c k operation call m deliveries
  | .drafted => do
    bindRelease c operation call m deliveries
    disclose c k operation call m deliveries

/-- Calls one after another, each with the fates of its operations. -/
def history (w : World) : List (Call × List Fate) → World
  | [] => w
  | (call, fates) :: rest => history (runRelease c k call w fates).2.1 rest

end Run

end MiniDregg.RoomKeys
