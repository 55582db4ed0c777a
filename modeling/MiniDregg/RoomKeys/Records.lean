import MiniDregg.Control.Fallible
import MiniDregg.Wire.BigEndian

/-!
# The records of a private room's keys cell

The founder of a private room writes four kinds of signed records into the keys cell of the
room: epoch certificates inside wraps of the room key, release records that name a wrap
before it is disclosed, and transitions that hand the room to the founder's next key. Each
kind has one statement that is signed, and one address.

## Implementation notes

The digest and the signature scheme are parameters. A record is its fields: the byte
layout of a payload is fixed-length, so an atom of the right length is some record, and the
reader's checks of address against statement hold by construction here. An address is the
number that its decimal text spells. A wrap's encrypted part is opaque.
-/

namespace MiniDregg.RoomKeys

open Fallible Wire List

abbrev Digest := Fixed 32

/-- A public signing key. -/
abbrev Key := Fixed 32

abbrev Signature := Fixed 64

/-- The primitives that the records rest on. -/
structure Crypto where
  /-- cSHAKE256 with the customization of the room lineage. -/
  cshake : Bytes → Digest
  /-- Whether the bytes are a public key. -/
  isKey : Key → Bool
  verifyStrict : Key → Bytes → Signature → Bool

/-- The largest room-key epoch. -/
def MAX_EPOCH : Nat := 2 ^ 30 - 1

def wrapAtomId (epoch gen : UInt32) (member : UInt64) : Nat :=
  (epoch.toNat + 1) * 2 ^ 96 + gen.toNat * 2 ^ 64 + member.toNat

def releaseAtomId (epoch gen : UInt32) (member : UInt64) : Nat :=
  (2 ^ 30 + 1 + epoch.toNat) * 2 ^ 96 + gen.toNat * 2 ^ 64 + member.toNat

/-- The parent that a first certificate names. -/
def zeroDigest : Digest := .zeros 32

/-- A certificate of one epoch of the room key. -/
structure EpochCertificate where
  room : UInt64
  keys : UInt64
  epoch : UInt32
  parent : Digest
  keyCommitment : Digest
  signer : UInt64
  signerEpoch : UInt32
  signerPublic : Key
  signature : Signature
  deriving DecidableEq

/-- How a wrap is vouched for: its epoch's certificate, and the signature of its delivery. -/
structure WrapAttestation where
  certificate : EpochCertificate
  signer : UInt64
  signerEpoch : UInt32
  signerPublic : Key
  signature : Signature
  deriving DecidableEq

/-- The room key of an epoch, encrypted to one member. -/
structure WrapAtom where
  epoch : UInt32
  gen : UInt32
  member : UInt64
  encId : Digest
  wrapped : Fixed 1192
  grant : UInt64
  attestation : Option WrapAttestation
  deriving DecidableEq

/-- The record that names a wrap before it is disclosed. -/
structure ReleaseStatement where
  room : UInt64
  keys : UInt64
  epoch : UInt32
  certificate : Digest
  member : UInt64
  gen : UInt32
  record : Digest
  grant : UInt64
  commitment : Digest
  signerPublic : Key
  signature : Signature
  deriving DecidableEq

/-- The hand-over of the room from one founder key to the next. -/
structure FounderTransition where
  room : UInt64
  keys : UInt64
  index : UInt32
  afterEpoch : UInt32
  afterCertificate : Digest
  oldKey : Key
  newKey : Key
  oldSignature : Signature
  newSignature : Signature
  deriving DecidableEq

variable (c : Crypto)

def lineageDigest (parts : List Bytes) : Digest :=
  c.cshake (parts.flatMap fun part => toBeBytes 8 part.length ++ part)

/-- The frame of a statement, as bytes. -/
def frame (name : String) : Bytes := name.toList.map fun ch => UInt8.ofNat ch.toNat

/-- The key parses and the signature verifies under it. -/
def checkSigned (key : Key) (message : Bytes) (signature : Signature)
    (badKey badSignature : String) :
    Result Unit := do
  refuseIf (!c.isKey key) badKey
  refuseIf (!c.verifyStrict key message signature) badSignature

namespace EpochCertificate

variable (a : EpochCertificate)

def body : Bytes :=
  be64 a.room ++ (be64 a.keys ++ (be32 a.epoch ++ (a.parent.1 ++ (a.keyCommitment.1 ++
    (be64 a.signer ++ (be32 a.signerEpoch ++ a.signerPublic.1))))))

def statement : Bytes := frame "DREGG/PRIVATE-ROOM-EPOCH/v1" ++ [1] ++ a.body

def identity : Digest := lineageDigest c [a.statement]

def bytes : Bytes := a.body ++ a.signature.1

def checkSignature (actualPublic : Key) : Result Unit := do
  refuseIf (a.signerPublic ≠ actualPublic) "epoch signer differs from the pinned founder key"
  checkSigned c actualPublic a.statement a.signature "invalid epoch signing key"
    "epoch certificate signature is invalid"

end EpochCertificate

namespace WrapAtom

variable (w : WrapAtom)

def address : Nat := wrapAtomId w.epoch w.gen w.member

def unsignedPayload : Bytes := w.encId.1 ++ w.wrapped.1 ++ be64 w.grant

def payload : Bytes :=
  w.unsignedPayload ++ match w.attestation with
    | some a => a.certificate.bytes ++ be64 a.signer ++ be32 a.signerEpoch ++ a.signerPublic.1 ++
        a.signature.1
    | none => []

def payloadCommitment : Result Digest := do
  refuseIf w.attestation.isNone "unsigned wrap has no authorized delivery commitment"
  return lineageDigest c [w.payload]

def statement (certificate : EpochCertificate) (signer : UInt64)
    (signerEpoch : UInt32) (signerPublic : Key) : Bytes :=
  frame "DREGG/PRIVATE-AUTH-WRAP/v3" ++ [1] ++ be32 w.epoch ++ be32 w.gen ++ be64 w.member ++
    w.unsignedPayload ++ (certificate.identity c).1 ++ be64 signer ++ be32 signerEpoch ++
    signerPublic.1

/-- Both signatures of a wrap: that of its certificate and that of its delivery. -/
def checkSignatures (room keys : UInt64) (epochPublic deliveryPublic : Key) :
    Result Unit :=
  match w.attestation with
  | none => .error "unsigned room wrap is not authenticated lineage"
  | some a => do
    refuseIf (a.certificate.room ≠ room ∨ a.certificate.keys ≠ keys ∨
        a.certificate.epoch ≠ w.epoch ∨ a.signerPublic ≠ deliveryPublic)
      "signed wrap differs from room, keys cell, epoch or authorized delivery signer"
    a.certificate.checkSignature c epochPublic
    checkSigned c deliveryPublic
      (w.statement c a.certificate a.signer a.signerEpoch deliveryPublic) a.signature
      "invalid delivery signing key" "room wrap signature is invalid"

end WrapAtom

namespace ReleaseStatement

variable (r : ReleaseStatement)

def body : Bytes :=
  be64 r.room ++ be64 r.keys ++ be32 r.epoch ++ r.certificate.1 ++ be64 r.member ++ be32 r.gen ++
    r.record.1 ++ be64 r.grant ++ r.commitment.1 ++ r.signerPublic.1

def statement : Bytes :=
  frame "DREGG/PRIVATE-ROOM-RELEASE/v1" ++ [1] ++ r.body

def address : Nat := releaseAtomId r.epoch r.gen r.member

/-- The release names exactly this delivery. -/
def names (w : WrapAtom) : Result Unit :=
  match w.attestation with
  | none => .error "unsigned delivery"
  | some a => do
    let commitment ← w.payloadCommitment c
    let epoch := w.epoch.toNat
    let member := w.member.toNat
    refuseIf (r.epoch ≠ w.epoch ∨ r.gen ≠ w.gen ∨ r.member ≠ w.member ∨ r.grant ≠ w.grant ∨
        r.certificate ≠ a.certificate.identity c ∨ r.commitment ≠ commitment)
      s!"wrap at epoch {epoch} for {member} differs from the delivery its release committed to"

end ReleaseStatement

namespace FounderTransition

variable (t : FounderTransition)

def body : Bytes :=
  be64 t.room ++ be64 t.keys ++ be32 t.index ++ be32 t.afterEpoch ++ t.afterCertificate.1 ++
    t.oldKey.1 ++ t.newKey.1

def statement : Bytes :=
  frame "DREGG/PRIVATE-ROOM-FOUNDER-TRANSITION/v1" ++ [1] ++ t.body

/-- Both keys signed this statement, in this room and keys cell. -/
def check (room keys : UInt64) : Result Unit := do
  refuseIf (t.room ≠ room ∨ t.keys ≠ keys)
    "founder-key transition differs from its room or keys cell"
  refuseIf (t.oldKey = t.newKey) "a founder-key transition names a different key"
  checkSigned c t.oldKey t.statement t.oldSignature "pinned key is not an Ed25519 public key"
    "founder-key transition: the old key's signature does not verify"
  checkSigned c t.newKey t.statement t.newSignature "pinned key is not an Ed25519 public key"
    "founder-key transition: the new key's possession signature does not verify"

end FounderTransition

/-- What a certificate states, without its signature. -/
structure Statement where
  room : UInt64
  keys : UInt64
  epoch : UInt32
  parent : Digest
  keyCommitment : Digest
  signer : UInt64
  signerEpoch : UInt32
  signerPublic : Key
  deriving DecidableEq

def EpochCertificate.content (a : EpochCertificate) : Statement where
  room := a.room
  keys := a.keys
  epoch := a.epoch
  parent := a.parent
  keyCommitment := a.keyCommitment
  signer := a.signer
  signerEpoch := a.signerEpoch
  signerPublic := a.signerPublic

/-- The bytes of a statement determine what it states. -/
theorem EpochCertificate.content_eq_of_statement {a b : EpochCertificate}
    (h : a.statement = b.statement) : a.content = b.content := by
  have hbody : a.body = b.body := append_cancel_left h
  unfold body at hbody
  obtain ⟨hroom, hbody⟩ := append_inj hbody (by simp)
  obtain ⟨hkeys, hbody⟩ := append_inj hbody (by simp)
  obtain ⟨hepoch, hbody⟩ := append_inj hbody (by simp)
  obtain ⟨hparent, hbody⟩ := append_inj hbody (by rw [a.parent.2, b.parent.2])
  obtain ⟨hcommitment, hbody⟩ :=
    append_inj hbody (by rw [a.keyCommitment.2, b.keyCommitment.2])
  obtain ⟨hsigner, hbody⟩ := append_inj hbody (by simp)
  obtain ⟨hsignerEpoch, hpublic⟩ := append_inj hbody (by simp)
  simp only [content, Statement.mk.injEq]
  exact ⟨be64_injective hroom, be64_injective hkeys, be32_injective hepoch, Subtype.ext hparent,
    Subtype.ext hcommitment, be64_injective hsigner, be32_injective hsignerEpoch,
    Subtype.ext hpublic⟩

end MiniDregg.RoomKeys
