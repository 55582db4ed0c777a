import MiniDregg.PrivateBackend.AuthenticatedIngress
import MiniDregg.Wire.Sha2

/-!
# Capsules sealed to a recipient

A draft commits to a message under a hiding nonce; sealing it wraps the signed packet,
padded to the recipient's public bound, into a capsule. The capsule names its public
context in the clear and carries an outer credential that is attached later.

## Implementation notes

The sealing of `crypto_transit` draws randomness, so it is a parameter of each call: the
function it computes with the bytes it has drawn.
-/

namespace MiniDregg.PrivateBackend

open Fallible List Cursor CodecNat

/-! ## Recipients -/

def MAX_PLAINTEXT : Nat := 131168

def MAX_SEALED : Nat := 262078

def PAD : Bytes := ascii "DREGG.PRIVATE.RECIPIENT.PAD\x02"

structure RecipientSpec where
  algorithm : CodecNat
  keyEpoch : CodecNat
  keyId : Bytes
  plaintextBound : Nat
  deriving DecidableEq

namespace RecipientSpec

def validate (s : RecipientSpec) : Result Unit := do
  refuseIf (decide (s.algorithm = new 1))
    "recipient algorithm 1 is the pre-hybrid pure ML-KEM-768 suite: refused; the suite is algorithm 2, hybrid X25519 + ML-KEM-768"
  refuseIf (decide (s.algorithm ≠ new 2) || s.keyId.isEmpty ||
    decide (s.keyId.length > 128) || decide (s.plaintextBound < PAD.length + 37) ||
    decide (s.plaintextBound > MAX_PLAINTEXT)) "recipient suite/key/padding profile"

def epochBytes (s : RecipientSpec) : Bytes := s.keyEpoch.put

/-- `put_spec`. -/
def put (s : RecipientSpec) : Bytes :=
  s.algorithm.put ++ s.keyEpoch.put ++ bytes s.keyId ++ (new s.plaintextBound).put

/-- `get_spec` without its final validation, as the decoders of capsules read it. -/
def getFields : Wire.Reader String RecipientSpec := fun c => do
  let (algorithm, c) ← Cursor.nat c
  let (keyEpoch, c) ← Cursor.nat c
  let (keyId, c) ← Cursor.bytes c
  let (bound, c) ← Cursor.nat c
  let plaintextBound ← bound.value
  pure (⟨algorithm, keyEpoch, keyId, plaintextBound⟩, c)

/-- `get_spec`. -/
def get : Wire.Reader String RecipientSpec := fun c => do
  let (s, c) ← getFields c
  s.validate
  pure (s, c)

theorem put_delimited : Wire.Delimited put := by
  intro s s' rest rest' h
  obtain ⟨a, e, k, n⟩ := s
  obtain ⟨a', e', k', n'⟩ := s'
  simp only [put, append_assoc] at h
  obtain ⟨rfl, h₁⟩ := Reader.nat_delimited _ _ _ _ h
  obtain ⟨rfl, h₂⟩ := Reader.nat_delimited _ _ _ _ h₁
  obtain ⟨rfl, h₃⟩ := Reader.bytes_delimited _ _ _ _ h₂
  obtain ⟨rfl, h₄⟩ := Reader.new_delimited _ _ _ _ h₃
  exact ⟨rfl, h₄⟩

variable {s : RecipientSpec} {b rest : Bytes}

theorem getFields_eq_ok (h : getFields b = .ok (s, rest)) : b = s.put ++ rest := by
  simp only [getFields, bind_eq_ok, Prod.exists, pure_pair] at h
  obtain ⟨a, b₁, h₁, e, b₂, h₂, k, b₃, h₃, m, b₄, h₄, n, hn, rfl, rfl⟩ := h
  obtain rfl := (value_eq_ok.1 hn).2
  rw [nat_eq_ok h₁, nat_eq_ok h₂, bytes_eq_ok h₃, nat_eq_ok h₄]
  simp only [put, new_toNat, append_assoc]

theorem get_eq_ok (h : get b = .ok (s, rest)) : b = s.put ++ rest := by
  simp only [get, bind_eq_ok, Prod.exists, pure_pair] at h
  obtain ⟨s', b₁, h₁, -, -, rfl, rfl⟩ := h
  exact getFields_eq_ok h₁

end RecipientSpec

def recipientKeyId (publicKey : Bytes) : Bytes :=
  (Wire.sha512 (ascii "DREGG.PRIVATE.RECIPIENT.KEY.ID\x03" ++ bytes publicKey)).1

def semanticCommitment (hidingNonce : Wire.Fixed 32) (signing : Bytes) : Wire.Fixed 64 :=
  Wire.sha512 (ascii "DREGG.PRIVATE.SEALED.SEMANTIC\x02" ++ hidingNonce.1 ++ bytes signing)

/-! ## Capsules -/

/-- `HYBRID_CIPHERTEXT_BYTES`: an X25519 key and an ML-KEM-768 ciphertext. -/
def HYBRID_CIPHERTEXT_BYTES : Nat := 32 + 1088

structure SealedIngress where
  party : CommitteeParty
  sequence : UInt64
  recipient : RecipientSpec
  semanticCommitment : Wire.Fixed 64
  hybridCiphertext : Wire.Fixed HYBRID_CIPHERTEXT_BYTES
  nonce : Wire.Fixed 24
  keyCipherCommitment : Wire.Fixed 32
  ciphertext : Bytes
  outerNativeCredential : Bytes

namespace SealedIngress

def FRAME : Bytes := ascii "DREGG.PRIVATE.SEALED.INGRESS\x03"

def FRAME_V2 : Bytes := ascii "DREGG.PRIVATE.SEALED.INGRESS\x02"

def publicBinding (s : SealedIngress) : Bytes :=
  FRAME ++ bytes s.party.encode ++ le64 s.sequence ++ s.recipient.put ++ s.semanticCommitment.1

/-- The bytes of a capsule, whatever its size. -/
def encoding (s : SealedIngress) : Bytes :=
  s.publicBinding ++ s.hybridCiphertext.1 ++ s.nonce.1 ++ s.keyCipherCommitment.1 ++
    bytes s.ciphertext ++ bytes s.outerNativeCredential

def encode (s : SealedIngress) : Result Bytes := do
  s.recipient.validate
  refuseIf (decide (s.ciphertext.length ≠ s.recipient.plaintextBound + 16))
    "recipient fixed ciphertext shape"
  refuseIf (decide (s.encoding.length > MAX_SEALED)) "sealed ingress capacity"
  pure s.encoding

def decode (b : Bytes) : Result SealedIngress := do
  refuseIf (FRAME_V2.isPrefixOf b)
    "sealed ingress is a v2 frame (pure ML-KEM-768 recipient suite): refused; the frame is v3, hybrid X25519 + ML-KEM-768"
  refuseIf (decide (b.length > MAX_SEALED) || !FRAME.isPrefixOf b)
    "sealed ingress frame/capacity"
  let c ← new (b.drop FRAME.length)
  let (p, c) ← Cursor.bytes c
  let party ← CommitteeParty.decode p
  let (sequence, c) ← u64 c
  let (recipient, c) ← RecipientSpec.getFields c
  let (semantic, c) ← take 64 c
  let (hybrid, c) ← take HYBRID_CIPHERTEXT_BYTES c
  let (nonce, c) ← take 24 c
  let (commitment, c) ← take 32 c
  let (ciphertext, c) ← Cursor.bytes c
  let (outer, c) ← Cursor.bytes c
  finish c
  let out : SealedIngress :=
    ⟨party, sequence, recipient, semantic, hybrid, nonce, commitment, ciphertext, outer⟩
  let again ← out.encode
  refuseIf (decide (again ≠ b)) "sealed ingress canonical"
  pure out

end SealedIngress

/-! ## Drafts -/

/-- `crypto_transit::SealedParts`. -/
structure SealedParts where
  hybridCiphertext : Wire.Fixed HYBRID_CIPHERTEXT_BYTES
  nonce : Wire.Fixed 24
  commitment : Wire.Fixed 32
  ciphertext : Bytes

/-- `crypto_transit::seal` with the randomness it has drawn: the public key, the epoch,
the public binding and the padded plaintext give the parts of a capsule, or a failure. -/
abbrev Transit := Bytes → Bytes → Bytes → Bytes → Option SealedParts

structure HidingDraft where
  party : CommitteeParty
  sequence : UInt64
  message : Bytes
  recipient : RecipientSpec
  hidingNonce : Wire.Fixed 32
  commitment : Wire.Fixed 64

namespace HidingDraft

def fromRetained (party : CommitteeParty) (sequence : UInt64) (message : Bytes)
    (recipient : RecipientSpec) (hidingNonce : Wire.Fixed 32) : Result HidingDraft := do
  recipient.validate
  let probe : Envelope := ⟨party, sequence, message, [1]⟩
  let _ ← probe.encode
  pure ⟨party, sequence, message, recipient, hidingNonce,
    semanticCommitment hidingNonce probe.signingBytes⟩

/-- `HidingDraft::new`; `nonce` is what the operating system returned. -/
def new (party : CommitteeParty) (sequence : UInt64) (message : Bytes)
    (recipient : RecipientSpec) (nonce : Result (Wire.Fixed 32)) : Result HidingDraft := do
  recipient.validate
  let hidingNonce ← nonce
  fromRetained party sequence message recipient hidingNonce

/-- The packet in its fixed padding. -/
def padded (d : HidingDraft) (auth : Bytes) : Bytes :=
  let plaintext := PAD ++ Wire.toLeBytes 4 auth.length ++ d.hidingNonce.1 ++ auth
  plaintext ++ replicate (d.recipient.plaintextBound - plaintext.length) 0

def «seal» (d : HidingDraft) (credential publicKey : Bytes) (transit : Transit) :
    Result SealedIngress := do
  refuseIf (decide (recipientKeyId publicKey ≠ d.recipient.keyId))
    "recipient public enrollment key binding"
  let auth ← Envelope.encode ⟨d.party, d.sequence, d.message, credential⟩
  refuseIf (decide (PAD.length + 36 + auth.length > d.recipient.plaintextBound))
    "AUTH exceeds source-pinned padding class"
  let unsealed : SealedIngress :=
    ⟨d.party, d.sequence, d.recipient, d.commitment, .zeros _, .zeros 24, .zeros 32, [], []⟩
  match transit publicKey d.recipient.epochBytes unsealed.publicBinding (d.padded auth) with
  | none => .error "recipient encryption refused"
  | some parts => do
    let out : SealedIngress :=
      ⟨d.party, d.sequence, d.recipient, d.commitment, parts.hybridCiphertext, parts.nonce,
        parts.commitment, parts.ciphertext, []⟩
    let _ ← out.encode
    pure out

end HidingDraft

end MiniDregg.PrivateBackend
