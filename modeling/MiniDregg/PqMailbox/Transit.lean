import MiniDregg.PrivateBackend.Codec
import MiniDregg.Wire.Sha2

/-!
# Opening a transit layer

A layer is sealed to a pair of keys, X25519 and ML-KEM-768. Opening it derives a
key-encryption key from both shared secrets and the transcript, checks the
commitment to the key and the ciphertext, and decrypts under the transcript.

## Implementation notes

The primitives of the linked libraries are parameters: the hash, the message
authentication code, cSHAKE256, the two key agreements and the cipher. Erasing
secrets from memory is left out.
-/

namespace MiniDregg.PqMailbox

open Fallible PrivateBackend

/-- A recipient's secret keys, as the libraries hold them, and its public keys. -/
structure HybridSecret where
  x25519 : Bytes
  kem : Bytes
  publicX25519 : Bytes
  publicKem : Bytes

/-- The functions of the linked libraries. -/
structure Primitives where
  sha256 : Wire.Digest
  /-- Verify an HMAC-SHA-256 tag: key, message, tag. -/
  hmacVerify : Bytes → Bytes → Bytes → Bool
  /-- cSHAKE256 with 32 bytes of output: customization, input. -/
  cshake256 : Bytes → Bytes → Bytes
  /-- The X25519 public key of a secret. -/
  x25519Public : Bytes → Bytes
  /-- X25519 key agreement; nothing when the result is not contributory. -/
  x25519 : Bytes → Bytes → Option Bytes
  /-- The ML-KEM-768 decapsulation and encapsulation keys of a seed. -/
  mlKem768FromSeed : Bytes → Result (Bytes × Bytes)
  mlKem768Decapsulate : Bytes → Bytes → Option Bytes
  /-- XChaCha20-Poly1305: key, nonce, associated data, ciphertext with its tag. -/
  decrypt : Bytes → Bytes → Bytes → Bytes → Option Bytes

def KEM_CT_LEN : Nat := 1088

def KEM_DK_LEN : Nat := 2400

def KEM_SEED_LEN : Nat := 64

def CIPHERTEXT_LEN : Nat := 32 + KEM_CT_LEN

def SECRET_LEN : Nat := 32 + KEM_SEED_LEN

def NONCE_BYTES : Nat := 24

def COMMITMENT_BYTES : Nat := 32

def TAG_BYTES : Nat := 16

def OVERHEAD_BYTES : Nat := CIPHERTEXT_LEN + NONCE_BYTES + COMMITMENT_BYTES + TAG_BYTES

def MAX_PLAINTEXT : Nat := 262144

def MAX_LAYER_PLAINTEXT : Nat := MAX_PLAINTEXT + 4 * OVERHEAD_BYTES

def MAX_CONTEXT : Nat := 73728

def FRAME : Bytes := ascii "DREGG/HYBRID-TRANSIT/v2"

def SUITE : Bytes := ascii "DREGG.TRANSIT.KEK/x25519+ml-kem-768/v2"

def AEAD_LABEL : Bytes := ascii "DREGG.TRANSIT.AEAD-KEY/v2"

def COMMIT_LABEL : Bytes := ascii "DREGG.TRANSIT.COMMIT-KEY/v2"

/-- Each part behind its length, eight bytes with the most significant first. -/
def lengthPrefixed (parts : List Bytes) : Bytes :=
  parts.flatMap fun part => (Wire.toLeBytes 8 part.length).reverse ++ part

variable (c : Primitives)

def cshake (label : Bytes) (parts : List Bytes) : Bytes := c.cshake256 label (lengthPrefixed parts)

/-- `HybridSecret::from_bytes`. -/
def HybridSecret.fromBytes (bytes : Bytes) : Result HybridSecret := do
  refuseIf (bytes.length == KEM_DK_LEN)
    "a bare 2400-byte ML-KEM-768 secret is the pre-hybrid shape and is refused: a hybrid secret is 96 bytes (X25519 secret 32 + FIPS 203 seed 64)"
  refuseIf (bytes.length != SECRET_LEN)
    ("a hybrid secret key is 96 bytes, not " ++ toString bytes.length)
  let secret := bytes.take 32
  let (kem, ek) ← c.mlKem768FromSeed (bytes.drop 32)
  return { x25519 := secret, kem, publicX25519 := c.x25519Public secret, publicKem := ek }

def transcript (frame : Bytes) (context : List Bytes) (ephemeral kemCt : Bytes)
    (recipient : HybridSecret) : Bytes :=
  lengthPrefixed
    ([frame] ++ context ++ [ephemeral, kemCt, recipient.publicX25519, recipient.publicKem])

/-- The combiner: the key-encryption key over both shared secrets and the transcript. -/
def combine (suite sharedX25519 sharedKem transcript : Bytes) : Bytes :=
  cshake c suite [sharedX25519, sharedKem, transcript]

/-- `hybrid_kem::decapsulate`: the key-encryption key and the transcript. -/
def decapsulate (suite frame : Bytes) (context : List Bytes) (secret : HybridSecret)
    (ciphertext : Bytes) : Result (Bytes × Bytes) := do
  refuseIf (ciphertext.length != CIPHERTEXT_LEN)
    ("a hybrid ciphertext is 1120 bytes (ephemeral X25519 32 + ML-KEM-768 1088), not "
      ++ toString ciphertext.length)
  let ephemeral := ciphertext.take 32
  let sharedX ← match c.x25519 secret.x25519 ephemeral with
    | some shared => .ok shared
    | none => .error "ephemeral X25519 key is a low-order point"
  let sharedK ← match c.mlKem768Decapsulate secret.kem (ciphertext.drop 32) with
    | some shared => .ok shared
    | none => .error "ML-KEM-768 decapsulation failed"
  let t := transcript frame context ephemeral (ciphertext.drop 32) secret
  return (combine c suite sharedX sharedK t, t)

/-- The parts of a sealed layer. -/
structure SealedRef where
  hybridCiphertext : Bytes
  nonce : Bytes
  commitment : Bytes
  ciphertext : Bytes

def subkeys (kek : Bytes) :
    Bytes × Bytes := (cshake c AEAD_LABEL [kek], cshake c COMMIT_LABEL [kek])

def openRawContext (key : HybridSecret) (aad : Bytes) (part : SealedRef) : Result Bytes := do
  refuseIf (part.hybridCiphertext.length == KEM_CT_LEN)
    "transit ciphertext is a v1 pure ML-KEM-768 capsule (1088-byte KEM ciphertext, no X25519 component): refused; the suite is hybrid X25519 + ML-KEM-768 v2 (1120-byte ciphertext)"
  refuseIf (aad.isEmpty || MAX_CONTEXT < aad.length
      || part.hybridCiphertext.length != CIPHERTEXT_LEN || part.nonce.length != NONCE_BYTES
      || part.commitment.length != COMMITMENT_BYTES || part.ciphertext.length < TAG_BYTES
      || MAX_LAYER_PLAINTEXT + TAG_BYTES < part.ciphertext.length)
    "transit ciphertext/context bound"
  let (kek, t) ← decapsulate c SUITE FRAME [aad] key part.hybridCiphertext
  let (aeadKey, commitKey) := subkeys c kek
  let context := t ++ c.sha256.digest part.ciphertext
  refuseIf (!c.hmacVerify commitKey context part.commitment) "transit key/cipher commitment refused"
  match c.decrypt aeadKey part.nonce t part.ciphertext with
  | some plain => .ok plain
  | none => .error "transit AEAD authentication refused"

end MiniDregg.PqMailbox
