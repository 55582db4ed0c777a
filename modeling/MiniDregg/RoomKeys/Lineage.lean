import Mathlib.Data.List.Sort
import MiniDregg.RoomKeys.Records
import MiniDregg.Store.OrderedMap

/-!
# What a served keys cell proves

A client reads the keys cell of a private room as a whole and checks it from the start: the
founder-key transitions form one chain through the pinned key, every release and every wrap
is signed by a founder key of its epoch, and the certificates form one chain of ascending
epochs that the retained head lies on. What it retains between two views is the head of the
certificate chain, and the number of transitions with the key they end at.

## Implementation notes

Maps that the source keys by the decimal text of an address are keyed by the address here.
They hold the same records; only which of several bad releases is reported can differ.
-/

namespace MiniDregg.RoomKeys

open Fallible Store ReleaseStatement

/-- The atoms of a served keys cell. -/
structure View where
  /-- The cell holds a wrap of the format before the hybrid one. -/
  preHybrid : Bool
  wraps : List WrapAtom
  releases : List ReleaseStatement
  transitions : List FounderTransition
  /-- The members whose encryption-key records parse, with the digests of these records. -/
  records : List (UInt64 × Digest)
  deriving DecidableEq

/-- Transition indices stay below this. -/
def MAX_TRANSITIONS : Nat := 2 ^ 20

def transitionAtomId (index : UInt32) : Nat := (2 ^ 31 + 1 + index.toNat) * 2 ^ 96

/-- The order in which wraps are kept. -/
def WrapAtom.before (v w : WrapAtom) : Bool :=
  decide (v.epoch < w.epoch) || (v.epoch == w.epoch &&
    (decide (v.member < w.member) || (v.member == w.member && decide (v.gen ≤ w.gen))))

/-- Drop each item that repeats the one before it. -/
def dedupAdjacent {α : Type} [DecidableEq α] : List α → List α
  | [] => []
  | [a] => [a]
  | a :: b :: rest => if a = b then dedupAdjacent (b :: rest) else a :: dedupAdjacent (b :: rest)

/-- A wrap of the served cell lies in the address region of wraps. -/
def WrapAtom.checkAddress (w : WrapAtom) : Result Unit :=
  let id := w.address
  refuseIf (MAX_EPOCH < w.epoch.toNat) s!"wrap atom id {id} exceeds the epoch range"

def wrapsInView (view : View) : Result (List WrapAtom) := do
  refuseIf view.preHybrid "this keys cell holds a pre-hybrid DREGG/PRIVATE-AUTH-WRAP/v2 wrap (X25519 only): the room predates the v3 hybrid X25519 + ML-KEM-768 format and is refused, not read; found the room again"
  view.wraps.forM WrapAtom.checkAddress
  return dedupAdjacent (view.wraps.insertionSort fun v w => v.before w = true)

/-- Collect records under their addresses; one that fails its check and an address that
repeats are refused. -/
def keyByAddress {α : Type} (check : α → Result Unit) (address : α → Nat) (repeated : String) :
    List α → OrderedMap Nat α → Result (OrderedMap Nat α)
  | [], out => .ok out
  | a :: rest, out => do
    check a
    refuseIf (out.contains (address a)) repeated
    keyByAddress check address repeated rest (out.insert (address a) a)

def ReleaseStatement.checkAddress (r : ReleaseStatement) : Result Unit :=
  let id := r.address
  refuseIf (MAX_EPOCH < r.epoch.toNat) s!"release atom {id} is not at the address its statement names"

def releasesInView (view : View) : Result (OrderedMap Nat ReleaseStatement) :=
  keyByAddress checkAddress address "release atom repeats an address"
    view.releases .empty

def FounderTransition.address (t : FounderTransition) : Nat := transitionAtomId t.index

def FounderTransition.checkAddress (t : FounderTransition) : Result Unit :=
  let id := t.address
  refuseIf (MAX_TRANSITIONS ≤ t.index.toNat)
    s!"founder-key transition atom {id} is not at the address its statement names"

def transitionsInView (view : View) : Result (List FounderTransition) := do
  let out ← keyByAddress FounderTransition.checkAddress (fun t => t.index.toNat)
    "transition atom repeats an address" view.transitions .empty
  return out.values

/-- The founder keys of a room in order, and the epochs after which each next one is in
effect. -/
structure FounderChain where
  keys : List Key
  after : List UInt32
  length : keys.length = after.length + 1
  deriving DecidableEq

namespace FounderChain

/-- One key alone. -/
def single (pin : Key) : FounderChain := ⟨[pin], [], rfl⟩

section
variable (chain : FounderChain)

theorem keys_ne_nil : chain.keys ≠ [] := by
  intro h
  have hlength := chain.length
  rw [h] at hlength
  cases hlength

/-- The key that signs now. -/
def tip : Key := chain.keys.getLast chain.keys_ne_nil

def transitions : Nat := chain.after.length

section
variable (epoch : UInt32)

def indexForEpoch : Nat :=
  chain.after.countP fun after => decide (after < epoch)

theorem indexForEpoch_lt :
    chain.indexForEpoch epoch < chain.keys.length := by
  have hcount : chain.indexForEpoch epoch ≤ chain.after.length := List.countP_le_length
  rw [chain.length]
  omega

/-- The key that must have signed the certificate of an epoch. -/
def epochKey : Key :=
  chain.keys.get ⟨chain.indexForEpoch epoch, chain.indexForEpoch_lt epoch⟩

/-- The keys that may sign a delivery or a release of an epoch. -/
def deliveryKeys : List Key :=
  chain.keys.drop (chain.indexForEpoch epoch)

end

/-- The chain with one more key. -/
def push (key : Key) (after : UInt32) : FounderChain where
  keys := chain.keys ++ [key]
  after := chain.after ++ [after]
  length := by simp [chain.length]

end

variable (c : Crypto) (room keys : UInt64)

/-- Verify transitions from a position on. -/
def verifyFrom (certificates : OrderedMap Nat EpochCertificate) :
    Nat → FounderChain → List FounderTransition → Result FounderChain
  | _, chain, [] => .ok chain
  | position, chain, t :: rest => do
    refuseIf (t.index.toNat ≠ position)
      "founder-key transitions are not contiguous from index 0 (a link is missing)"
    t.check c room keys
    refuseIf (t.oldKey ≠ chain.tip)
      "founder-key transition does not start where the previous one ended (a fork)"
    refuseIf (chain.after.getLast?.any fun previous => decide (t.afterEpoch < previous))
      "founder-key transitions go back in epochs"
    let index := t.index.toNat
    let epoch := t.afterEpoch.toNat
    match certificates.get? t.afterEpoch.toNat with
    | none => .error s!"founder-key transition {index} names epoch {epoch}, which the keys cell does not show"
    | some certificate => do
      refuseIf (certificate.identity c ≠ t.afterCertificate)
        s!"founder-key transition {index} names another certificate than the one at epoch {epoch}"
      refuseIf (chain.keys.contains t.newKey)
        "founder-key transition returns to a key already retired"
      verifyFrom certificates (position + 1) (chain.push t.newKey t.afterEpoch) rest

/-- Verify the served transitions against the pinned key and the served certificates. -/
def verify (pin : Key) (transitions : List FounderTransition)
    (certificates : OrderedMap Nat EpochCertificate) : Result FounderChain :=
  match transitions with
  | [] => .ok (single pin)
  | first :: _ => do
    let chain ← verifyFrom c room keys certificates 0 (single first.oldKey) transitions
    refuseIf (!chain.keys.contains pin)
      "the pinned founder key is not on the founder-key chain this keys cell serves"
    return chain

end FounderChain

def ReleaseStatement.check (c : Crypto) (r : ReleaseStatement) (room keys : UInt64)
    (chain : FounderChain) : Result Unit := do
  refuseIf (r.room ≠ room ∨ r.keys ≠ keys ∨ !(chain.deliveryKeys r.epoch).contains r.signerPublic)
    "release record differs from its room, keys cell or founder key chain"
  checkSigned c r.signerPublic r.statement r.signature "pinned key is not an Ed25519 public key"
    "release record signature does not verify under the founder key it names"

/-- The newest certificate of a chain. -/
structure EpochHead where
  epoch : UInt32
  identity : Digest
  deriving DecidableEq

def advanceHead (retained : Option EpochHead) (candidate : EpochHead) : Result Unit :=
  match retained with
  | none => .ok ()
  | some head => refuseIf (candidate.epoch < head.epoch ∨
      (candidate.epoch = head.epoch ∧ candidate.identity ≠ head.identity))
      "room epoch rollback or equivocation against retained authenticated lineage"

section EpochChain

/-- Store a certificate under its epoch; two different ones of an epoch are refused. -/
def insertCertificate (certificates : OrderedMap Nat EpochCertificate) (a : EpochCertificate) :
    Result (OrderedMap Nat EpochCertificate) :=
  match certificates.get? a.epoch.toNat with
  | some other =>
    if other ≠ a then .error "conflicting certificates for one room epoch"
    else .ok (certificates.insert a.epoch.toNat a)
  | none => .ok (certificates.insert a.epoch.toNat a)

/-- The certificates of wraps, one for each epoch. -/
def servedCertificates : List WrapAtom → OrderedMap Nat EpochCertificate →
    Result (OrderedMap Nat EpochCertificate)
  | [], served => .ok served
  | w :: rest, served =>
    match w.attestation with
    | none => .error "unsigned room wrap is not authenticated lineage"
    | some a => do
      let served ← insertCertificate served a.certificate
      servedCertificates rest served

/-- The certificates of wraps of one room and keys cell, one for each epoch. -/
def chainCertificates : List WrapAtom → Option (UInt64 × UInt64) →
    OrderedMap Nat EpochCertificate → Result (OrderedMap Nat EpochCertificate)
  | [], _, certificates => .ok certificates
  | w :: rest, context, certificates =>
    match w.attestation with
    | none => .error "unsigned wraps cannot select a room epoch"
    | some a => do
      refuseIf (w.epoch ≠ a.certificate.epoch) "wrap epoch differs from certificate"
      refuseIf (context.any fun expected =>
          decide (expected ≠ (a.certificate.room, a.certificate.keys)))
        "room epoch chain crosses room or keys-cell contexts"
      let certificates ← insertCertificate certificates a.certificate
      chainCertificates rest (some (a.certificate.room, a.certificate.keys)) certificates

variable (c : Crypto)

def EpochCertificate.head (a : EpochCertificate) : EpochHead := ⟨a.epoch, a.identity c⟩

/-- Follow certificates from the head before them, noting whether the retained head is
passed. -/
def walkChain (retained : Option EpochHead) : List EpochCertificate → Option EpochHead → Bool →
    Result (Option EpochHead × Bool)
  | [], head, included => .ok (head, included)
  | a :: rest, head, included =>
    match head with
    | none =>
      if a.parent = zeroDigest then
        walkChain retained rest (some (a.head c)) (included || retained == some (a.head c))
      else .error "room epoch chain does not start at a genesis certificate"
    | some previous =>
      if previous.epoch < a.epoch ∧ a.parent = previous.identity then
        walkChain retained rest (some (a.head c)) (included || retained == some (a.head c))
      else .error "room epoch chain has a missing, forked or different predecessor"

/-- The certificates of the wraps form one chain from a first certificate, on which the
retained head lies. -/
def checkEpochChain (wraps : List WrapAtom) (retained : Option EpochHead) :
    Result (Option EpochHead) := do
  let certificates ← chainCertificates wraps none .empty
  let (head, included) ← walkChain c retained certificates.values none retained.isNone
  match head with
  | none =>
    match retained with
    | none => return none
    | some _ => .error "served keys cell has no epoch but this client retains an authenticated room epoch"
  | some head => do
    advanceHead retained head
    refuseIf (!included) "served lineage omits or replaces the retained room epoch"
    return some head

end EpochChain

/-- What a served keys cell proves. -/
structure Lineage where
  wraps : List WrapAtom
  releases : OrderedMap Nat ReleaseStatement
  certificates : OrderedMap Nat EpochCertificate
  head : Option EpochHead
  chain : FounderChain
  deriving DecidableEq

section Verify
variable (c : Crypto) (room keys : UInt64) (pin : Key)

/-- One wrap: its signatures, and the release that committed to its bytes. -/
def checkWrap (chain : FounderChain) (releases : OrderedMap Nat ReleaseStatement)
    (w : WrapAtom) : Result EpochCertificate :=
  match w.attestation with
  | none => .error "unsigned room wrap is not authenticated lineage"
  | some a => do
    refuseIf (!(chain.deliveryKeys w.epoch).contains a.signerPublic)
      "a wrap's delivery is signed by a key that is not a founder key for its epoch"
    w.checkSignatures c room keys (chain.epochKey w.epoch) a.signerPublic
    match releases.get? (releaseAtomId w.epoch w.gen w.member) with
    | none => .error "a wrap was disclosed without a founder-signed release record"
    | some release => do
      release.names c w
      return a.certificate

/-- Check the wraps and collect their certificates. -/
def checkWraps (chain : FounderChain) (releases : OrderedMap Nat ReleaseStatement) :
    List WrapAtom → OrderedMap Nat EpochCertificate → Result (OrderedMap Nat EpochCertificate)
  | [], certificates => .ok certificates
  | w :: rest, certificates => do
    let a ← checkWrap c room keys chain releases w
    checkWraps chain releases rest (certificates.insert a.epoch.toNat a)

/-- Verify a served keys cell under the pinned founder key, against the retained head. -/
def verifyLineage (view : View) (retained : Option EpochHead) : Result Lineage := do
  let wraps ← wrapsInView view
  let releases ← releasesInView view
  let transitions ← transitionsInView view
  let served ← servedCertificates wraps .empty
  let chain ← FounderChain.verify c room keys pin transitions served
  releases.values.forM fun r => r.check c room keys chain
  let certificates ← checkWraps c room keys chain releases wraps .empty
  let head ← checkEpochChain c wraps retained
  return { wraps, releases, certificates, head, chain }

end Verify

section Sync

/-- What a client retains of a room: the head, the number of transitions it authenticated and
the key that was in effect then. -/
structure Retained where
  head : EpochHead
  transitions : Nat
  founderTip : Option Key
  deriving DecidableEq

section
variable (retained : Option Retained)

def retainedTransitions : Nat :=
  match retained with
  | some r => r.transitions
  | none => 0

def retainedFounderTip : Option Key := retained.bind (·.founderTip)

/-- A shorter founder-key chain is a rollback, one of the same length with another tip is a
fork. -/
def checkChainNotRolledBack (chain : FounderChain) : Result Unit := do
  let seen := retainedTransitions retained
  let shown := chain.transitions
  refuseIf (shown < seen)
    s!"served founder-key chain has {shown} transition(s) but this client already authenticated {seen}: the hand-over was hidden or rolled back"
  refuseIf (shown = seen ∧ 0 < seen ∧
      (retainedFounderTip retained).any fun tip => decide (tip ≠ chain.tip))
    "served founder-key chain forks from the one this client authenticated"

end

/-- The key cache holds no epoch above the head. -/
def checkRingBelowHead (latest : Option UInt32) (head : Option EpochHead) : Result Unit :=
  match latest, head with
  | some epoch, some head => refuseIf (head.epoch < epoch)
      "served room lineage is older than this client's retained key epochs"
  | some _, none => .error "served keys cell has no epoch but this client holds room keys"
  | none, _ => .ok ()

/-- What is retained after a view was accepted; a view without an epoch retains nothing. -/
def retainEpochHead (retained : Option Retained) (lineage : Lineage) : Option Retained :=
  match lineage.head with
  | none => retained
  | some head => some
      { head := head, transitions := lineage.chain.transitions, founderTip := some lineage.chain.tip }

variable (c : Crypto) (room keys : UInt64) (pin : Key)

/-- The checks of one synchronization, `latest` being the newest epoch in the key cache. -/
def sync (retained : Option Retained) (latest : Option UInt32) (view : View) :
    Result (Lineage × Option Retained) := do
  let lineage ← verifyLineage c room keys pin view (retained.map (·.head))
  checkChainNotRolledBack retained lineage.chain
  checkRingBelowHead latest lineage.head
  return (lineage, retainEpochHead retained lineage)

/-- Synchronizations one after another, each against what the accepted ones retained: the
lineages that are accepted. A refused view changes nothing. -/
def syncs (retained : Option Retained) : List (Option UInt32 × View) → List Lineage
  | [] => []
  | (latest, view) :: rest =>
    match sync c room keys pin retained latest view with
    | .ok (lineage, retained) => lineage :: syncs retained rest
    | .error _ => syncs retained rest

end Sync

end MiniDregg.RoomKeys
