import MiniDregg.PrivateBackend.AsksComplete

/-!
# Private delivery

The dealer broadcasts a ciphertext and shares its key. A party discloses its key
share to a receiver, in a message for the receiver alone, once more than `f`
parties are known to have requested the delivery; each request is a reliable
broadcast of its own. The receiver opens the key from what was transferred to it
and unmasks the ciphertext.

## Implementation notes

The table of request broadcasts is a function of receiver and requester. The
source's `progress` is cut into the steps `authorize`, `disclose` and `deliver`;
the last opens the key inside the party and must not let a message of the
wrapped sharing out.
-/

namespace MiniDregg.PrivateBackend

open Arith MiniDregg.Network Store Fallible Wire

/-- The generation of a nested instance, named by a digest. -/
def Generation.derived (g : Generation) (digest : Bytes) : Generation :=
  { g with invocation := .fromBe digest }

namespace PrivateSend

inductive Body where
  | key (m : Asks.Message)
  | cipher (p : PhaseMessage Bytes)
  | request (receiver requester : ℕ) (phase : PhaseMessage Bytes)
  | transfer (receiver : ℕ) (share : List GF128)
deriving DecidableEq

structure Message where
  context : Bytes
  body : Body
deriving DecidableEq

section Mask
variable (sha : Wire.Digest) (context key : Bytes)

/-- The pad of one 32-byte chunk. -/
def pad (i : ℕ) : Bytes :=
  sha.digest (ascii "DREGG.PRIVATE.SEND.PAD.V1" ++ context ++ key ++ toLeBytes 8 i)

/-- The chunks from number `i` on, each combined with its pad. -/
def maskFrom (i : ℕ) (input : Bytes) : Bytes :=
  if input = [] then []
  else List.zipWith (· ^^^ ·) (input.take 32) (pad sha context key i) ++
    maskFrom (i + 1) (input.drop 32)
termination_by input.length
decreasing_by
  rename_i h
  have := List.length_pos_iff.2 h
  rw [List.length_drop]
  omega

def mask (input : Bytes) : Bytes := maskFrom sha context key 0 input

end Mask

end PrivateSend

/-- One party's record of one private delivery. -/
structure PrivateSend (n f : ℕ) where
  me : ℕ
  dealer : ℕ
  context : Bytes
  length : ℕ
  key : Asks n f
  cipher : Bracha n f Bytes
  requests : ℕ → ℕ → Bracha n f Bytes
  requested : Finset ℕ
  authorized : Finset ℕ
  disclosed : Finset ℕ
  pending : OrderedMap ℕ (List GF128)
  started : Bool
  committedDeal : Option (Bytes × List (List GF128))
  dispersed : Bool
  delivered : Option Bytes

namespace PrivateSend

variable {n f : ℕ} (sha : Wire.Digest)

/-- The name of the delivery: the same for all its parties. -/
def contextOf (n f dealer : ℕ) (g : Generation) (length : ℕ) : Bytes :=
  sha.digest (ascii "DREGG.PRIVATE.SEND.V1" ++ g.put ++ toLeBytes 2 dealer ++
    toLeBytes 8 n ++ toLeBytes 8 f ++ toLeBytes 8 length)

/-- A party that has heard nothing. -/
def fresh (n f me dealer : ℕ) (g : Generation) (length : ℕ) : PrivateSend n f where
  me := me
  dealer := dealer
  context := contextOf sha n f dealer g length
  length := length
  key := .fresh sha n f me dealer (g.derived (contextOf sha n f dealer g length))
  cipher := .new n f (some dealer)
  requests := fun _ j => .new n f (some j)
  requested := ∅
  authorized := ∅
  disclosed := ∅
  pending := .empty
  started := false
  committedDeal := none
  dispersed := false
  delivered := none

def new (n f me dealer : ℕ) (g : Generation) (length : ℕ) : Result (PrivateSend n f) := do
  refuseIf (length = 0 || length > 65536) "fixed private payload capacity"
  let _ ← Asks.new sha n f me dealer (g.derived (contextOf sha n f dealer g length))
  return fresh sha n f me dealer g length

section
variable (s : PrivateSend n f)

/-- Messages of this delivery for all parties. -/
def all (bodies : List Body) : List (ℕ × Message) :=
  Bracha.toAll n (bodies.map fun b => ⟨s.context, b⟩)

def keyPackets (ps : List (ℕ × Asks.Message)) : List (ℕ × Message) :=
  ps.map fun p => (p.1, ⟨s.context, .key p.2⟩)

def dealerWithCoefficients (plaintext : Bytes)
    (coefficients : List (List GF128)) : Result (PrivateSend n f × List (ℕ × Message)) := do
  refuseIf (s.me != s.dealer || s.started || plaintext.length != s.length)
    "private sender role/replay/fixed length"
  let ps ← s.key.dealerWithCoefficients sha coefficients
  let key ← s.key.dealerKey sha coefficients
  pure ({ s with started := true },
    s.keyPackets ps ++ s.all [.cipher (.init (mask sha s.context key plaintext))])

/-- The plaintext and coefficients are recorded; a deal that could not be sent is refused. -/
def commitDealer (plaintext : Bytes) (coefficients : List (List GF128)) :
    Result (PrivateSend n f × List (ℕ × Message)) := do
  refuseIf s.committedDeal.isSome "private sender already committed"
  let _ ← s.dealerWithCoefficients sha plaintext coefficients
  pure ({ s with committedDeal := some (plaintext, coefficients) }, [])

def emitDealer : Result (PrivateSend n f × List (ℕ × Message)) := do
  let deal ← okOr s.committedDeal "private sender emit without commit"
  s.dealerWithCoefficients sha deal.1 deal.2

/-- The requesters of a delivery whose request is known to have been made. -/
def requesters (receiver : ℕ) : Finset ℕ :=
  (Finset.range n).filter fun j => (s.requests receiver j).output = some [1]

def authorize : PrivateSend n f :=
  { s with authorized :=
      s.authorized ∪ (Finset.range n).filter fun r => f < (s.requesters r).card }

/-- The receivers that the party has not looked at before. -/
def toDisclose : List ℕ :=
  (List.range n).filter fun r => r ∈ s.authorized && r ∉ s.disclosed

/-- The message that discloses the party's share to a receiver. -/
def transferTo (receiver : ℕ) : List (ℕ × Message) :=
  match s.key.sharing.bind Asks.SharingOutput.localShare with
  | some share => [(receiver, ⟨s.context, .transfer receiver share⟩)]
  | none => []

def disclose : PrivateSend n f × List (ℕ × Message) :=
  ({ s with disclosed := s.disclosed ∪ s.authorized }, s.toDisclose.flatMap s.transferTo)

/-- The refusal when starting to open the key would send more than openings. -/
def sideEffect : String := "unexpected private key opening side effect"

/-- The refusal when an opened share would send anything. -/
def publicTraffic : String := "private key reconstruction emitted public traffic"

/-- Whether a message of the sharing is an opening. -/
def isOpening (m : Asks.Message) : Bool :=
  match m.body with
  | .reconstruct _ => true
  | _ => false

def startOpening (a : Asks n f) : Result (Asks n f) :=
  if a.reconstructStarted then pure a
  else do
    let generated ← a.startReconstruction sha
    refuseIf (generated.2.any fun p => !isOpening p.2) sideEffect
    pure generated.1

/-- One transferred share is given to the sharing. -/
def openShare (a : Asks n f) (e : ℕ × List GF128) : Result (Asks n f) := do
  let generated ← a.receive sha e.1 ⟨a.inst, .reconstruct e.2⟩
  refuseIf (!generated.2.isEmpty) publicTraffic
  pure generated.1

/-- The receiver opens the key and unmasks the ciphertext. -/
def deliver : Result (PrivateSend n f) :=
  if s.me ∈ s.authorized then do
    let started ← startOpening sha s.key
    let key ← s.pending.entries.foldlM (openShare sha) started
    pure { s with
      key := key
      delivered := s.delivered.or (key.key.bind fun k =>
        s.cipher.output.map (mask sha s.context k)) }
  else pure s

def progress : Result (PrivateSend n f × List (ℕ × Message)) :=
  let dispersed := s.key.sharing.isSome && s.cipher.output.isSome
  if dispersed then do
    let disclosed := ({ s with dispersed := true } : PrivateSend n f).authorize.disclose
    let t ← disclosed.1.deliver sha
    pure (t, disclosed.2)
  else pure ({ s with dispersed := false }, [])

/-- Environment request for a delivery, broadcast once. -/
def requestDelivery (receiver : ℕ) :
    Result (PrivateSend n f × List (ℕ × Message)) := do
  refuseIf (n ≤ receiver) "private recipient range"
  let out := if receiver ∈ s.requested then []
    else s.all [.request receiver s.me (.init [1])]
  let moved ← { s with requested := insert receiver s.requested }.progress sha
  pure (moved.1, out ++ moved.2)

/-- One request broadcast replaced in the table. -/
def setRequest (receiver requester : ℕ) (b : Bracha n f Bytes) :
    PrivateSend n f :=
  let row := Function.update (s.requests receiver) requester b
  { s with requests := Function.update s.requests receiver row }

/-- The first share that a sender transfers is kept. -/
def orInsert (m : OrderedMap ℕ (List GF128)) (sender : ℕ) (share : List GF128) :
    OrderedMap ℕ (List GF128) :=
  if m.contains sender then m else m.insert sender share

/-- What a message itself does to the record. -/
def take (sender : ℕ) :
    Body → Result (PrivateSend n f × List (ℕ × Message))
  | .key m => do
    refuseIf (isOpening m) "public key opening forbidden"
    let moved ← s.key.receive sha sender m
    pure ({ s with key := moved.1 }, s.keyPackets moved.2)
  | .cipher p => do
    refuseIf (p.payload.length != s.length) "private ciphertext fixed length"
    let heard := s.cipher.receive sender p
    pure ({ s with cipher := heard.1 }, s.all (heard.2.map .cipher))
  | .request receiver requester phase => do
    refuseIf (n ≤ receiver || n ≤ requester) "private request roster"
    refuseIf (phase.payload != [1]) "private request domain"
    let heard := (s.requests receiver requester).receive sender phase
    pure (s.setRequest receiver requester heard.1,
      s.all (heard.2.map (.request receiver requester)))
  | .transfer receiver share => do
    refuseIf (receiver != s.me || share.length != 2)
      "private opening addressed to another recipient"
    pure ({ s with pending := orInsert s.pending sender share }, [])

def receive (sender : ℕ) (m : Message) :
    Result (PrivateSend n f × List (ℕ × Message)) := do
  refuseIf (n ≤ sender || m.context != s.context) "private delivery sender/context"
  let taken ← s.take sha sender m.body
  let moved ← taken.1.progress sha
  pure (moved.1, taken.2 ++ moved.2)

end

/-- What a party's user does. -/
inductive Input where
  | deal (plaintext : Bytes) (coefficients : List (List GF128))
  | commitDeal (plaintext : Bytes) (coefficients : List (List GF128))
  | emitDeal
  | requestDelivery (receiver : ℕ)

/-- The delivery as a protocol of its own. -/
def machine (n f : ℕ) : Machine Input (PrivateSend n f) Message where
  input
    | s, .deal plaintext coefficients => s.dealerWithCoefficients sha plaintext coefficients
    | s, .commitDeal plaintext coefficients => s.commitDealer sha plaintext coefficients
    | s, .emitDeal => s.emitDealer sha
    | s, .requestDelivery receiver => s.requestDelivery sha receiver
  receive := receive sha

end PrivateSend

end MiniDregg.PrivateBackend
