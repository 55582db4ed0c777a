import MiniDregg.PrivateBackend.BrachaTotality
import MiniDregg.PrivateBackend.Correlations
import MiniDregg.PrivateBackend.Reconstruction
import MiniDregg.Wire.Blocks
import MiniDregg.Wire.Sha2

/-!
# Asynchronous key sharing

The dealer broadcasts a vector of commitments to shares and sends each party its
share in private. A party whose share matches takes part in a reliable agreement
on the value 1; when that agreement ends the sharing is complete. To open the
key the parties send each other their shares, and each interpolates from the
first `f + 1` that match. If the commitments do not lie on one polynomial, the
key is the all-zero default.

## Implementation notes

`n` and `f` are parameters of the type, as in `Bracha`, and the hash is a
parameter of the operations. `receive` is split into `take`, what the message
itself does, and `progress`, the source's function of that name, which is again
split at its two outer conditions into `share` and `reconstruct`.
-/

namespace MiniDregg.PrivateBackend

open Arith MiniDregg.Network Store Fallible Reconstruction Wire

namespace Asks

/-- Independent 128-bit coordinates of a share. -/
def WORDS : ℕ := 2

inductive Body where
  | commit (m : PhaseMessage Bytes)
  | privateShare (s : List GF128)
  | ra (m : PhaseMessage Bytes)
  | reconstruct (s : List GF128)
deriving DecidableEq

structure Message where
  inst : Bytes
  body : Body
deriving DecidableEq

structure SharingOutput where
  commitments : List Bytes
  localShare : Option (List GF128)
deriving DecidableEq

/-- The hash of a vector of words under an index: commitments are hashes of shares, and the
key is the hash of the secret under index zero. -/
def h (sha : Wire.Digest) (inst : Bytes) (index : ℕ) (words : List GF128) : Bytes :=
  sha.digest (ascii "DREGG.ASKS.H.V2" ++ inst ++ toLeBytes 2 index ++
    words.flatMap fun w => toLeBytes 16 w.bits.toNat)

end Asks

/-- One party's record of one sharing. -/
structure Asks (n f : ℕ) where
  me : ℕ
  dealer : ℕ
  inst : Bytes
  rbc : Bracha n f Bytes
  ra : Bracha n f Bytes
  privateShare : Option (List GF128)
  acceptedShare : Option (List GF128)
  pending : OrderedMap ℕ (List GF128)
  valid : OrderedMap ℕ (List GF128)
  sharing : Option Asks.SharingOutput
  reconstructStarted : Bool
  key : Option Bytes

namespace Asks

variable {n f : ℕ} (sha : Wire.Digest)

/-- The name of the sharing: the same for all its parties. -/
def instanceOf (n f dealer : ℕ) (g : Generation) : Bytes :=
  sha.digest (ascii "DREGG.ASKS.V2" ++ g.put ++ toLeBytes 8 n ++ toLeBytes 8 f ++
    toLeBytes 2 dealer)

/-- A party that has heard nothing. -/
def fresh (n f me dealer : ℕ) (g : Generation) : Asks n f where
  me := me
  dealer := dealer
  inst := instanceOf sha n f dealer g
  rbc := .new n f (some dealer)
  ra := .new n f none
  privateShare := none
  acceptedShare := none
  pending := .empty
  valid := .empty
  sharing := none
  reconstructStarted := false
  key := none

def new (n f me dealer : ℕ) (g : Generation) : Result (Asks n f) := do
  refuseIf (n ≠ 3 * f + 1 || n > 16 || me ≥ n || dealer ≥ n) "ASKS access structure"
  return fresh sha n f me dealer g

/-- The coefficient vectors of a deal have one entry for each word and degree `f`. -/
def dimensions (f : ℕ) (coefficients : List (List GF128)) : Bool :=
  coefficients.length = WORDS && coefficients.all fun p => p.length = f + 1

section
variable (a : Asks n f)

def dealerKey (coefficients : List (List GF128)) : Result Bytes := do
  refuseIf (!dimensions f coefficients) "dealer key degree/dimensions"
  return h sha a.inst 0 (coefficients.map fun p => p.getD 0 0)

/-- Messages of this sharing for all parties. -/
def all (bodies : List Body) : List (ℕ × Message) :=
  Bracha.toAll n (bodies.map fun b => ⟨a.inst, b⟩)

/-- The agreed commitments, cut apart. -/
def commits : Option (List Bytes) :=
  a.rbc.output.bind fun b => if b.length ≠ n * 32 then none else some (chunksExact 32 b)

/-- The party's share, if it matches its commitment. -/
def privateValid (commits : List Bytes) : Option (List GF128) :=
  (a.acceptedShare.or a.privateShare).filter fun s =>
    h sha a.inst (a.me + 1) s == commits.getD a.me []

end

/-- The share of party `i`. -/
def shareOf (coefficients : List (List GF128)) (i : ℕ) : List GF128 :=
  coefficients.map fun p => eval p (node i)

/-- The commitments of a deal, one after the other. -/
def commitmentsOf (n : ℕ) (inst : Bytes) (coefficients : List (List GF128)) : Bytes :=
  (List.range n).flatMap fun i => h sha inst (i + 1) (shareOf coefficients i)

section
variable (a : Asks n f)

def dealerWithCoefficients (coefficients : List (List GF128)) :
    Result (List (ℕ × Message)) := do
  refuseIf (a.me != a.dealer || !dimensions f coefficients) "dealer dimensions"
  return ((List.range n).map fun i => (i, ⟨a.inst, .privateShare (shareOf coefficients i)⟩)) ++
    a.all [.commit (.init (commitmentsOf sha n a.inst coefficients))]

/-- A matching share is accepted and told to the agreement. -/
def accept (commits : List Bytes) : Asks n f × List (ℕ × Message) :=
  match a.privateValid sha commits with
  | some valid =>
    let told := a.ra.inputRa [1]
    ({ a with acceptedShare := a.acceptedShare.or (some valid), ra := told.1 },
      a.all (told.2.map .ra))
  | none => (a, [])

/-- The sharing is complete when the agreement has ended. -/
def finish (commits : List Bytes) : Asks n f :=
  if a.sharing.isNone && a.ra.output == some [1] then
    { a with sharing := some ⟨commits, a.privateValid sha commits⟩ }
  else a

def share : Asks n f × List (ℕ × Message) :=
  match a.commits with
  | some commits =>
    let accepted := a.accept sha commits
    (accepted.1.finish sha commits, accepted.2)
  | none => (a, [])

end

/-- A received share that matches becomes valid, unless its sender has a valid one. -/
def validate (inst : Bytes) (commitments : List Bytes) (valid : OrderedMap ℕ (List GF128))
    (e : ℕ × List GF128) : OrderedMap ℕ (List GF128) :=
  if h sha inst (e.1 + 1) e.2 == commitments.getD e.1 [] then
    if valid.contains e.1 then valid else valid.insert e.1 e.2
  else valid

section
variable (a : Asks n f)

def checkPending (shared : SharingOutput) : Asks n f :=
  { a with valid := a.pending.entries.foldl (validate sha a.inst shared.commitments) a.valid }

/-- The key that points open: the hash of their value at zero if the polynomial through them
meets all commitments, else the default. -/
def keyOf (n : ℕ) (inst : Bytes) (commitments : List Bytes) (points : List (ℕ × List GF128)) :
    Result Bytes := do
  let coherent ← (List.range n).foldlM (fun coherent i => do
    let words ← interpolateAt points (node i) WORDS
    pure (coherent && h sha inst (i + 1) words == commitments.getD i [])) true
  if coherent then do
    let words ← interpolateAt points 0 WORDS
    pure (h sha inst 0 words)
  else pure (List.replicate 32 0)

def setKey (shared : SharingOutput) : Result (Asks n f) :=
  if a.key.isNone && f < a.valid.entries.length then do
    let k ← keyOf sha n a.inst shared.commitments (a.valid.entries.take (f + 1))
    pure { a with key := some k }
  else pure a

def reconstruct : Result (Asks n f) :=
  if a.reconstructStarted then
    match a.sharing with
    | some shared => (a.checkPending sha shared).setKey sha shared
    | none => pure a
  else pure a

def progress : Result (Asks n f × List (ℕ × Message)) := do
  let b ← (a.share sha).1.reconstruct sha
  pure (b, (a.share sha).2)

/-- What a message itself does to the record. -/
def take (sender : ℕ) : Body → Result (Asks n f × List (ℕ × Message))
  | .commit m => do
    refuseIf (m.payload.length != n * 32) "commit vector dimensions"
    let heard := a.rbc.receive sender m
    pure ({ a with rbc := heard.1 }, a.all (heard.2.map .commit))
  | .ra m => do
    refuseIf (m.payload != [1] || m == .init m.payload) "RA input domain"
    let heard := a.ra.receive sender m
    pure ({ a with ra := heard.1 }, a.all (heard.2.map .ra))
  | .privateShare s => do
    refuseIf (sender != a.dealer || s.length != WORDS) "private share sender/dimensions"
    pure (if a.sharing.isNone && a.acceptedShare.isNone then { a with privateShare := some s }
      else a, [])
  | .reconstruct s => do
    refuseIf (s.length != WORDS) "reconstruction dimensions"
    pure (if a.valid.contains sender then a
      else { a with pending := a.pending.insert sender s }, [])

def receive (sender : ℕ) (m : Message) :
    Result (Asks n f × List (ℕ × Message)) := do
  refuseIf (n ≤ sender || m.inst != a.inst) "foreign sender/instance"
  let taken ← a.take sender m.body
  let moved ← taken.1.progress sha
  pure (moved.1, taken.2 ++ moved.2)

/-- The opening message of a party that holds a share. -/
def opening (shared : SharingOutput) : List (ℕ × Message) :=
  match shared.localShare with
  | some s => a.all [.reconstruct s]
  | none => []

def startReconstruction : Result (Asks n f × List (ℕ × Message)) := do
  let shared ← okOr a.sharing "reconstruction before sharing finished"
  if a.reconstructStarted then pure (a, [])
  else do
    let moved ← { a with reconstructStarted := true }.progress sha
    pure (moved.1, a.opening shared ++ moved.2)

end

/-- What a party's user does: deal as the dealer, or start to open the key. -/
inductive Input where
  | deal (coefficients : List (List GF128))
  | startReconstruction

/-- The sharing as a protocol of its own. -/
def machine (n f : ℕ) : Machine Input (Asks n f) Message where
  input
    | a, .deal coefficients => do
      let out ← a.dealerWithCoefficients sha coefficients
      pure (a, out)
    | a, .startReconstruction => a.startReconstruction sha
  receive := receive sha

end Asks

end MiniDregg.PrivateBackend
