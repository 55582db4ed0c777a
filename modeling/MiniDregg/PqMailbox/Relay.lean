import MiniDregg.PqMailbox.Batch
import MiniDregg.Store.PrivateFiles

/-!
# The live relay

A relay stage of one epoch is released once. Before it shuffles, the relay records
the admission of the exact manifest and input; what it then releases is recorded
too, and a repeated call with the same admission returns the record.

## Implementation notes

A call yields its result and the files it creates, in order. A call that a crash or
a failed write stops has created the first few of these files and returned nothing.
Both names are found free before the first file is created, so creating them is
never refused. The key file's content is an argument.
-/

namespace MiniDregg.PqMailbox

open Fallible

/-- One call of `live_relay`, with the content of its key file and the random words it reads. -/
structure Call where
  profile : Profile
  hop : Nat
  key : Option Bytes
  auth : Bytes
  segment : Bytes
  origin : UInt64
  tick : UInt64
  draws : List UInt64

/-- `live_plan`: when a stage is released. -/
def livePlan (p : Profile) (stage : Nat) (origin tick : UInt64) : Result Nat := do
  refuseIf (!(decide (10 ≤ tick) && decide (tick ≤ 60000)) || decide (LAYERS < stage))
    "live mix tick/stage bound"
  -- the source checks each operation; the tick is positive, so the last overflow covers them
  let when := (p.epoch.toNat + (stage + 1)) * tick.toNat + origin.toNat
  refuseIf (decide (2 ^ 64 ≤ when)) "live mix schedule lifetime exhausted"
  return when

def readKey (c : Primitives) (key : Option Bytes) : Result HybridSecret :=
  match key with
  | none => .error "cannot read key file"
  | some bytes => HybridSecret.fromBytes c bytes

/-- The stem of the names of a stage's files. -/
def liveStem (epoch hop : Nat) : Text :=
  "live-epoch-" ++ Text.natText epoch ++ "-stage-" ++ Text.natText hop

namespace Call

variable (c : Primitives) (call : Call)

/-- The length of the manifest at the head of a segment. -/
def manifestLength : Nat := 18 + 160 * call.profile.width + 128

def manifest : Bytes := call.segment.take call.manifestLength

def input : Bytes := call.segment.drop call.manifestLength

def stem : Text := liveStem call.profile.epoch.toNat call.hop

def claimName : Text := call.stem ++ ".admitted"

def outputName : Text := call.stem ++ ".output"

/-- The files of a journal that the ordinary command line keeps for the epoch and the stage. -/
def legacyNames : List Text :=
  let epoch := "epoch-" ++ Text.natText call.profile.epoch.toNat
  (epoch ++ "-profile") ::
    ["input", "claimed", "output"].map fun suffix =>
      epoch ++ "-stage-" ++ Text.natText call.hop ++ "." ++ suffix.toList

/-- `live_relay_admission`. -/
def admission : Result Bytes := do
  let when ← livePlan call.profile (call.hop + 1) call.origin call.tick
  return PrivateBackend.ascii "Mini/live-relay-admission/v1"
    ++ (call.profile.aad (call.hop + 1)
    ++ (Wire.toLeBytes 8 call.origin.toNat ++ (Wire.toLeBytes 8 call.tick.toNat
    ++ (Wire.toLeBytes 8 when ++ (c.sha256.digest call.manifest ++ c.sha256.digest call.input)))))

/-- The checks before the journal is consulted: the peeled packets and the admission. -/
def prepare : Result (List Bytes × Bytes) := do
  call.profile.check
  refuseIf (decide (3 ≤ call.hop)) "live relay cannot impersonate receiver"
  refuseIf (call.segment.length
      != call.manifestLength + 19 + call.profile.width * call.profile.size call.hop)
    "live stage exact shape"
  let key ← readKey c call.key
  let next ← prepareTransition c call.profile call.hop key call.input call.manifest call.auth
  let admission ← call.admission c
  return (next, admission)

/-- The recorded output of an admission that was claimed before. -/
def replay (files : Files) (admission : Bytes) : Result Bytes := do
  let recorded ← files.readPrivate call.claimName 1024
  refuseIf (recorded != admission) "changed live relay admission/profile replay refused"
  refuseIf (!files.contains call.outputName)
    "live relay claimed without output; outcome uncertain, no new shuffle"
  let cached ← files.readPrivate call.outputName
    (call.manifestLength + 19 + call.profile.width * call.profile.size (call.hop + 1))
  refuseIf (cached.take call.manifestLength != call.manifest) "live relay cached manifest mismatch"
  let next ← unbatch c call.profile (call.hop + 1) (cached.drop call.manifestLength)
  refuseIf (decide (sorted (digests c next) ≠ stageSet call.profile (call.hop + 1) call.manifest))
    "live relay cached output set mismatch"
  return cached

/-- The release of a new admission: the manifest and the shuffled batch. -/
def release (next : List Bytes) : Result Bytes := do
  let shuffled ← shuffle next call.draws
  let body ← batch call.profile (call.hop + 1) shuffled
  return call.manifest ++ body

end Call

/-- `live_relay`: the result and the files created, in order. -/
def liveRelay (c : Primitives) (call : Call) (files : Files) :
    Result Bytes × List (Text × Bytes) :=
  match call.prepare c with
  | .error e => (.error e, [])
  | .ok (next, admission) =>
    if call.legacyNames.any files.contains then
      (.error "live relay refuses legacy epoch journal migration", [])
    else if files.contains call.claimName then (call.replay c files admission, [])
    else if files.contains call.outputName then
      (.error "live relay orphan output without durable admission", [])
    else
      match call.release next with
      | .error e => (.error e, [(call.claimName, admission)])
      | .ok out => (.ok out, [(call.claimName, admission), (call.outputName, out)])

end MiniDregg.PqMailbox
