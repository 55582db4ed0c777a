import MiniDregg.Control.Action
import MiniDregg.Store.PrivateFiles
import MiniDregg.Text.Hex
import MiniDregg.Wire.Sha2

/-!
# The dispatch journal

The journal keeps one exact request for each ticket, under write-once names: the
class of the ticket, its recovery capability, the request, the marker that the
request was handed to a native exchange, and the reply.

## Implementation notes

A write that fails is part of the state an action starts from: after so many writes
that succeed, the next one fails, and the file it was to create is there or not (a
name can be linked before its staging file is removed). Owners and modes of files
are left out, and so is the text of the operating system's errors.
-/

namespace MiniDregg.AsyncDispatch

open Fallible Action

/-- A ticket: sixteen bytes. -/
abbrev Id := { b : Bytes // b.length = 16 }

/-- A recovery capability: thirty-two bytes. -/
abbrev Capability := { b : Bytes // b.length = 32 }

def MAX_CONFIG : Nat := 65536

def CARRIED_LOOKUP_MAX_FRAME : Nat := 12103788

def MAX_ENVELOPE : Nat := CARRIED_LOOKUP_MAX_FRAME + MAX_CONFIG + 38

def UNCERTAIN : Bytes :=
  "transport dispatch outcome uncertain; recover using native exact lookup".toUTF8.toList

/-- How many requests of each of the three classes are retained. -/
def retainedQuotas (total : Nat) : Nat → Nat
  | 0 => total / 2
  | 1 => total / 4
  | 2 => total - total / 2 - total / 4
  | _ => 0

/-- Where a worker is between its two critical sections. -/
inductive Phase
  | idle
  | exchanging (id : Id) (body : Bytes)
  | finishing (id : Id) (result : Bytes)
  | stopped
  deriving DecidableEq

/-- What a running service keeps in memory: the journal's quotas and counts, the reservations of
each class, the tickets in exchange and the worker of each class. -/
structure Memory where
  max : Nat → Nat
  count : Nat → Nat
  reserved : Nat → Nat
  active : Finset Id
  workers : Nat → Phase

/-- The state of an action: the directory, the memory and the write that is going to fail. -/
structure World where
  files : Files
  memory : Memory
  fault : Option (Nat × Bool)

/-- The file of a ticket. -/
def path (id : Id) (suffix : String) : Text := id.1.flatMap Text.hexByte ++ '.' :: suffix.toList

/-- `persist`: create a file that is not there yet. -/
def persist (name : Text) (bytes : Bytes) : Action World Unit := fun w =>
  match w.fault with
  | some (0, linked) =>
    (.error ("cannot create " ++ String.ofList name),
      if linked then { w with files := w.files.create name bytes } else w)
  | fault =>
    if w.files.contains name then
      (.error ("cannot create " ++ String.ofList name ++ ": File exists"), w)
    else
      (.ok (), { w with files := w.files.create name bytes,
                        fault := fault.map fun f => (f.1 - 1, f.2) })

variable (files : Files)

/-- A file of the directory. -/
def readPrivate (name : Text) (limit : Nat) : Action World Bytes := fun w =>
  (w.files.readPrivate name limit, w)

inductive Admission
  | fresh
  | cached (reply : Bytes)
  | uncertain
  deriving DecidableEq

/-- The byte of a class. -/
def classByte (k : Nat) : Bytes := [UInt8.ofNat k]

/-- The class file of a request that is about to be retained. -/
def keepClass (k : Nat) (id : Id) : Action World Unit := do
  let w ← state
  if w.files.contains (path id "class") then
    let held ← readPrivate (path id "class") 1
    refuseIf (held != classByte k) "traffic retained class conflict"
  else persist (path id "class") (classByte k)

/-- Retain a request, or find it retained under the same class. -/
def retain (k : Nat) (id : Id) (bytes : Bytes) : Action World Unit := do
  let w ← state
  if w.files.contains (path id "request") then
    let held ← readPrivate (path id "request") MAX_ENVELOPE
    refuseIf (held != bytes) "traffic ticket conflicts with retained exact envelope/class"
    let heldClass ← readPrivate (path id "class") 1
    refuseIf (heldClass != classByte k)
      "traffic ticket conflicts with retained exact envelope/class"
  else
    refuseIf (decide (w.memory.max k ≤ w.memory.count k))
      "traffic retained class capacity exhausted before dispatch"
    keepClass k id
    persist (path id "request") bytes
    modify fun w =>
      { w with memory.count := Function.update w.memory.count k (w.memory.count k + 1) }

/-- What the journal knows of a retained request. -/
def standing (id : Id) : Action World Admission := do
  let w ← state
  if w.files.contains (path id "reply") then
    let reply ← readPrivate (path id "reply") (MAX_ENVELOPE + 1)
    return .cached reply
  else if w.files.contains (path id "dispatch") then return .uncertain
  else return .fresh

/-- `Journal::admit`. -/
def journalAdmission (k : Nat) (id : Id) (bytes : Bytes) : Action World Admission := do
  refuseIf (decide (3 ≤ k) || bytes.isEmpty || decide (MAX_ENVELOPE < bytes.length))
    "native envelope exceeds traffic admission bound"
  retain k id bytes
  standing id

/-- `Journal::claim`. -/
def claim (sha256 : Wire.Digest) (id : Id) (bytes : Bytes) : Action World Unit :=
  persist (path id "dispatch") (sha256.digest bytes)

/-- `Journal::finish`. -/
def finishReply (id : Id) (bytes : Bytes) : Action World Unit := persist (path id "reply") bytes

/-- The stem of a name with a suffix. -/
def stripSuffix (suffix name : Text) : Option Text :=
  if suffix.isSuffixOf name then some (name.take (name.length - suffix.length)) else none

/-- Count the names with a suffix by the class that their ticket's class file holds. -/
def countClasses (suffix : Text) (checkStem : Text → Result Unit)
    (refusal : String) : Result (Nat → Nat) :=
  files.keys.foldlM (fun count name =>
    match stripSuffix suffix name with
    | none => .ok count
    | some stem => do
      checkStem stem
      let held ← files.readPrivate (stem ++ ".class") 1
      refuseIf (held.length != 1 || decide (3 ≤ (held.getD 0 0).toNat)) refusal
      let k := (held.getD 0 0).toNat
      return Function.update count k (count k + 1)) fun _ => 0

/-- `Journal::open`: the quotas and the counts. -/
def journalOpen (total : Nat) : Result ((Nat → Nat) × (Nat → Nat)) := do
  let max := retainedQuotas total
  let count ← countClasses files ".request" (fun _ => .ok ())
    "retained request missing immutable class; preserve old obligations before migration"
  refuseIf ((List.range 3).any fun k => decide (max k < count k))
    "retained traffic obligations exceed class reservation"
  return (max, count)

end MiniDregg.AsyncDispatch
