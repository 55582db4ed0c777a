import MiniDregg.AsyncDispatch.Journal

/-!
# The asynchronous dispatch service

Callers offer exact requests and fetch their results; one worker for each class hands
retained requests to the native target. Every critical section of the source is one
action here, so a run is any interleaving of offers, fetches and the sections of the
workers, with the native exchange between a worker's two sections. The process can
die during any action, and a new one can be opened on the directory it leaves.

## Implementation notes

The public envelope gate reads the pinned configuration and the request only, so it is
a parameter. Wake-ups of idle workers are left out: a worker can look for work at any
time. Two capabilities are compared through their tags; verifying a tag is computing it
again.
-/

namespace MiniDregg.AsyncDispatch

open Fallible Action

inductive DispatchState
  | ready (reply : Bytes)
  | accepted
  | uncertain
  deriving DecidableEq

/-- The arguments of `open`, fixed by the pin, and the functions of the linked libraries. -/
structure Setup where
  target : Bytes
  config : Bytes
  pending : Nat
  retained : Nat
  maxReply : Nat
  /-- `catalog_enabled` and `public_envelope` under the configuration. -/
  gate : Bytes → Result Unit
  sha256 : Wire.Digest
  /-- HMAC-SHA-256: key, message. -/
  sign : Bytes → Bytes → Bytes

def bytesOf (text : String) : Bytes := text.toUTF8.toList

def outcome (kind : UInt8) (bytes : Bytes) : Bytes := kind :: bytes

variable (s : Setup)

namespace Setup

/-- What a restart must present again. -/
def pin : Bytes :=
  bytesOf "Mini/native-async-custody/v1" ++ Wire.toLeBytes 8 s.maxReply ++ Wire.toLeBytes 8 s.pending
    ++ Wire.toLeBytes 8 s.retained ++ Wire.toLeBytes 8 s.target.length ++ s.target ++ s.config

/-- The tag that stands for a capability. -/
def accessTag (key : Bytes) : Bytes := s.sign key (bytesOf "Mini/native-custody-access/v1")

end Setup

/-- Pin a new directory, or find the pin of an old one. -/
def checkPin : Action World Unit := do
  let w ← state
  if w.files.contains "async-profile" then
    let held ← readPrivate "async-profile" (MAX_CONFIG + 8192)
    refuseIf (held != s.pin) "changed native gateway pin; preserve accepted obligations"
  else persist "async-profile" s.pin

/-- The bytes that the stem of a file name spells. -/
def stemBytes (stem : Text) : Result Bytes := do
  refuseIf (decide (Text.utf8Length stem % 2 ≠ 0)) "hex has odd length"
  Text.hexPairs stem

/-- The ticket that the stem of a file name spells. -/
def ticketOf (refusal : String) (stem : Text) : Result Id := do
  let bytes ← stemBytes stem
  if h : bytes.length = 16 then return ⟨bytes, h⟩ else throw refusal

/-- The memory of a service that starts on a directory. -/
def startingMemory (files : Files) : Result Memory := do
  let (max, count) ← journalOpen files s.retained
  let reserved ← countClasses files ".class"
    (fun stem => (ticketOf "invalid custody reservation ID" stem).map fun _ => ())
    "invalid custody reservation class"
  refuseIf ((List.range 3).any fun k => decide (max k < reserved k))
    "custody reservations exceed retained class capacity"
  return { max, count, reserved, active := ∅, workers := fun _ => .idle }

/-- `AsyncDispatch::open`. -/
def openService : Action World Unit := do
  refuseIf (decide (s.pending < 3) || decide (256 < s.pending)
      || decide (s.retained < s.pending * 4) || decide (1000000 < s.retained)
      || decide (s.maxReply = 0) || decide (MAX_ENVELOPE < s.maxReply)
      || decide (MAX_CONFIG < s.config.length) || decide (4096 < s.target.length))
    "invalid public asynchronous custody capacity"
  checkPin s
  let w ← state
  let memory ← lift (startingMemory s w.files)
  modify fun w => { w with memory }

/-- Reserve a place of the class for a ticket. -/
def reserve (k : Nat) (id : Id) : Action World Unit := do
  let w ← state
  if w.files.contains (path id "class") then
    let held ← readPrivate (path id "class") 1
    refuseIf (held != classByte k) "custody reservation class conflict"
  else
    refuseIf (decide (w.memory.max k ≤ w.memory.reserved k))
      "native custody class capacity exhausted before reservation"
    modify fun w =>
      { w with memory.reserved := Function.update w.memory.reserved k (w.memory.reserved k + 1) }
    persist (path id "class") (classByte k)

/-- `check_access`. -/
def checkAccess (id : Id) (expected : Capability) : Action World Unit := do
  let actual ← readPrivate (path id "recovery") 32
  refuseIf (s.accessTag actual != s.accessTag expected.1)
    "native custody recovery capability refused"

/-- Record the recovery capability of a ticket, or find it recorded. -/
def grantAccess (id : Id) (recovery : Capability) : Action World Unit := do
  let w ← state
  if w.files.contains (path id "recovery") then checkAccess s id recovery
  else
    refuseIf (w.files.contains (path id "request"))
      "existing request lacks original recovery access; preserve custody"
    persist (path id "recovery") recovery.1

/-- The part of `offer` that takes a request into custody. -/
def takeCustody (k : Nat) (id : Id) (body : Bytes) (recovery : Capability) :
    Action World Admission := do
  refuseIf (decide (3 ≤ k) || body.isEmpty || decide (MAX_ENVELOPE < body.length))
    "native envelope exceeds asynchronous custody bound"
  lift (s.gate body)
  reserve k id
  grantAccess s id recovery
  journalAdmission k id body

/-- `status`. -/
def status (active : Finset Id) (id : Id) : Admission → DispatchState
  | .cached reply => .ready reply
  | .uncertain => if id ∈ active then .accepted else .uncertain
  | .fresh => .accepted

/-- `AsyncDispatch::offer`. -/
def offer (k : Nat) (id : Id) (body : Bytes) (recovery : Capability) :
    Action World DispatchState := do
  let admission ← takeCustody s k id body recovery
  let w ← state
  let result := status w.memory.active id admission
  refuseIf (decide (result = .accepted ∧ w.memory.workers k = .stopped))
    "native custody worker stopped; restart preserves obligations"
  return result

/-- The request that a fetch names, after the checks of `fetch`. -/
def namedRequest (k : Nat) (id : Id) (digest : Bytes) (recovery : Capability) :
    Action World Bytes := do
  checkAccess s id recovery
  let body ← readPrivate (path id "request") MAX_ENVELOPE
  refuseIf (decide (3 ≤ k) || s.sha256.digest body != digest)
    "recovery capability does not name exact original request/class"
  let held ← readPrivate (path id "class") 1
  refuseIf (held != classByte k)
    "recovery capability does not name exact original request/class"
  return body

/-- `AsyncDispatch::fetch`. -/
def fetch (k : Nat) (id : Id) (digest : Bytes) (recovery : Capability) :
    Action World DispatchState := do
  let body ← namedRequest s k id digest recovery
  let admission ← journalAdmission k id body
  let w ← state
  return status w.memory.active id admission

/-- Claim the first request of the class that has no dispatch marker. -/
def claimFirst (k : Nat) : List Text → Action World (Option (Id × Bytes))
  | [] => pure none
  | name :: names =>
    match stripSuffix ".request" name with
    | none => claimFirst k names
    | some stem => do
      let id ← lift (ticketOf "invalid custody request ID" stem)
      let held ← readPrivate (path id "class") 1
      let w ← state
      if held != classByte k || w.files.contains (path id "dispatch") then
        claimFirst k names
      else
        let _ ← readPrivate (path id "recovery") 32
        let body ← readPrivate name MAX_ENVELOPE
        claim s.sha256 id body
        modify fun w => { w with memory.active := insert id w.memory.active }
        return some (id, body)

/-- The first critical section of a worker. -/
def scan (k : Nat) : Action World (Option (Id × Bytes)) := do
  let w ← state
  claimFirst s k w.files.keys

/-- What a worker records for its exchange, given what the native target answers. -/
def exchangeResult (body : Bytes) (answer : Result Bytes) : Bytes :=
  match s.gate body with
  | .error e => outcome 2 (bytesOf e)
  | .ok () =>
    match answer with
    | .ok v => if v.length ≤ s.maxReply then outcome 0 v else outcome 1 UNCERTAIN
    | .error _ => outcome 1 UNCERTAIN

/-- A call of the service. -/
inductive Query
  | offer (k : Nat) (id : Id) (body : Bytes) (recovery : Capability)
  | fetch (k : Nat) (id : Id) (digest : Bytes) (recovery : Capability)

namespace Query

/-- The ticket of a call. -/
def id : Query → Id
  | offer _ id _ _ => id
  | fetch _ id _ _ => id

/-- The class that a call names. -/
def klass : Query → Nat
  | offer k _ _ _ => k
  | fetch k _ _ _ => k

/-- The recovery capability that a call presents. -/
def recovery : Query → Capability
  | offer _ _ _ recovery => recovery
  | fetch _ _ _ recovery => recovery

/-- Whether a call is about a body: an offer carries it, a fetch its digest. -/
def Names (body : Bytes) : Query → Prop
  | offer _ _ body' _ => body' = body
  | fetch _ _ digest _ => digest = s.sha256.digest body

end Query

/-- One action of a run. An exchange carries what the native target answers. -/
inductive Request
  | start
  | call (q : Query)
  | scan (k : Nat)
  | exchange (k : Nat) (answer : Result Bytes)
  | finish (k : Nat)

/-- An action with the write of it that fails, if one does. A killed process dies at that write,
or else at the end of the action before it returned anything. -/
structure Event where
  request : Request
  fault : Option (Nat × Bool)
  killed : Bool

/-- What can be seen of a run: requests that the journal took into custody, frames sent to the
native target, and answers to callers. -/
inductive Observation
  | accepted (k : Nat) (id : Id) (body : Bytes) (recovery : Capability)
  | sent (k : Nat) (id : Id) (body : Bytes)
  | answered (q : Query) (state : DispatchState)

/-- The directory, and the memory of the process that runs on it. -/
structure System where
  files : Files
  process : Option Memory

namespace Memory

/-- The memory with a worker in a phase. -/
def withWorker (m : Memory) (k : Nat) (phase : Phase) : Memory :=
  { m with workers := Function.update m.workers k phase }

end Memory

/-- The system after an action of the process. -/
def System.after (killed : Bool) (files : Files) (memory : Memory) : System :=
  { files, process := if killed then none else some memory }

/-- What a call put on record: the custody of an offer, and the answer if one was returned. -/
def callObservations (killed : Bool) (q : Query) (w : World) : List Observation :=
  let answered (r : Result DispatchState) : List Observation :=
    match killed, r with
    | false, .ok state => [.answered q state]
    | _, _ => []
  match q with
  | .offer k id body recovery =>
    (match (takeCustody s k id body recovery w).1 with
      | .ok _ => [.accepted k id body recovery]
      | .error _ => [])
      ++ answered (offer s k id body recovery w).1
  | .fetch k id digest recovery => answered (fetch s k id digest recovery w).1

/-- The state after a call. -/
def callWorld (q : Query) (w : World) : World :=
  match q with
  | .offer k id body recovery => (offer s k id body recovery w).2
  | .fetch k id digest recovery => (fetch s k id digest recovery w).2

/-- One action of a run: the next system and what was seen. Actions that the process is not ready
for change nothing. -/
def step (sys : System) (e : Event) : System × List Observation :=
  match sys.process, e.request with
  | none, .start =>
    let w : World := ⟨sys.files, ⟨fun _ => 0, fun _ => 0, fun _ => 0, ∅, fun _ => .stopped⟩,
      e.fault⟩
    match openService s w with
    | (.ok (), w') => (.after e.killed w'.files w'.memory, [])
    | (.error _, w') => (⟨w'.files, none⟩, [])
  | some m, .call q =>
    let w : World := ⟨sys.files, m, e.fault⟩
    let w' := callWorld s q w
    (.after e.killed w'.files w'.memory, callObservations s e.killed q w)
  | some m, .scan k =>
    if k < 3 ∧ m.workers k = .idle then
      match scan s k ⟨sys.files, m, e.fault⟩ with
      | (.ok (some (id, body)), w') =>
        (.after e.killed w'.files (w'.memory.withWorker k (.exchanging id body)), [])
      | (.ok none, w') => (.after e.killed w'.files w'.memory, [])
      | (.error _, w') => (.after e.killed w'.files (w'.memory.withWorker k .stopped), [])
    else (sys, [])
  | some m, .exchange k answer =>
    match m.workers k with
    | .exchanging id body =>
      (.after e.killed sys.files
          (m.withWorker k (.finishing id (exchangeResult s body answer))),
        match s.gate body with
        | .ok () => [.sent k id body]
        | .error _ => [])
    | _ => (sys, [])
  | some m, .finish k =>
    match m.workers k with
    | .finishing id result =>
      match finishReply id result ⟨sys.files, m, e.fault⟩ with
      | (r, w') =>
        (.after e.killed w'.files
          ({ w'.memory with active := w'.memory.active.erase id }.withWorker k
            (match r with
              | .ok () => .idle
              | .error _ => .stopped)), [])
    | _ => (sys, [])
  | _, _ => (sys, [])

/-- The system after a run, and everything seen of it. -/
def run : System → List Event → System × List Observation
  | sys, [] => (sys, [])
  | sys, e :: rest =>
    let (next, seen) := step s sys e
    let (last, later) := run next rest
    (last, seen ++ later)

end MiniDregg.AsyncDispatch
