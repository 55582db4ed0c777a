import MiniDregg.PrivateBackend.Anchor

/-!
# Reservation with a receipt

`reserve_with_receipt` runs under an advisory lock, keeps its exact request in
an intent file, reads the anchor, reserves, and leaves a receipt. A call is cut
here at the points where other processes can interfere: `Call.advance` is the
code between two such points, `Phase` what the call carries across them. A
`World` holds the files, the locks, the anchor with its queue of connections,
and every call started so far; `World.step` is one move of a schedule.

## Implementation notes

* The listener hands connections to the anchor in the order in which they were
  made. A packet stays in the queue when its caller has given up, so a request
  may be applied after its call has failed.
* `snapshot` writes a new file and renames it over the target. The target is
  replaced at once, and a lock held on a replaced file no longer excludes
  anyone. The temporary file and its nonce are left out.
* A path names one file: links and spellings such as `..` are left out.
-/

namespace MiniDregg.PrivateBackend

open Fallible TransitionJournal Function

/-- A path with a file name. -/
structure Path where
  parent : List Char
  fileName : List Char
  deriving DecidableEq

namespace Path

/-- `Path::file_stem`: the name in front of its last dot, or the whole name when
it has no dot behind its first character. -/
def fileStem (p : Path) : List Char :=
  let reversed := p.fileName.reverse
  let front := reversed.drop ((reversed.takeWhile fun c => decide (c ≠ '.')).length + 1)
  if front.isEmpty then p.fileName else front.reverse

/-- `Path::with_extension`, for a nonempty extension. -/
def withExtension (p : Path) (ext : String) : Path :=
  { p with fileName := p.fileStem ++ '.' :: ext.toList }

end Path

/-- The arguments of `reserve_with_receipt`; all calls share one anchor. -/
structure Call where
  lockPath : Path
  request : Bytes
  ids : List Correlation
  generation : Generation
  purpose : Purpose
  receipt : Bytes
  localPath : Path
  what : String

/-- Where a call stands: what it has read and what it waits for. -/
inductive Phase
  | locked
  | surveying (retained : Option Bytes)
  | surveyed (retained : Option Bytes) (before : Journal)
  | intended (before : Journal)
  | sending (before : Journal)
  | confirmed (before confirmed : Journal)
  | recorded (confirmed : Journal)
  | auditing (confirmed : Journal)
  | audited (confirmed latest : Journal)
  | ended

namespace Phase

def isEnded : Phase → Bool
  | ended => true
  | _ => false

/-- What a waiting call makes of the reply to its packet. -/
def receive : Phase → Bytes → Result Phase
  | surveying retained, b => do
    let before ← Journal.decode b
    pure (surveyed retained before)
  | sending before, b => do
    let confirmed ← Journal.decode b
    pure (.confirmed before confirmed)
  | auditing known, b => do
    let latest ← Journal.decode b
    pure (audited known latest)
  | phase, _ => .ok phase

end Phase

/-- What a stretch of code does to the world before the call waits again. -/
structure Effect where
  phase : Phase
  write : Option (Path × Bytes)
  send : Option Bytes
  returns : Option (Journal × Bytes)

namespace Call

instance : DecidableEq Call := fun a b =>
  decidable_of_iff (a.lockPath = b.lockPath ∧ a.request = b.request ∧ a.ids = b.ids ∧
    a.generation = b.generation ∧ a.purpose = b.purpose ∧ a.receipt = b.receipt ∧
    a.localPath = b.localPath ∧ a.what = b.what) (by cases a; cases b; simp)

variable (c : Call)

def intentPath : Path := c.localPath.withExtension "intent"

/-- The exact request as it is kept on disk: the receipt prefix and the packet. -/
def intent : Bytes := c.receipt ++ bytes c.request

def held (before : Journal) : Bool :=
  before.holdsBatch c.ids c.generation c.purpose

/-- The receipt over a confirmed journal. -/
def receiptFor (confirmed : Journal) : Bytes := c.receipt ++ bytes confirmed.encode

/-- The binding and retention check of a confirmed journal. -/
def checkAllocation (before confirmed : Journal) : Result Unit :=
  refuseIf (!confirmed.extends before || !confirmed.preservesAllocations before ||
    c.ids.any fun id =>
      match confirmed.indexed id with
      | none => true
      | some a => decide (a.generation ≠ c.generation) || decide (a.purpose ≠ c.purpose) ||
          a.consumed)
    (c.what ++ " allocation binding/retention")

/-- The body of `reserve_with_receipt` from one wait to the next. A call that
is waiting for a reply and runs again has timed out. -/
def advance (disk : Path → Option Bytes) (readable : Bool) : Phase → Result Effect
  | .locked =>
    let retained := if readable then disk c.intentPath else none
    .ok ⟨.surveying retained, none, some [0], none⟩
  | .surveyed retained before =>
    if c.held before && decide (retained = some c.intent) then
      .ok ⟨.confirmed before before, none, none, none⟩
    else
      let write := if !c.held before && decide (retained ≠ some c.intent) then
        some (c.intentPath, c.intent) else none
      .ok ⟨.intended before, write, none, none⟩
  | .intended before => do
    let _ ← before.reserveBatch c.ids c.generation c.purpose
    refuseIf (decide (c.request.length > MAX)) "packet bound"
    pure ⟨.sending before, none, some c.request, none⟩
  | .confirmed before confirmed => do
    c.checkAllocation before confirmed
    pure ⟨.recorded confirmed, some (c.localPath, c.receiptFor confirmed), none, none⟩
  | .recorded confirmed => do
    refuseIf (decide (disk c.localPath ≠ some (c.receiptFor confirmed)))
      (c.what ++ " durable readback")
    pure ⟨.auditing confirmed, none, some [0], none⟩
  | .audited confirmed latest => do
    refuseIf (!latest.extends confirmed || !latest.preservesAllocations confirmed)
      (c.what ++ " anchor regression")
    pure ⟨.ended, none, none, some (confirmed, c.receiptFor confirmed)⟩
  | _ => .error "timed out"

end Call

structure Client where
  call : Call
  phase : Phase

/-- A call that returned `Ok`, with the journal and the receipt it returned. -/
structure Returned where
  call : Call
  confirmed : Journal
  receipt : Bytes

/-- Calls are numbered in the order in which they took their lock. -/
structure World (sha : Wire.Digest) where
  disk : Path → Option Bytes
  holder : Path → Option Nat
  anchor : Anchor sha
  queue : List (Nat × Bytes)
  clients : List Client
  returned : List Returned

/-- One move of a schedule. `lose` cuts a connection before its packet is
handled, `restart` reopens the anchor, `crash` kills the process of a call. -/
inductive Action
  | start (call : Call)
  | advance (i : Nat) (readable : Bool)
  | serve (fault : Option WriteFault)
  | lose (k : Nat)
  | restart
  | crash (i : Nat)

namespace World

variable {sha : Wire.Digest}

/-- Some files, a fresh anchor and no call. -/
def initial (disk : Path → Option Bytes) : World sha :=
  ⟨disk, fun _ => none, Anchor.fresh, [], [], []⟩

def setPhase (w : World sha) (i : Nat) (phase : Phase) : World sha :=
  { w with clients := w.clients.modify i fun cl => { cl with phase := phase } }

/-- The call is over and its lock is free. -/
def endCall (w : World sha) (i : Nat) : World sha :=
  { w.setPhase i .ended with
    holder := fun p => if w.holder p = some i then none else w.holder p }

/-- `snapshot`. -/
def snapshot (w : World sha) (p : Path) (b : Bytes) : World sha :=
  { w with disk := update w.disk p (some b), holder := update w.holder p none }

/-- The start of a call: its lock is taken and, if need be, the lock file made. -/
def begin (w : World sha) (c : Call) : World sha :=
  { w with
    disk := update w.disk c.lockPath (some ((w.disk c.lockPath).getD []))
    holder := update w.holder c.lockPath (some w.clients.length)
    clients := w.clients ++ [⟨c, .locked⟩] }

def perform (w : World sha) (i : Nat) (c : Call) (e : Effect) : World sha :=
  let w := match e.write with
    | none => w
    | some (p, b) => w.snapshot p b
  let w := match e.send with
    | none => w
    | some b => { w with queue := w.queue ++ [(i, b)] }
  match e.returns with
  | none => w.setPhase i e.phase
  | some (j, r) => { w.endCall i with returned := ⟨c, j, r⟩ :: w.returned }

/-- The reply to the packet of a call; one over the packet bound is not sent. -/
def deliver (w : World sha) (i : Nat) (reply : Bytes) : World sha :=
  match w.clients[i]? with
  | none => w
  | some cl =>
    if reply.length + 1 > MAX then w.endCall i
    else
      match cl.phase.receive reply with
      | .error _ => w.endCall i
      | .ok phase => w.setPhase i phase

def step (w : World sha) : Action → Option (World sha)
  | .start c => if (w.holder c.lockPath).isSome then some w else some (w.begin c)
  | .advance i readable =>
    match w.clients[i]? with
    | none => none
    | some cl =>
      if cl.phase.isEnded then none
      else
        match cl.call.advance w.disk readable cl.phase with
        | .error _ => some (w.endCall i)
        | .ok e => some (w.perform i cl.call e)
  | .serve fault =>
    match w.queue with
    | [] => none
    | (i, b) :: rest =>
      match Anchor.handle w.anchor b fault with
      | (a, .error _) => some ({ w with anchor := a, queue := rest }.endCall i)
      | (a, .ok reply) => some ({ w with anchor := a, queue := rest }.deliver i reply)
  | .lose k => some { w with queue := w.queue.eraseIdx k }
  | .restart =>
    match (Anchor.openAnchor w.anchor.file : Bytes × Result (Anchor sha)) with
    | (_, .error _) => none
    | (_, .ok a) => some { w with anchor := a, queue := [] }
  | .crash i => some (w.endCall i)

/-- A schedule, action by action. -/
def run (w : World sha) : List Action → Option (World sha)
  | [] => some w
  | a :: rest =>
    match w.step a with
    | none => none
    | some w' => w'.run rest

end World

end MiniDregg.PrivateBackend
