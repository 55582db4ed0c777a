import MiniDregg.Scheduler.Operations

/-!
# Service of the inference scheduler

`service.rs`: a process that owns a directory with one snapshot of the core and
one file for every terminal receipt. A request is applied to a candidate, and
the candidate becomes the state after it has been saved: first a snapshot with
the terminal jobs in it, then their receipts, then a snapshot without them.

## Implementation notes

The directory is what survives a kill. `saveDirectories` lists every directory
a save passes through, so a restart can begin at each of them. Files are the
values whose serialized text they hold; the length of a file is the length of
that text. The checks on owner and mode of files, the lock and the sockets are
not modelled, and of a status reply only that it is one.
-/

namespace MiniDregg.Scheduler

open Fallible Store Text Scheduler

def Outcome.name : Outcome → Text
  | ended => "ended"
  | notSent => "not-sent"
  | uncertain => "uncertain"
  | cancelled => "cancelled"
  | expired => "expired"
  | drained => "drained"
  | operatorResolved => "operator-resolved"

/-- A state as the serializer writes it. -/
def State.json : State → Text
  | queued => jsonObject [("state", jsonText "queued")]
  | placed lease backend endpoint group expiresMs estimatedUs =>
    jsonObject [("state", jsonText "placed"), ("lease", natText lease),
      ("backend", jsonText backend), ("endpoint", jsonText endpoint),
      ("group", jsonText group), ("expires_ms", natText expiresMs),
      ("estimated_us", natText estimatedUs)]
  | dispatched lease backend group attempt startedMs estimatedUs stopRequested =>
    jsonObject [("state", jsonText "dispatched"), ("lease", natText lease),
      ("backend", jsonText backend), ("group", jsonText group),
      ("attempt", jsonText attempt), ("started_ms", natText startedMs),
      ("estimated_us", natText estimatedUs),
      ("stop_requested", jsonBool stopRequested)]
  | uncertain lease backend group attempt startedMs estimatedUs =>
    jsonObject [("state", jsonText "uncertain"), ("lease", natText lease),
      ("backend", jsonText backend), ("group", jsonText group),
      ("attempt", jsonText attempt), ("started_ms", natText startedMs),
      ("estimated_us", natText estimatedUs)]
  | terminal outcome lease =>
    jsonObject [("state", jsonText "terminal"),
      ("outcome", jsonText outcome.name), ("lease", jsonOption lease)]

/-- A job as the serializer writes it. -/
def Job.json (job : Job) : Text :=
  jsonObject [("controller", jsonText job.controller),
    ("principal", jsonText job.principal), ("pool", jsonText job.pool),
    ("order", natText job.order), ("request", job.request.json), ("state", job.state.json),
    ("superseded_unsent", jsonArray (job.supersededUnsent.keys.map natText))]

/-- The length of the receipt of a job. -/
def Job.bytes (job : Job) : Nat := job.json.utf8Length

/-- A core as the serializer writes it. -/
def Core.json (core : Core) : Text :=
  jsonObject [("version", natText core.version),
    ("config_digest", jsonText core.configDigest), ("jobs", jsonMap core.jobs Job.json),
    ("archived_receipts", natText core.archivedReceipts),
    ("archived_bytes", natText core.archivedBytes),
    ("archived_drained", natText core.archivedDrained),
    ("service_us", jsonMap core.serviceUs natText), ("next", natText core.next),
    ("virtual_floor", natText core.virtualFloor), ("draining", jsonBool core.draining)]

/-- `MAX_RECEIPT_BYTES`. -/
def maxReceiptBytes : Nat := 128 * 1024

/-- `receipt_id`. -/
def receiptId (id : Text) : Bool := id.utf8Length == 64 && id.all isLowerHex

/-- The files of a service: the snapshot and the receipts by identity. -/
structure Directory where
  state : Option Core
  receipts : OrderedMap Text Job

/-- The directory before the first start. -/
def Directory.empty : Directory := ⟨none, .empty⟩

/-- The bytes of all receipts. -/
def Directory.bytes (directory : Directory) : Nat := (directory.receipts.values.map Job.bytes).sum

structure Service where
  config : Config
  core : Core
  directory : Directory
  poisoned : Bool
  receipts : Nat
  receiptBytes : Nat
  drainedReceipts : Nat

/-- Whether a job was drained. -/
def State.isDrained : State → Bool
  | terminal .drained _ => true
  | _ => false

/-- The refusal of a save that finds no room. -/
def archiveExhausted : String :=
  "terminal receipt archive exhausted; preserve state and increase archive budget"

namespace Service

section
variable (service : Service)

variable (id : Text)

/-- `Service::receipt`. -/
def receipt : Result (Option Job) :=
  if !receiptId id then .error "invalid receipt identity"
  else
    match service.directory.receipts.get? id with
    | none => .ok none
    | some job =>
      if job.bytes > maxReceiptBytes then .error "terminal receipt exceeds bound"
      else if job.request.id ≠ id ∨ !job.state.isTerminal then .error "invalid terminal receipt"
      else .ok (some job)

/-- `Service::save_snapshot`. -/
def saveSnapshot (state : Core) : Service :=
  { service with directory := { service.directory with state := some state } }

/-- A receipt written and counted. -/
def writeReceipt (job : Job) : Service :=
  { service with
    directory :=
      { service.directory with receipts := service.directory.receipts.insert id job }
    receipts := service.receipts + 1
    receiptBytes := service.receiptBytes + job.bytes
    drainedReceipts := service.drainedReceipts + if job.state.isDrained then 1 else 0 }

/-- The receipt of one terminal job: there already, or written if there is room. -/
def retire (job : Job) : Result Service := do
  match ← service.receipt id with
  | some saved =>
    if saved ≠ job then .error "terminal receipt conflicts with snapshot" else pure service
  | none =>
    refuseIf (decide (job.bytes > maxReceiptBytes) ||
      decide (service.receipts ≥ service.config.maxTerminalReceipts) ||
      decide (saturatingAdd service.receiptBytes job.bytes > service.config.maxReceiptBytes))
      archiveExhausted
    pure (service.writeReceipt id job)

end

/-- The receipts of the terminal jobs in turn; each job leaves the state with its receipt. -/
def retireAll : List (Text × Job) → Service → Core → Result Unit × Service × Core
  | [], service, state => (.ok (), service, state)
  | (id, job) :: rest, service, state =>
    match service.retire id job with
    | .error e => (.error e, service, state)
    | .ok service => retireAll rest service { state with jobs := state.jobs.erase id }

/-- The terminal jobs of a state. -/
def terminal (state : Core) : List (Text × Job) :=
  state.jobs.entries.filter fun e => e.2.state.isTerminal

/-- The snapshot before any receipt is published; none is needed without terminal jobs. -/
def beforeReceipts (service : Service) (state : Core) : Service :=
  if (terminal state).isEmpty then service else service.saveSnapshot state

/-- `Service::save`. -/
def save (service : Service) (state : Core) : Result Unit × Service × Core :=
  match retireAll (terminal state) (service.beforeReceipts state) state with
  | (.error e, service, state) => (.error e, service, state)
  | (.ok (), service, state) =>
    let state :=
      { state with
        archivedReceipts := service.receipts
        archivedBytes := service.receiptBytes
        archivedDrained := service.drainedReceipts }
    (.ok (), service.saveSnapshot state, state)

/-- The directories while the receipts are written. -/
def retireDirectories : List (Text × Job) → Service → List Directory
  | [], service => [service.directory]
  | (id, job) :: rest, service =>
    service.directory ::
      match service.retire id job with
      | .error _ => []
      | .ok service => retireDirectories rest service

/-- The directories a save passes through. -/
def saveDirectories (service : Service) (state : Core) : List Directory :=
  service.directory :: retireDirectories (terminal state) (service.beforeReceipts state) ++
    [(service.save state).2.1.directory]

end Service

/-- The requests of the socket. -/
inductive Command
  | status (after : Option Text) (limit : Nat)
  | statusGroups (after : Option Text)
  | drain (enabled : Bool)
  | enqueue (controller : Text) (job : Request)
  | inspect (controller id : Text)
  | dispatch (controller id : Text) (lease : Nat) (attempt : Text)
  | finish (controller id : Text) (lease : Nat) (outcome : Outcome)
  | cancel (controller id : Text)
  | resolve (id : Text)
  deriving DecidableEq

namespace Command

/-- `Command::controller`, with the identity the command addresses. -/
def addressed : Command → Option (Text × Text)
  | enqueue controller job => some (controller, job.id)
  | inspect controller id => some (controller, id)
  | dispatch controller id _ _ => some (controller, id)
  | finish controller id _ _ => some (controller, id)
  | cancel controller id => some (controller, id)
  | _ => none

end Command

/-- The state an operation leaves when it is accepted; a refused candidate is dropped. -/
def accepted (effect : Effect) : Result Core := effect.1.map fun _ => effect.2

namespace Service

section
variable (service : Service)

/-- The candidate with the receipt of the addressed job, when there is one and no live job. -/
def load (id : Text) (next : Core) : Result Core :=
  if next.jobs.contains id then .ok next
  else do
    match ← service.receipt id with
    | none => pure next
    | some job => pure { next with jobs := next.jobs.insert id job }

/-- The room for one more receipt, beside the receipts and the jobs counted. -/
def hasRoom (counted : Nat) : Bool :=
  !(decide (saturatingAdd (saturatingAdd service.receipts counted) 1 >
      service.config.maxTerminalReceipts) ||
    decide (saturatingAdd service.receiptBytes (saturatingMul (counted + 1) maxReceiptBytes) >
      service.config.maxReceiptBytes))

/-- The archive check of an enqueue: it counts the live jobs. -/
def admission (job : Request) (next : Core) : Result Unit :=
  refuseIf (!next.jobs.contains job.id && !service.hasRoom next.live)
    "terminal receipt archive admission full; increase archive budget, never delete receipts"

/-- The operation of a command on the candidate. -/
def perform (now : Nat) (next : Core) : Command → Result Core
  | .enqueue controller job => do
    service.admission job next
    accepted (enqueue service.config controller job now next)
  | .inspect _ _ => .ok next
  | .dispatch controller id lease attempt =>
    accepted (dispatch controller id lease attempt now next)
  | .finish controller id lease outcome =>
    accepted (finish controller id lease outcome now next)
  | .cancel controller id => accepted (cancel controller id next)
  | _ => .error "operator command requires operator path"

end

/-- The refusal of a service whose save has failed. -/
def durabilityFailed : String := "scheduler durability failed; restart and reconcile"

section
variable (service : Service)

/-- The candidate of a command and the job to reply with. -/
def candidate (uid : Nat) (command : Command) (now : Nat) :
    Result (Core × Job) := do
  refuseIf service.poisoned durabilityFailed
  match command.addressed with
  | none => .error "operator command requires operator path"
  | some (controller, id) =>
    match service.config.controllers.get? controller with
    | none => .error "unregistered controller"
    | some registration =>
      refuseIf (registration.uid != uid) "controller peer uid differs from registration"
      let next ← accepted (schedule service.config now service.core)
      let next ← service.load id next
      let next ← service.perform now next command
      let next ← accepted (schedule service.config now next)
      let reply ← inspect controller id next
      pure (next, reply)

/-- Save a candidate that differs from the state and make it the state. -/
def commit (next : Core) : Result Unit × Service :=
  if next = service.core then (.ok (), service)
  else
    match service.save next with
    | (.error e, service, _) => (.error e, { service with poisoned := true })
    | (.ok (), service, next) => (.ok (), { service with core := next })

/-- `Service::execute`. -/
def execute (uid : Nat) (command : Command) (now : Nat) :
    Result Job × Service :=
  match service.candidate uid command now with
  | .error e => (.error e, service)
  | .ok (next, reply) => ((service.commit next).1.map fun _ => reply, (service.commit next).2)

/-- The drain of an operator page, if it asks for one. -/
def drainOption (draining : Option Bool) (core : Core) : Core :=
  match draining with
  | some enabled => setDraining enabled core
  | none => core

/-- The resolution of an operator page, if it asks for one. -/
def resolveOption (resolve : Option Text) (now : Nat) (core : Core) : Result Core :=
  match resolve with
  | some id => accepted (Scheduler.resolve id now core)
  | none => .ok core

variable (euid uid : Nat)

/-- The candidate of an operator page. -/
def operatorCandidate (draining : Option Bool)
    (resolve : Option Text) (limit now : Nat) : Result Core := do
  refuseIf (uid != 0 && uid != euid) "scheduler operator requires root or trusted service uid"
  refuseIf service.poisoned durabilityFailed
  refuseIf (limit == 0 || decide (limit > 64)) "status page limit must be 1..64"
  let next ← resolveOption resolve now (drainOption draining service.core)
  accepted (schedule service.config now next)

/-- `Service::operator_page`, up to its status. -/
def operatorPage (draining : Option Bool)
    (resolve : Option Text) (limit now : Nat) : Result Unit × Service :=
  match service.operatorCandidate euid uid draining resolve limit now with
  | .error e => (.error e, service)
  | .ok next => service.commit next

/-- The arguments with which `serve` calls the operator page for a command. -/
def operatorArguments : Command → Option (Option Bool × Option Text × Nat)
  | .status _ limit => some (none, none, limit)
  | .statusGroups _ => some (none, none, 32)
  | .drain enabled => some (some enabled, none, 64)
  | .resolve id => some (none, some id, 64)
  | _ => none

variable (command : Command) (now : Nat)

/-- One round of `serve`, without the reply of a job request. -/
def handle :
    Result Unit × Service :=
  match operatorArguments command with
  | some (draining, resolve, limit) => service.operatorPage euid uid draining resolve limit now
  | none => ((service.execute uid command now).1.map fun _ => (),
      (service.execute uid command now).2)

/-- The candidate a round of `serve` commits. -/
def proposal : Result Core :=
  match operatorArguments command with
  | some (draining, resolve, limit) =>
    service.operatorCandidate euid uid draining resolve limit now
  | none => (service.candidate uid command now).map Prod.fst

theorem handle_eq :
    service.handle euid uid command now =
      match service.proposal euid uid command now with
      | .error e => (.error e, service)
      | .ok next => service.commit next := by
  unfold handle proposal
  split
  · rfl
  · unfold execute
    cases service.candidate uid command now with
    | error e => rfl
    | ok found =>
      obtain ⟨next, reply⟩ := found
      change (((service.commit next).1.map fun _ => reply).map fun _ => (),
        (service.commit next).2) = service.commit next
      refine Prod.ext ?_ rfl
      cases (service.commit next).1 <;> rfl

/-- What the save in a round of `serve` returns, if the round saves. -/
def saved :
    Option (Result Unit) :=
  match service.proposal euid uid command now with
  | .error _ => none
  | .ok next => if next = service.core then none else some (service.save next).1

end

/-- One file of the archive, counted. -/
def scanRound (counted : Nat × Nat) (e : Text × Job) : Result (Nat × Nat) := do
  refuseIf (!receiptId e.1) "invalid receipt name"
  refuseIf (decide (e.2.bytes > maxReceiptBytes)) "terminal receipt exceeds bound"
  refuseIf (decide (counted.2 + e.2.bytes ≥ 2 ^ 64)) "receipt bytes overflow"
  pure (counted.1 + 1, counted.2 + e.2.bytes)

/-- The files of the archive, counted. -/
def scan (directory : Directory) : Result (Nat × Nat) :=
  directory.receipts.entries.foldlM scanRound (0, 0)

variable (sha : Wire.Digest)

/-- The core of the snapshot, or a new one. -/
def openCore (config : Config) (directory : Directory) : Result Core :=
  match directory.state with
  | some core =>
    if core.json.utf8Length + 1 > 128 * 1024 * 1024 then .error "scheduler state exceeds bound"
    else .ok core
  | none => Core.new sha config

/-- The drained receipts, counted again when the snapshot does not match the archive. -/
def countDrained (core : Core) (directory : Directory) (receipts bytes : Nat) : Result Nat :=
  if receipts ≠ core.archivedReceipts ∨ bytes ≠ core.archivedBytes then do
    directory.receipts.values.forM fun job =>
      refuseIf (!job.state.isTerminal) "nonterminal archive record"
    pure (directory.receipts.count fun job => job.state.isDrained)
  else .ok core.archivedDrained

/-- The refusal of a snapshot that contradicts the archive. -/
def archiveConflict : String :=
  "terminal archive conflicts with unresolved snapshot; restore matching snapshot and archive"

/-- `Service::open` up to its save: the service on the files and the recovered candidate. -/
def reopen (config : Config) (directory : Directory) :
    Result (Service × Core) := do
  config.validate
  let core ← openCore sha config directory
  let counted ← scan directory
  refuseIf (decide (counted.1 < core.archivedReceipts) || decide (counted.2 < core.archivedBytes))
    "terminal receipt archive lost evidence; restore complete archive"
  let drained ← countDrained core directory counted.1 counted.2
  let service : Service :=
    { config := config
      core := core
      directory := directory
      poisoned := false
      receipts := counted.1
      receiptBytes := counted.2
      drainedReceipts := drained }
  core.jobs.entries.forM fun e => do
    match ← service.receipt e.1 with
    | some receipt =>
      refuseIf (decide (e.2 ≠ receipt)) archiveConflict
    | none => pure ()
  let next ← accepted (recover config sha core)
  pure (service, next)

end Service

/-- The process and its files: a running service, or files alone. -/
inductive System
  | running (service : Service)
  | stopped (directory : Directory)

/-- The files of a system. -/
def System.directory : System → Directory
  | running service => service.directory
  | stopped directory => directory

/-- What happens to a system. A kill names how many of the directories of the save were
reached. -/
inductive Event
  | start
  | request (uid : Nat) (command : Command) (now : Nat)
  | startKilled (reached : Nat)
  | requestKilled (uid : Nat) (command : Command) (now : Nat) (reached : Nat)

section Histories
variable (sha : Wire.Digest) (config : Config) (euid : Nat)

/-- `Service::open` on the files: what its save returns, if it gets there, and the system. -/
def openSystem (directory : Directory) : Option (Result Unit) × System :=
  match Service.reopen sha config directory with
  | .error _ => (none, .stopped directory)
  | .ok (service, next) =>
    match service.save next with
    | (.error e, service, _) => (some (.error e), .stopped service.directory)
    | (.ok (), service, next) => (some (.ok ()), .running { service with core := next })

/-- The files when a start is killed. -/
def openKilled (reached : Nat) (directory : Directory) : Directory :=
  match Service.reopen sha config directory with
  | .error _ => directory
  | .ok (service, next) => (service.saveDirectories next)[reached]?.getD directory

/-- The files when a request is killed. -/
def Service.handleKilled (service : Service) (uid : Nat) (command : Command) (now reached : Nat) :
    Directory :=
  match service.proposal euid uid command now with
  | .error _ => service.directory
  | .ok next =>
    if next = service.core then service.directory
    else (service.saveDirectories next)[reached]?.getD service.directory

/-- What the save of an event returns, if the event saves, and the system after it. -/
def Event.run : Event → System → Option (Result Unit) × System
  | start, system => openSystem sha config system.directory
  | request uid command now, .running service =>
    (service.saved euid uid command now, .running (service.handle euid uid command now).2)
  | startKilled reached, system =>
    (none, .stopped (openKilled sha config reached system.directory))
  | requestKilled uid command now reached, .running service =>
    (none, .stopped (service.handleKilled euid uid command now reached))
  | _, .stopped directory => (none, .stopped directory)

end Histories

end MiniDregg.Scheduler
