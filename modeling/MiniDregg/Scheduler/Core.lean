import MiniDregg.Scheduler.Config

/-!
# Core of the inference scheduler

The state of `core.rs` and its operations: admission, placement under leases,
dispatch, completion, cancellation, drain and recovery after a restart.

## Implementation notes

An operation returns its result together with the state it leaves: a refusal
can come after part of the state has changed, and that part stays. The loops of
the source that rewrite every job and collect refunds are one definition,
`Core.rewriteJobs`, applied to what each of them does to a single job. The
placement loop carries fuel; every round takes one job out of the queue, so the
number of jobs is enough.
-/

namespace MiniDregg.Scheduler

open Fallible Store

/-- How a job ended. -/
inductive Outcome
  | ended | notSent | uncertain | cancelled | expired | drained | operatorResolved
  deriving DecidableEq

/-- The state of a job. -/
inductive State
  | queued
  | placed (lease : Nat) (backend endpoint group : Text) (expiresMs estimatedUs : Nat)
  | dispatched (lease : Nat) (backend group attempt : Text) (startedMs estimatedUs : Nat)
      (stopRequested : Bool)
  | uncertain (lease : Nat) (backend group attempt : Text) (startedMs estimatedUs : Nat)
  | terminal (outcome : Outcome) (lease : Option Nat)
  deriving DecidableEq

namespace State

/-- `group`: the capacity group whose slot the job holds. -/
def group : State → Option Text
  | placed _ _ _ group _ _ => some group
  | dispatched _ _ group _ _ _ _ => some group
  | uncertain _ _ group _ _ _ => some group
  | _ => none

/-- The cost reserved for a job that holds a slot. -/
def estimated : State → Option Nat
  | placed _ _ _ _ _ estimatedUs => some estimatedUs
  | dispatched _ _ _ _ _ estimatedUs _ => some estimatedUs
  | uncertain _ _ _ _ _ estimatedUs => some estimatedUs
  | _ => none

def isTerminal : State → Bool
  | terminal _ _ => true
  | _ => false

end State

structure Job where
  controller : Text
  principal : Text
  pool : Text
  order : Nat
  request : Request
  state : State
  /-- Old placements proven unsent at a restart. -/
  supersededUnsent : OrderedMap Nat Unit
  deriving DecidableEq

structure Core where
  version : Nat
  configDigest : Text
  jobs : OrderedMap Text Job
  archivedReceipts : Nat
  archivedBytes : Nat
  archivedDrained : Nat
  serviceUs : OrderedMap Text Nat
  next : Nat
  virtualFloor : Nat
  draining : Bool

/-- States are compared with their jobs first, where a transition shows. -/
instance : DecidableEq Core := fun a b =>
  decidable_of_iff (a.jobs = b.jobs ∧ a.next = b.next ∧ a.serviceUs = b.serviceUs ∧
      a.virtualFloor = b.virtualFloor ∧ a.draining = b.draining ∧
      a.archivedReceipts = b.archivedReceipts ∧ a.archivedBytes = b.archivedBytes ∧
      a.archivedDrained = b.archivedDrained ∧ a.version = b.version ∧
      a.configDigest = b.configDigest) <| by
    cases a
    cases b
    simp only [Core.mk.injEq]
    tauto

/-- What an operation returns and the state it leaves. -/
abbrev Effect := Result Unit × Core

/-- `MAX_UNSENT_LEASE_GUARDS`. -/
def maxUnsentLeaseGuards : Nat := 1024

/-- `u64::saturating_add`. -/
def saturatingAdd (a b : Nat) : Nat := min (a + b) (2 ^ 64 - 1)

/-- `u64::saturating_mul`. -/
def saturatingMul (a b : Nat) : Nat := min (a * b) (2 ^ 64 - 1)

/-- The job with another state. -/
def Job.withState (job : Job) (state : State) : Job := { job with state := state }

namespace Core

/-- The empty scheduler under a configuration. -/
def initial (sha : Wire.Digest) (config : Config) : Core where
  version := 1
  configDigest := config.fingerprint sha
  jobs := .empty
  archivedReceipts := 0
  archivedBytes := 0
  archivedDrained := 0
  serviceUs := .empty
  next := 1
  virtualFloor := 0
  draining := false

/-- `Core::new`. -/
def new (sha : Wire.Digest) (config : Config) : Result Core := do
  config.validate
  pure (initial sha config)

/-- `Core::serial`. -/
def serial (core : Core) : Result (Nat × Core) :=
  if core.next + 1 < 2 ^ 64 then .ok (core.next, { core with next := core.next + 1 })
  else .error "scheduler sequence exhausted"

/-- The service accounted to a principal. -/
def service (core : Core) (principal : Text) : Nat := (core.serviceUs.get? principal).getD 0

/-- `Core::credit`. -/
def credit (core : Core) (refund : Text × Nat) : Core :=
  { core with serviceUs := core.serviceUs.insert refund.1 (core.service refund.1 - refund.2) }

/-- Rewrite every job, then refund what the rewriting gives back to each principal. -/
def rewriteJobs (rewrite : Job → Job × Option Nat) (core : Core) : Core :=
  let refunds := core.jobs.values.filterMap fun job =>
    (rewrite job).2.map fun amount => (job.principal, amount)
  refunds.foldl credit { core with jobs := core.jobs.map fun job => (rewrite job).1 }

variable (core : Core)

/-- The reserved cost of a principal's jobs. -/
def reserved (principal : Text) : Nat :=
  ((core.jobs.values.filter fun job => job.principal == principal).filterMap
    fun job => job.state.estimated).foldl saturatingAdd 0

/-- `Core::advance_floor`. -/
def advanceFloor : Core :=
  let active := core.jobs.values.filter fun job => !job.state.isTerminal
  match (active.map fun job => core.service job.principal - core.reserved job.principal).min? with
  | none => core
  | some next => { core with virtualFloor := max core.virtualFloor next }

/-- The slots of a group in use. -/
def occupied (group : Text) : Nat :=
  core.jobs.count fun job => job.state.group == some group

/-- The slots a principal holds. -/
def active (principal : Text) : Nat :=
  core.jobs.count fun job => job.principal == principal && job.state.group.isSome

/-- The jobs that are not terminal. -/
def live : Nat := core.jobs.count fun job => !job.state.isTerminal

end Core

section Schedule

/-- The expiry of a queued or placed job. -/
def expireJob (now : Nat) (job : Job) : Job × Option Nat :=
  match job.state with
  | .queued =>
    if job.request.queueDeadlineMs ≤ now then (job.withState (.terminal .expired none), none)
    else (job, none)
  | .placed lease _ _ _ expiresMs estimatedUs =>
    if expiresMs ≤ now then
      (job.withState (.terminal .expired (some lease)), some estimatedUs)
    else (job, none)
  | _ => (job, none)

/-- A job, a backend with a free slot for it, and what orders such choices. -/
structure Choice where
  service : Nat
  order : Nat
  cost : Nat
  backend : Text
  id : Text
  deriving DecidableEq

/-- The tuple order of the source. -/
def Choice.le (a b : Choice) : Bool :=
  if a.service ≠ b.service then a.service < b.service
  else if a.order ≠ b.order then a.order < b.order
  else if a.cost ≠ b.cost then a.cost < b.cost
  else if a.backend ≠ b.backend then a.backend < b.backend
  else a.id ≤ b.id

/-- The scheduling cost of a request on a backend that has its model. -/
def cost (backend : Backend) (request : Request) : Result Nat :=
  match backend.models.get? request.model with
  | none => .ok 0
  | some model =>
    let total := request.maxInput * model.inputUs + request.maxOutput * model.outputUs
    if total < 2 ^ 64 then .ok total else .error "scheduling cost overflows"

variable (config : Config)

/-- The choices for one waiting job: every eligible backend whose group has a free slot. -/
def offers (core : Core) (job : Job) : Result (List Choice) :=
  (config.backends.entries.filter fun e =>
    eligible e.2 job.pool job.request &&
      decide (core.occupied e.2.group < (config.groups.get? e.2.group).getD 0)).mapM fun e => do
    let cost ← cost e.2 job.request
    pure
      { service := core.service job.principal
        order := job.order
        cost := cost
        backend := e.1
        id := job.request.id }

/-- The choices for the waiting jobs in order. A principal at its bound is skipped, and so is
a job when an earlier one of the same principal, pool and model was offered a slot. -/
def choicesFrom (core : Core) : List (Text × Text × Text) → List Job → Result (List Choice)
  | _, [] => .ok []
  | seen, job :: rest => do
    let family := (job.principal, job.pool, job.request.model)
    if seen.contains family ||
        decide (core.active job.principal ≥ config.maxActivePerPrincipal) then
      choicesFrom core seen rest
    else
      let offered ← offers config core job
      let others ← choicesFrom core (if offered.isEmpty then seen else family :: seen) rest
      pure (offered ++ others)

/-- The queued jobs by admission order. -/
def waiting (core : Core) : List Job :=
  (core.jobs.values.filter fun job => job.state == .queued).insertionSort
    fun a b => a.order ≤ b.order

/-- The choices of a placement round, best first. -/
def choices (core : Core) : Result (List Choice) := do
  let unsorted ← choicesFrom config core [] (waiting core)
  pure (unsorted.insertionSort fun a b => a.le b)

/-- The placement of a job under a lease; it expires with the queue deadline at the latest. -/
def placed (now lease : Nat) (choice : Choice) (backend : Backend) (job : Job) : State :=
  .placed lease choice.backend backend.endpoint backend.group
    (min (saturatingAdd now config.leaseMs) job.request.queueDeadlineMs) choice.cost

/-- Place the chosen job under a fresh lease. -/
def place (now : Nat) (choice : Choice) (core : Core) : Effect :=
  match core.serial with
  | .error e => (.error e, core)
  | .ok (lease, core) =>
    match config.backends.get? choice.backend, core.jobs.get? choice.id with
    | some backend, some job =>
      let service := core.service job.principal
      if service + choice.cost < 2 ^ 64 then
        (.ok (),
          { core with
            serviceUs := core.serviceUs.insert job.principal (service + choice.cost)
            jobs := core.jobs.modify choice.id fun job =>
              job.withState (placed config now lease choice backend job) })
      else
        -- The entry has been created by then.
        (.error "virtual service exhausted",
          { core with serviceUs := core.serviceUs.insert job.principal service })
    -- A choice names a configured backend and a queued job.
    | _, _ => (.ok (), core)

/-- The placement loop of `schedule`. -/
def placements (now : Nat) : Nat → Core → Effect
  | 0, core => (.ok (), core)
  | fuel + 1, core =>
    let core := core.advanceFloor
    match choices config core with
    | .error e => (.error e, core)
    | .ok [] => (.ok (), core)
    | .ok (choice :: _) =>
      match place config now choice core with
      | (.error e, core) => (.error e, core)
      | (.ok (), core) => placements now fuel core

/-- `Core::schedule`. -/
def schedule (now : Nat) (core : Core) : Effect :=
  let core := core.rewriteJobs (expireJob now)
  if core.draining then (.ok (), core)
  else placements config now (core.jobs.entries.length + 1) core

end Schedule

section Requests
variable (config : Config)

/-- The checks of `enqueue` that look at the request alone. -/
def checkRequest (request : Request) : Result Unit := do
  refuseIf (decide (request.json.utf8Length > maxFrame)) "scheduler request exceeds frame bound"
  refuseIf (!hash request.id || !hash request.requestDigest || !text request.model ||
    request.maxInput == 0 || request.maxOutput == 0 || request.allowedEndpoints.isEmpty ||
    decide (request.allowedEndpoints.length > 64) ||
    request.allowedEndpoints.any fun value => !endpoint value) "invalid job identity or bounds"

/-- The checks of `enqueue` on a request whose identity is not retained. -/
def admissible (controller : Text) (request : Request) (now : Nat) (core : Core) :
    Result Registration := do
  refuseIf core.draining "scheduler-draining"
  match config.controllers.get? controller with
  | none => .error "unregistered controller"
  | some registration =>
    refuseIf (decide (request.queueDeadlineMs ≤ now)) "queue deadline elapsed"
    refuseIf (decide (core.live ≥ config.maxJobs)) "active job capacity exhausted"
    refuseIf (decide ((core.jobs.count fun job =>
      job.principal == registration.principal && job.state == .queued) ≥
        config.maxQueuedPerPrincipal)) "principal queue is full"
    refuseIf (!config.backends.values.any fun backend =>
      eligible backend registration.pool request) "no backend supports pool/model/context/tools"
    pure registration

/-- Put an admitted request into the queue. A principal without other live work joins at
the virtual clock. -/
def admitted (controller : Text) (registration : Registration) (request : Request) (order : Nat)
    (core : Core) : Core :=
  let core := core.advanceFloor
  let wasActive := core.jobs.values.any fun job =>
    job.principal == registration.principal && !job.state.isTerminal
  let service := (core.serviceUs.get? registration.principal).getD core.virtualFloor
  { core with
    serviceUs := core.serviceUs.insert registration.principal
      (if wasActive then service else max service core.virtualFloor)
    jobs := core.jobs.insert request.id
      { controller := controller
        principal := registration.principal
        pool := registration.pool
        order := order
        request := request
        state := .queued
        supersededUnsent := .empty } }

/-- `Core::enqueue`. -/
def enqueue (controller : Text) (request : Request) (now : Nat) (core : Core) : Effect :=
  match checkRequest request with
  | .error e => (.error e, core)
  | .ok () =>
    match core.jobs.get? request.id with
    | some old =>
      if old.controller = controller ∧
          old.request = { request with queueDeadlineMs := old.request.queueDeadlineMs } then
        (.ok (), core)
      else (.error "job identity conflicts with retained request", core)
    | none =>
      match admissible config controller request now core with
      | .error e => (.error e, core)
      | .ok registration =>
        match core.serial with
        | .error e => (.error e, core)
        | .ok (order, core) =>
          schedule config now (admitted controller registration request order core)

/-- `Core::inspect`. -/
def inspect (controller id : Text) (core : Core) : Result Job :=
  match core.jobs.get? id with
  | none => .error "unknown job"
  | some job =>
    if job.controller ≠ controller then .error "job belongs to another controller" else .ok job

/-- The state of the job under an identity replaced. -/
def Core.setState (core : Core) (id : Text) (state : State) : Core :=
  { core with jobs := core.jobs.modify id fun job => job.withState state }

/-- `Core::dispatch`. -/
def dispatch (controller id : Text) (lease : Nat) (attempt : Text) (now : Nat) (core : Core) :
    Effect :=
  if !text attempt then (.error "invalid provider attempt identity", core)
  else
    match inspect controller id core with
    | .error e => (.error e, core)
    | .ok old =>
      match old.state with
      | .placed actual backend _ group expiresMs estimatedUs =>
        if lease = actual ∧ now < expiresMs then
          (.ok (), core.setState id
            (.dispatched lease backend group attempt now estimatedUs false))
        else (.error "placement is not dispatchable; reconcile exact lease", core)
      | _ => (.error "placement is not dispatchable; reconcile exact lease", core)

/-- `Core::complete`. -/
def complete (id principal : Text) (estimated elapsed : Nat) (next : State) (core : Core) : Core :=
  let core := core.credit (principal, estimated)
  let completedService := saturatingAdd (core.service principal) elapsed
  let core := { core with serviceUs := core.serviceUs.insert principal completedService }
  let core := core.setState id next
  if core.jobs.values.all fun job => job.state.isTerminal then
    { core with virtualFloor := max core.virtualFloor completedService }
  else core

/-- The wall time of an execution in microseconds. -/
def elapsedUs (startedMs now : Nat) : Nat := saturatingMul (now - startedMs) 1000

/-- The outcomes a lease holder can report. -/
def Outcome.reportable : Outcome → Bool
  | ended | notSent | uncertain => true
  | _ => false

/-- The report on a dispatched or uncertain job. -/
def finishSent (id : Text) (lease : Nat) (outcome : Outcome) (now : Nat) (core : Core)
    (principal : Text) (actual : Nat) (backend group attempt : Text)
    (startedMs estimatedUs : Nat) : Effect :=
  if actual = lease ∧ outcome.reportable then
    if outcome = .uncertain then
      (.ok (), core.setState id (.uncertain lease backend group attempt startedMs estimatedUs))
    else
      let elapsed := if outcome = .notSent then 0 else elapsedUs startedMs now
      (.ok (), complete id principal estimatedUs elapsed (.terminal outcome (some lease)) core)
  else (.error "completion does not match an active placement", core)

/-- Whether a late report agrees with a terminal job. -/
def agrees (saved outcome : Outcome) : Bool :=
  saved == outcome || (saved == .operatorResolved && outcome.reportable) ||
    (outcome == .notSent && (saved == .expired || saved == .cancelled || saved == .drained))

/-- `Core::finish`. -/
def finish (controller id : Text) (lease : Nat) (outcome : Outcome) (now : Nat) (core : Core) :
    Effect :=
  match inspect controller id core with
  | .error e => (.error e, core)
  | .ok old =>
    if old.supersededUnsent.contains lease then
      if outcome = .notSent then (.ok (), core)
      else (.error "superseded unsent lease cannot report execution", core)
    else
      match old.state with
      | .placed actual _ _ _ _ estimatedUs =>
        if actual = lease ∧ outcome = .notSent then
          (.ok (),
            complete id old.principal estimatedUs 0 (.terminal outcome (some lease)) core)
        else (.error "completion does not match an active placement", core)
      | .dispatched actual backend group attempt startedMs estimatedUs _ =>
        finishSent id lease outcome now core old.principal actual backend group attempt
          startedMs estimatedUs
      | .uncertain actual backend group attempt startedMs estimatedUs =>
        finishSent id lease outcome now core old.principal actual backend group attempt
          startedMs estimatedUs
      | .terminal saved (some actual) =>
        if actual = lease ∧ agrees saved outcome then (.ok (), core)
        else (.error "completion does not match an active placement", core)
      | _ => (.error "completion does not match an active placement", core)

/-- `Core::resolve`. -/
def resolve (id : Text) (now : Nat) (core : Core) : Effect :=
  match core.jobs.get? id with
  | none => (.error "resolve: no live job with that id", core)
  | some old =>
    let resolved (lease startedMs estimatedUs : Nat) : Effect :=
      (.ok (), complete id old.principal estimatedUs (elapsedUs startedMs now)
        (.terminal .operatorResolved (some lease)) core)
    match old.state with
    | .dispatched lease _ _ _ startedMs estimatedUs _ => resolved lease startedMs estimatedUs
    | .uncertain lease _ _ _ startedMs estimatedUs => resolved lease startedMs estimatedUs
    | .terminal .operatorResolved _ => (.ok (), core)
    | _ => (.error
        "resolve applies only to dispatched or uncertain work; cancel or drain the rest", core)

/-- `Core::cancel`. -/
def cancel (controller id : Text) (core : Core) : Effect :=
  match inspect controller id core with
  | .error e => (.error e, core)
  | .ok old =>
    match old.state with
    | .queued => (.ok (), core.setState id (.terminal .cancelled none))
    | .placed lease _ _ _ _ estimatedUs =>
      (.ok (), (core.credit (old.principal, estimatedUs)).setState id
        (.terminal .cancelled (some lease)))
    | .dispatched lease backend group attempt startedMs estimatedUs _ =>
      (.ok (), core.setState id
        (.dispatched lease backend group attempt startedMs estimatedUs true))
    | _ => (.ok (), core)

/-- The drain of a queued or placed job. -/
def drainJob (job : Job) : Job × Option Nat :=
  match job.state with
  | .queued => (job.withState (.terminal .drained none), none)
  | .placed lease _ _ _ _ estimatedUs =>
    (job.withState (.terminal .drained (some lease)), some estimatedUs)
  | _ => (job, none)

/-- `Core::set_draining`. -/
def setDraining (enabled : Bool) (core : Core) : Core :=
  let core := { core with draining := enabled }
  if enabled then core.rewriteJobs drainJob else core

/-- What a restart makes of a job: a placement is proven unsent and queued again behind a
guard for its lease, a sent job is uncertain. -/
def recoverJob (job : Job) : Job × Option Nat :=
  match job.state with
  | .placed lease _ _ _ _ estimatedUs =>
    if job.supersededUnsent.entries.length ≥ maxUnsentLeaseGuards ∧
        ¬job.supersededUnsent.contains lease then
      (job.withState (.terminal .notSent (some lease)), some estimatedUs)
    else
      ({ job with
          state := .queued
          supersededUnsent := job.supersededUnsent.insert lease () }, some estimatedUs)
  | .dispatched lease backend group attempt startedMs estimatedUs _ =>
    (job.withState (.uncertain lease backend group attempt startedMs estimatedUs), none)
  | _ => (job, none)

/-- `Core::recover`. -/
def recover (sha : Wire.Digest) (core : Core) : Effect :=
  if core.version ≠ 1 ∨ core.configDigest ≠ config.fingerprint sha then
    (.error "scheduler state/config version differs; drain and migrate explicitly", core)
  else (.ok (), core.rewriteJobs recoverJob)

end Requests

end MiniDregg.Scheduler
