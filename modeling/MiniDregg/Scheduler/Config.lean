import MiniDregg.Control.Fallible
import MiniDregg.Store.OrderedMap
import MiniDregg.Text.Json
import MiniDregg.Wire.Sha2

/-!
# Configuration of the inference scheduler

`Config`, `Request` and their checks in `core.rs` of the inference scheduler:
capacity groups with their slots, registered controllers, and backends that
stand in a group and serve models at a configured cost.
-/

namespace MiniDregg.Scheduler

open Fallible Store Text

/-- `MAX_FRAME`. -/
def maxFrame : Nat := 65536

/-- The root-owned mapping of a controller. -/
structure Registration where
  uid : Nat
  principal : Text
  pool : Text
  deriving DecidableEq

/-- The capacity and scheduling cost of a model on a backend. -/
structure Model where
  context : Nat
  maxOutput : Nat
  tools : Bool
  inputUs : Nat
  outputUs : Nat
  deriving DecidableEq

structure Backend where
  pool : Text
  group : Text
  endpoint : Text
  models : OrderedMap Text Model
  deriving DecidableEq

structure Config where
  version : Nat
  /-- Bound for nonterminal work. -/
  maxJobs : Nat
  maxTerminalReceipts : Nat
  maxReceiptBytes : Nat
  maxQueuedPerPrincipal : Nat
  maxActivePerPrincipal : Nat
  leaseMs : Nat
  groups : OrderedMap Text Nat
  controllers : OrderedMap Text Registration
  backends : OrderedMap Text Backend
  deriving DecidableEq

/-- A job request, as the controller derives it. -/
structure Request where
  id : Text
  requestDigest : Text
  model : Text
  maxInput : Nat
  maxOutput : Nat
  tools : Bool
  queueDeadlineMs : Nat
  allowedEndpoints : List Text
  deriving DecidableEq

/-- A name: not empty, at most 256 bytes, no controls. -/
def text (value : Text) : Bool :=
  !value.isEmpty && decide (value.utf8Length ≤ 256) && !value.any isControl

/-- A digit or a lower case letter up to `f`. -/
def isLowerHex (c : Char) : Bool :=
  (48 ≤ c.toNat && c.toNat ≤ 57) || (97 ≤ c.toNat && c.toNat ≤ 102)

/-- A digest in lower case hexadecimal. -/
def hash (value : Text) : Bool := value.utf8Length == 64 && value.all isLowerHex

/-- Split at the first occurrence of a separator. -/
def splitOnce (separator : Text) : Text → Option (Text × Text)
  | [] => if separator.isEmpty then some ([], []) else none
  | c :: rest =>
    if separator.isPrefixOf (c :: rest) then some ([], (c :: rest).drop separator.length)
    else (splitOnce separator rest).map fun halves => (c :: halves.1, halves.2)

/-- A backend address: `https`, or `http` to the loopback. -/
def endpoint (value : Text) : Bool :=
  let safe := !value.any (fun c => ['\r', '\n', '#', '@', '?'].contains c) &&
    decide (value.utf8Length ≤ 2048)
  match splitOnce "://" value with
  | none => false
  | some (scheme, rest) =>
    let authority := rest.takeWhile fun c => c != '/'
    safe && !authority.isEmpty &&
      (scheme == "https" ||
        (scheme == "http" &&
          ("127.0.0.1:".toList.isPrefixOf authority || "[::1]:".toList.isPrefixOf authority)))

namespace Config

variable (config : Config)

/-- `Config::validate`. -/
def validate : Result Unit := do
  refuseIf (config.version != 1 || config.maxJobs == 0 || decide (config.maxJobs > 100000) ||
    decide (config.maxTerminalReceipts < config.maxJobs) ||
    decide (config.maxTerminalReceipts > 100000000) ||
    decide (config.maxReceiptBytes < 128 * 1024) || config.maxQueuedPerPrincipal == 0 ||
    config.maxActivePerPrincipal == 0 ||
    !(decide (100 ≤ config.leaseMs) && decide (config.leaseMs ≤ 300000)) ||
    config.groups.entries.isEmpty || config.controllers.entries.isEmpty ||
    config.backends.entries.isEmpty) "invalid scheduler configuration bounds"
  config.groups.entries.forM fun e =>
    refuseIf (!text e.1 || e.2 == 0 || decide (e.2 > 1024)) "invalid capacity group"
  config.controllers.entries.forM fun e =>
    refuseIf (!text e.1 || !text e.2.principal || !text e.2.pool) "invalid controller registration"
  config.backends.entries.forM fun e => do
    refuseIf (!text e.1 || !text e.2.pool || !config.groups.contains e.2.group ||
      e.2.models.entries.isEmpty || !endpoint e.2.endpoint) "invalid backend or endpoint"
    e.2.models.entries.forM fun m =>
      refuseIf (!text m.1 || m.2.context == 0 || m.2.maxOutput == 0 ||
        decide (m.2.maxOutput > m.2.context) || m.2.inputUs == 0 || m.2.outputUs == 0)
        "invalid model capacity/cost"

end Config

/-- A JSON object with the entries of a map. -/
def jsonMap {α : Type} (m : OrderedMap Text α) (write : α → Text) : Text :=
  jsonObject (m.entries.map fun e => (String.ofList e.1, write e.2))

/-- A model as a JSON value, with the keys sorted. -/
def Model.json (model : Model) : Text :=
  jsonObject [("context", natText model.context),
    ("input_us", natText model.inputUs), ("max_output", natText model.maxOutput),
    ("output_us", natText model.outputUs), ("tools", jsonBool model.tools)]

variable (backend : Backend)

/-- A backend as a JSON value, with the keys sorted. -/
def Backend.json : Text :=
  jsonObject [("endpoint", jsonText backend.endpoint),
    ("group", jsonText backend.group), ("models", jsonMap backend.models Model.json),
    ("pool", jsonText backend.pool)]

/-- A registration as a JSON value, with the keys sorted. -/
def Registration.json (registration : Registration) : Text :=
  jsonObject [("pool", jsonText registration.pool),
    ("principal", jsonText registration.principal), ("uid", natText registration.uid)]

/-- The configuration as a JSON value with the keys sorted, without the archive limits. -/
def Config.identity (config : Config) : Text :=
  jsonObject [("backends", jsonMap config.backends Backend.json),
    ("controllers", jsonMap config.controllers Registration.json),
    ("groups", jsonMap config.groups natText), ("lease_ms", natText config.leaseMs),
    ("max_active_per_principal", natText config.maxActivePerPrincipal),
    ("max_jobs", natText config.maxJobs),
    ("max_queued_per_principal", natText config.maxQueuedPerPrincipal),
    ("version", natText config.version)]

/-- `digest`: the SHA-256 of a text in lower case hexadecimal. -/
def digest (sha : Wire.Digest) (t : Text) : Text :=
  (sha.digest (String.ofList t).toUTF8.toList).flatMap fun b =>
    [hexChar (b.toNat / 16), hexChar (b.toNat % 16)]

/-- `Config::fingerprint`. -/
def Config.fingerprint (sha : Wire.Digest) (config : Config) : Text := digest sha config.identity

/-- A request as the serializer writes it. -/
def Request.json (request : Request) : Text :=
  jsonObject [("id", jsonText request.id),
    ("request_digest", jsonText request.requestDigest),
    ("model", jsonText request.model), ("max_input", natText request.maxInput),
    ("max_output", natText request.maxOutput), ("tools", jsonBool request.tools),
    ("queue_deadline_ms", natText request.queueDeadlineMs),
    ("allowed_endpoints", jsonTexts request.allowedEndpoints)]

/-- `eligible`: a backend that can serve a request of a pool. -/
def eligible (pool : Text) (request : Request) : Bool :=
  backend.pool == pool && request.allowedEndpoints.contains backend.endpoint &&
    match backend.models.get? request.model with
    | none => false
    | some model =>
      decide (request.maxInput + request.maxOutput < 2 ^ 32) &&
        decide (request.maxInput + request.maxOutput ≤ model.context) &&
        decide (request.maxOutput ≤ model.maxOutput) && (!request.tools || model.tools)

end MiniDregg.Scheduler
