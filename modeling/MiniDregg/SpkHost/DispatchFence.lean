import MiniDregg.PrivateBackend.Codec
import MiniDregg.Text.JsonValue

/-!
# The dispatch fence

How the host decides one signed call whose submission gave no committed permit: from the reply
frame as the pinned Host inspects it, or from the receipt lookup of the retained ingress. A call
is settled when its `submit-active.json` is removed.

An envelope under marker 255 is undecided and is to count as no answer. A payload that reads
`confirmed` settles the call under every marker but 253, so under 255 it is an answer.
-/

namespace MiniDregg.SpkHost.DispatchFence

open Text Value PrivateBackend

inductive Status
  | refused | contention | unavailable | recordedUndelivered | uncertain | backlog
  deriving DecidableEq

structure DispatchOutcome where
  operation : Option String
  status : Status
  lean : Option String

inductive Reply
  | frame (bytes : Bytes)
  | lost

def SUBMIT : UInt8 := 34
def LOOKUP : UInt8 := 35
def NO_RECORD : UInt8 := 253
def HOST_OUTCOME : UInt8 := 255
def OUTCOME_TAG : Bytes := ascii "DREGG/NATIVE-HOST/OUTCOME/v8"
def MAX_FRAME : Nat := 12102760
def MAX_MARKER : Nat := 4096

def framedPayload (reply : Bytes) (opcode : UInt8) (tag : Bytes) : Option Bytes :=
  let length := (reply.take 4).foldr (fun b n => b.toNat + 256 * n) 0
  if 6 ≤ reply.length ∧ 2 ≤ length ∧ length ≤ MAX_FRAME ∧ length + 4 = reply.length ∧
      reply[4]? = some opcode ∧ tag <+: reply.drop 5 ∧ tag.length < (reply.drop 5).length then
    some (reply.drop 5)
  else none

def outcomeWords (view : Value) : String :=
  let kind := (text "type" view).getD "?"
  match text "reason" view with
  | some reason => kind ++ " " ++ reason
  | none => kind

def orNull : Option Value → Value := (·.getD null)

def receiptFields (view : Value) : Value :=
  object (["transactionId", "eventId", "acceptedCount", "worldRoot"].map
    fun name => (name, orNull (view.get name)))

def resolution (status decidedBy : String) (rest : List (String × Value)) : Value :=
  object ([("protocol", string "mini-spk-dispatch-resolution-v1"), ("status", string status),
    ("by", string decidedBy)] ++ rest)

/-- The files of an attempt that decide it. -/
structure Attempt where
  active : Option Bytes
  resolution : Option Value

/-- The operation of a settlement that fails. A failed write leaves any resolution. -/
inductive Fault
  | read
  | write (left : Option Value)
  | remove
  | strip

/-- What the operator's socket, its inspector and the disk answer during one decision. -/
structure Host where
  inspect : Bytes → Option Value
  lookupReply : Option Bytes
  inspectLookup : Bytes → Option Value
  fault : Option Fault

variable (host : Host) (expected : Bytes)

/-- Settle one call, and whether all of it was done: why not is only printed. -/
def settle (record : Value) (a : Attempt) : Bool × Attempt :=
  if a.active ≠ some expected ∨ expected = [] ∨ MAX_MARKER < expected.length then (false, a)
  else match host.fault with
    | some .read => (false, a)
    | some (.write left) => (false, { a with resolution := left })
    | some .remove => (false, { a with resolution := some record })
    | some .strip => (false, ⟨none, some record⟩)
    | none => (true, ⟨none, some record⟩)

/-- One receipt lookup; an error of it counts as no usable answer. -/
def lookup : Option Value := do
  let reply ← host.lookupReply
  let payload ← framedPayload reply LOOKUP OUTCOME_TAG
  let view ← host.inspectLookup payload
  if text "type" view = some "absent" then some view
  else if text "type" view = some "confirmed" ∧ text "confirmation" view = some "replayed" then
    some view
  else none

/-- The marker of a reply, and the view of the outcome in it. -/
def original : Reply → Option UInt8 × Option Value
  | .lost => (none, none)
  | .frame f =>
    let payload := (framedPayload f SUBMIT OUTCOME_TAG).or
      ((framedPayload f NO_RECORD OUTCOME_TAG).or (framedPayload f HOST_OUTCOME OUTCOME_TAG))
    (f[4]?, payload.bind host.inspect)

/-- The status of a call without a record, by the outcome that was shown. -/
def refusal (view : Option Value) : Status :=
  if view.bind (text "type") = some "contention" then .contention
  else if view.bind (text "type") = some "refused" then .refused
  else .unavailable

def decide (operation : String) (reply : Reply) (a : Attempt) : DispatchOutcome × Attempt :=
  let (marker, view) := original host reply
  let lean := view.map outcomeWords
  let words := ("original", orNull (lean.map string))
  let settled (record : Value) (status : Status) : DispatchOutcome × Attempt :=
    let (done, a) := settle host expected record a
    (⟨some operation, if done then status else .uncertain, lean⟩, a)
  if marker = some NO_RECORD then
    settled (resolution "no-record" "no-record-marker" [words]) (refusal view)
  else if view.bind (text "type") = some "confirmed" then
    settled (resolution "recorded-undelivered" "submit-outcome"
      [("confirmation", orNull (view.bind (get "confirmation"))),
        ("receipt", orNull (view.map receiptFields))]) .recordedUndelivered
  else match lookup host with
    | none => (⟨some operation, .uncertain, lean⟩, a)
    | some looked =>
      if text "type" looked = some "confirmed" then
        settled (resolution "recorded-undelivered" "op35"
          [words, ("receipt", receiptFields looked)])
          .recordedUndelivered
      else if marker = some SUBMIT then
        settled (resolution "no-record" "op35-absent-after-reply" [words]) (refusal view)
      else (⟨some operation, .uncertain, lean⟩, a)

/-- The status that is told and the marker that is left. -/
def decided (r : DispatchOutcome × Attempt) : Status × Option Bytes := (r.1.status, r.2.active)

variable (a : Attempt)

/-- A settlement ends before the marker is removed: the marker is not what the call armed, cannot
be read, or an operation in front of the removal or the removal itself fails. -/
def StopsEarly : Prop :=
  a.active ≠ some expected ∨ expected = [] ∨ MAX_MARKER < expected.length ∨
    ∃ fault, host.fault = some fault ∧ fault ≠ .strip

/-- What a settlement leaves of the marker, and whether it is done, is independent of its record;
one that is done removes the marker. -/
theorem settle_spec : ∃ done active, (done = true → active ≠ a.active) ∧
    (active = a.active ↔ StopsEarly host expected a) ∧
    ∀ record, (settle host expected record a).1 = done ∧
      (settle host expected record a).2.active = active := by
  by_cases hdrift : a.active ≠ some expected ∨ expected = [] ∨ MAX_MARKER < expected.length
  · refine ⟨false, a.active, nofun, by simp only [StopsEarly]; tauto, fun _ => ?_⟩
    simp only [settle, if_pos hdrift, and_self]
  · have hactive : none ≠ a.active := by simp_all
    have hstops : StopsEarly host expected a ↔ ∃ fault, host.fault = some fault ∧ fault ≠ .strip := by
      simp only [StopsEarly]
      tauto
    simp only [hstops, settle, if_neg hdrift]
    match host.fault with
    | some .read | some (.write _) | some .remove =>
      exact ⟨false, a.active, nofun, by simp, fun _ => ⟨rfl, rfl⟩⟩
    | some .strip => exact ⟨false, none, nofun, by simp [hactive], fun _ => ⟨rfl, rfl⟩⟩
    | none => exact ⟨true, none, fun _ => hactive, by simp [hactive], fun _ => ⟨rfl, rfl⟩⟩

/-- A frame under marker 255 is decided as a lost reply exactly when its payload does not read
`confirmed`, or the lookup reads so itself, or the settlement fails before the marker is
removed. -/
theorem envelope_decided_as_lost_iff (operation : String) (frame : Bytes)
    (hmarker : frame[4]? = some HOST_OUTCOME) :
    decided (decide host expected operation (.frame frame) a) =
        decided (decide host expected operation .lost a) ↔
      (original host (.frame frame)).2.bind (text "type") ≠ some "confirmed" ∨
        (lookup host).bind (text "type") = some "confirmed" ∨
        StopsEarly host expected a := by
  obtain ⟨done, active, hdone, hstops, hsettle⟩ := settle_spec host expected a
  have hkept : (if done then Status.recordedUndelivered else .uncertain, active) =
      (.uncertain, a.active) ↔ StopsEarly host expected a := by
    rw [← hstops]
    cases done with
    | false => simp
    | true => simp [hdone rfl]
  have hfirst : (original host (.frame frame)).1 = some HOST_OUTCOME := hmarker
  have hother : some HOST_OUTCOME ≠ some NO_RECORD ∧ some HOST_OUTCOME ≠ some SUBMIT := by decide
  simp only [decided, decide, hfirst, if_neg hother.1, if_neg hother.2, hsettle]
  have hlost : original host .lost = (none, none) := rfl
  by_cases hview : (original host (.frame frame)).2.bind (text "type") = some "confirmed"
  · cases lookup host with
    | none => simp [hview, hlost, hsettle, hkept]
    | some looked =>
      by_cases htype : text "type" looked = some "confirmed"
      · simp [hview, hlost, htype, hsettle]
      · simp [hview, hlost, htype, hsettle, hkept]
  · cases lookup host with
    | none => simp [hview, hlost]
    | some looked => by_cases htype : text "type" looked = some "confirmed" <;>
        simp [hview, hlost, htype, hsettle]

/-- A frame with one byte of payload behind the tag. -/
def envelope (marker : UInt8) : Bytes := [30, 0, 0, 0, marker] ++ OUTCOME_TAG ++ [0]

/-- A host that reads every outcome as `uncertain` and finds no receipt. -/
def doubting : Host :=
  ⟨fun _ => some (object [("type", string "uncertain")]), some (envelope LOOKUP),
    fun _ => some (object [("type", string "absent")]), none⟩

theorem envelope_decided_as_lost_iff_doubting :
    decided (decide doubting [1] "1" (.frame (envelope HOST_OUTCOME)) ⟨some [1], none⟩) =
      decided (decide doubting [1] "1" .lost ⟨some [1], none⟩) :=
  (envelope_decided_as_lost_iff doubting [1] _ "1" (envelope HOST_OUTCOME) rfl).2
    (.inl (by decide))

/-- A host that reads every outcome as `confirmed` and answers no lookup. -/
def confirming : Host :=
  ⟨fun _ => some (object [("type", string "confirmed")]), none, fun _ => none, none⟩

/-- A `confirmed` payload under marker 255 settles a call that a lost reply leaves undecided. -/
theorem confirmed_envelope_settles :
    decided (decide confirming [1] "1" (.frame (envelope HOST_OUTCOME)) ⟨some [1], none⟩) =
      (.recordedUndelivered, none) ∧
    decided (decide confirming [1] "1" .lost ⟨some [1], none⟩) = (.uncertain, some [1]) := by
  decide

end MiniDregg.SpkHost.DispatchFence
