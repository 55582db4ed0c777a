import MiniDregg.Scheduler.Rounds
import MiniDregg.Scheduler.Saving
import MiniDregg.Text.Hex

/-!
# A snapshot too long to be read

A configuration may allow a hundred thousand jobs. A save writes whatever
snapshot results, and a start reads 128 MiB at most. On a machine with one slot,
requests of 2 KiB are accepted and queue up behind the first; when 65000 of them
have been saved, no start gets past the snapshot any more.

## Implementation notes

The history is long, so no step of it is evaluated. `Waiting` says what the
state is while the slot is taken: a schedule then changes the virtual clock at
most, and a request under a new identity is accepted.
-/

namespace MiniDregg.Scheduler

open Fallible Store List OrderedMap Text Nat Scheduler Scheduler.Core Wire

/-- A machine with one slot that lets 65000 jobs wait. -/
def bulkConfig : Config :=
  { smallConfig with
    maxJobs := 65000
    maxTerminalReceipts := 65000
    maxQueuedPerPrincipal := 65000 }

/-- The identity of a bulk request: its number as a digest. -/
def bulkId (i : Nat) : Text := (toLeBytes 32 i).flatMap hexByte

/-- A request for the machine that names an address of 2048 bytes beside its own. -/
def bulkRequest (i : Nat) : Request where
  id := bulkId i
  requestDigest := replicate 64 '0'
  model := "small"
  maxInput := 1
  maxOutput := 1
  tools := false
  queueDeadlineMs := 1000
  allowedEndpoints := ["https://box", "https://" ++ replicate 2040 'a']

variable {n : Nat}

section Request
variable {i j : Nat}

theorem bulkId_injective (hi : i < 256 ^ 32) (hj : j < 256 ^ 32) (h : bulkId i = bulkId j) :
    i = j := by
  have hpairs := congrArg hexPairs h
  rw [bulkId, bulkId, hexPairs_flatMap, hexPairs_flatMap] at hpairs
  rw [← fromLeBytes_toLeBytes hi, Except.ok.inj hpairs, fromLeBytes_toLeBytes hj]

theorem utf8Length_bulkId (i : Nat) : (bulkId i).utf8Length = 64 := by
  rw [bulkId, utf8Length_flatMap_hexByte, length_toLeBytes]

/-- A digit stands for itself in a digest and in a JSON string. -/
theorem mem_bulkId : ∀ c ∈ bulkId i, isLowerHex c = true ∧ jsonChar c = [c] := by
  have hdigit : ∀ d < 16, isLowerHex (hexChar d) = true ∧ jsonChar (hexChar d) = [hexChar d] := by
    decide
  intro c hc
  obtain ⟨b, -, hc⟩ := mem_flatMap.1 hc
  have hb := b.toNat_lt
  rcases mem_pair.1 hc with rfl | rfl
  · exact hdigit _ (by omega)
  · exact hdigit _ (by omega)

theorem hash_bulkId (i : Nat) : hash (bulkId i) = true := by
  have hall : (bulkId i).all isLowerHex = true := all_eq_true.2 fun c hc => (mem_bulkId c hc).1
  rw [hash, utf8Length_bulkId, hall]
  rfl

theorem utf8Length_bulkRequest_le : (bulkRequest i).json.utf8Length ≤ maxFrame := by
  have hid := utf8Length_jsonText_of_plain fun c hc => (mem_bulkId (i := i) c hc).2
  rw [utf8Length_bulkId] at hid
  refine (utf8Length_jsonObject_le _).trans ?_
  simp only [bulkRequest, map_cons, sum_cons, hid]
  decide +kernel

set_option maxRecDepth 20000 in
theorem checkRequest_bulk (i : Nat) : checkRequest (bulkRequest i) = .ok () := by
  have hframe : ¬(bulkRequest i).json.utf8Length > maxFrame := not_lt.2 utf8Length_bulkRequest_le
  have hid : hash (bulkRequest i).id = true := hash_bulkId i
  rw [checkRequest, decide_eq_false hframe, hid]
  rfl

end Request

/-- A job that a schedule at time zero leaves as it is. -/
def Still (job : Job) : Prop := expireJob 0 job = (job, none) ∧ job.state.isTerminal = false

/-- The state while the slot is taken: bulk requests below a number, the first in the slot. -/
@[mk_iff]
structure Waiting (n : Nat) (core : Core) : Prop where
  draining : core.draining = false
  next_le : core.next ≤ n + 2
  jobs : ∀ e ∈ core.jobs.entries, Still e.2 ∧ ∃ i < n, e.1 = bulkId i
  taken : 0 < core.occupied "gpu"
  length_le : core.jobs.entries.length ≤ n
  bytes : 2066 * n ≤ (core.jobs.values.map Job.bytes).sum

instance decidableStill (job : Job) : Decidable (Still job) := instDecidableAnd

instance decidableWaiting (n : Nat) (core : Core) : Decidable (Waiting n core) :=
  decidable_of_iff' _ (waiting_iff n core)

variable {core : Core}

theorem advanceFloor_draining (core : Core) : core.advanceFloor.draining = core.draining := by
  unfold advanceFloor
  dsimp only
  split <;> rfl

theorem Waiting.advanceFloor (h : Waiting n core) : Waiting n core.advanceFloor where
  draining := (advanceFloor_draining core).trans h.draining
  next_le := core.advanceFloor_next.symm ▸ h.next_le
  jobs := core.advanceFloor_jobs.symm ▸ h.jobs
  taken := by
    rw [occupied, core.advanceFloor_jobs]
    exact h.taken
  length_le := core.advanceFloor_jobs.symm ▸ h.length_le
  bytes := core.advanceFloor_jobs.symm ▸ h.bytes

theorem Waiting.rewriteJobs (h : Waiting n core) : core.rewriteJobs (expireJob 0) = core := by
  have hstill (e : Text × Job) (he : e ∈ core.jobs.entries) : expireJob 0 e.2 = (e.2, none) :=
    (h.jobs e he).1.1
  have hjobs : (core.jobs.map fun job => (expireJob 0 job).1) = core.jobs := by
    apply ext_entries
    refine (map_congr_left fun e he => ?_).trans (map_id _)
    dsimp only
    rw [hstill e he]
    rfl
  have hrefunds : refunds (expireJob 0) core.jobs = [] := by
    apply filterMap_eq_nil_iff.2
    intro job hjob
    obtain ⟨e, he, rfl⟩ := mem_map.1 hjob
    rw [hstill e he]
    rfl
  rw [rewriteJobs_eq, hjobs, hrefunds]
  rfl

/-- No job has a choice while the slot is taken. -/
theorem choices_taken (h : 0 < core.occupied "gpu") : choices bulkConfig core = .ok [] := by
  obtain ⟨cs, hcs⟩ : ∃ cs, choices bulkConfig core = .ok cs :=
    choices_ok (by unfold Config.Words; decide) core
  obtain rfl : cs = [] := by
    apply eq_nil_iff_forall_not_mem.2
    intro choice hmem
    obtain ⟨job, -, hoffered⟩ := choices_offered hcs hmem
    obtain ⟨backend, hbackend, -, hslot, -⟩ := hoffered.backend
    obtain rfl : backend = _ := congrArg Prod.snd (mem_singleton.1 (get?_eq_some.1 hbackend))
    change core.occupied "gpu" < 1 at hslot
    omega
  exact hcs

/-- A schedule moves the virtual clock at most while the slot is taken. -/
theorem Waiting.schedule (h : Waiting n core) :
    schedule bulkConfig 0 core = (.ok (), core.advanceFloor) := by
  have htaken : 0 < core.advanceFloor.occupied "gpu" := h.advanceFloor.taken
  unfold Scheduler.schedule
  rw [h.rewriteJobs]
  dsimp only
  rw [h.draining, if_neg (by decide)]
  unfold placements
  dsimp only
  rw [choices_taken htaken]

/-- The job of a bulk request. -/
def bulkJob (n order : Nat) : Job where
  controller := "desk"
  principal := "team"
  pool := "local"
  order := order
  request := bulkRequest n
  state := .queued
  supersededUnsent := .empty

/-- A job is no shorter than the addresses of its request. -/
theorem endpoints_le_bytes (job : Job) :
    (jsonTexts job.request.allowedEndpoints).utf8Length ≤ job.bytes := by
  have hrequest : (jsonTexts job.request.allowedEndpoints).utf8Length ≤
      job.request.json.utf8Length := by
    refine le_trans ?_ (sum_le_utf8Length_jsonObject _)
    simp only [map_cons, map_nil, sum_cons, sum_nil]
    omega
  have hjob : job.request.json.utf8Length ≤ job.bytes := by
    refine le_trans ?_ (sum_le_utf8Length_jsonObject _)
    simp only [map_cons, map_nil, sum_cons, sum_nil]
    omega
  exact hrequest.trans hjob

/-- A bulk job takes 2 KiB of a snapshot. -/
theorem bulkJob_bytes (n order : Nat) : 2066 ≤ (bulkJob n order).bytes := by
  refine le_trans ?_ (endpoints_le_bytes (bulkJob n order))
  dsimp only [bulkJob, bulkRequest]
  decide +kernel

theorem Waiting.fresh (h : Waiting n core) (hn : n < 65000) :
    core.jobs.get? (bulkId n) = none := by
  apply get?_eq_none.2
  intro job hjob
  obtain ⟨-, i, hi, hid⟩ := h.jobs _ hjob
  exact absurd (bulkId_injective (by omega) (by omega) hid) hi.ne'

/-- One more bulk job waits. -/
theorem Waiting.insert (h : Waiting n core) (hn : n < 65000) {core' : Core} {order : Nat}
    (hdraining : core'.draining = core.draining) (hnext : core'.next = core.next + 1)
    (hjobs : core'.jobs = core.jobs.insert (bulkId n) (bulkJob n order)) :
    Waiting (n + 1) core' := by
  have hperm : core'.jobs.entries.Perm ((bulkId n, bulkJob n order) :: core.jobs.entries) :=
    hjobs ▸ insert_perm (h.fresh hn)
  have hnextLe := h.next_le
  refine ⟨hdraining.trans h.draining, by omega, fun e he => ?_, ?_, ?_, ?_⟩
  · rcases mem_cons.1 (hperm.mem_iff.1 he) with rfl | hold
    · exact ⟨⟨rfl, rfl⟩, n, lt_succ_self n, rfl⟩
    · obtain ⟨hstill, i, hi, hid⟩ := h.jobs e hold
      exact ⟨hstill, i, lt_succ_of_lt hi, hid⟩
  · rw [occupied, hjobs, count_insert_fresh _ (h.fresh hn)]
    exact Nat.add_pos_left h.taken _
  · rw [hperm.length_eq]
    exact succ_le_succ h.length_le
  · have hbytes := h.bytes
    have hjob := bulkJob_bytes n order
    rw [OrderedMap.values] at hbytes ⊢
    rw [((hperm.map Prod.snd).map Job.bytes).sum_eq, map_cons, map_cons, sum_cons]
    dsimp only
    omega

theorem bulk_registration : bulkConfig.controllers.get? "desk" =
    some ⟨1000, "team", "local"⟩ := rfl

/-- A bulk request is admitted. -/
theorem Waiting.admissible (h : Waiting n core) (hn : n < 65000) :
    admissible bulkConfig "desk" (bulkRequest n) 0 core =
      .ok ⟨1000, "team", "local"⟩ := by
  have hlength := h.length_le
  have hlive : ¬core.live ≥ bulkConfig.maxJobs := by
    have hle : core.live ≤ core.jobs.entries.length := count_le_length
    change ¬core.live ≥ 65000
    omega
  have hqueued : ¬(core.jobs.count fun job =>
      job.principal == "team" && job.state == .queued) ≥
        bulkConfig.maxQueuedPerPrincipal := by
    have hle : (core.jobs.count fun job =>
      job.principal == "team" && job.state == .queued) ≤ core.jobs.entries.length :=
        count_le_length
    change ¬_ ≥ 65000
    omega
  have hdeadline : ¬(bulkRequest n).queueDeadlineMs ≤ 0 := by
    change ¬1000 ≤ 0
    decide
  have heligible : (!bulkConfig.backends.values.any fun backend =>
      eligible backend "local" (bulkRequest n)) = false := by
    rfl
  unfold Scheduler.admissible
  rw [h.draining, refuseIf_false, ok_bind, bulk_registration]
  dsimp only
  rw [decide_eq_false hdeadline, decide_eq_false hlive, decide_eq_false hqueued, heligible]
  rfl

/-- A bulk request is accepted and waits. -/
theorem Waiting.enqueue (h : Waiting n core) (hn : n < 65000) :
    ∃ core', enqueue bulkConfig "desk" (bulkRequest n) 0 core = (.ok (), core') ∧
      Waiting (n + 1) core' ∧
      core'.jobs = core.jobs.insert (bulkId n) (bulkJob n core.next) := by
  have hserial : core.serial = .ok (core.next, { core with next := core.next + 1 }) := by
    have hnext := h.next_le
    rw [serial, if_pos]
    omega
  have hjobs : (admitted "desk" ⟨1000, "team", "local"⟩ (bulkRequest n)
      core.next { core with next := core.next + 1 }).jobs =
        core.jobs.insert (bulkId n) (bulkJob n core.next) := by
    simp only [admitted, advanceFloor_jobs]
    rfl
  have hadmitted : Waiting (n + 1) (admitted "desk" ⟨1000, "team", "local"⟩
      (bulkRequest n) core.next { core with next := core.next + 1 }) := by
    refine h.insert hn ?_ ?_ hjobs
    · exact advanceFloor_draining _
    · exact advanceFloor_next _
  refine ⟨_, ?_, hadmitted.advanceFloor, (advanceFloor_jobs _).trans hjobs⟩
  unfold Scheduler.enqueue
  rw [checkRequest_bulk]
  dsimp only
  rw [show core.jobs.get? (bulkRequest n).id = none from h.fresh hn]
  dsimp only
  rw [h.admissible hn]
  dsimp only
  rw [hserial]
  exact hadmitted.schedule

/-- The request for a bulk job. -/
def bulkCommand (i : Nat) : Command := .enqueue "desk" (bulkRequest i)

/-- The bulk machine before it has written a receipt. -/
structure Unarchived (service : Service) : Prop where
  config_eq : service.config = bulkConfig
  poisoned : service.poisoned = false
  empty : service.directory.receipts = .empty
  receipts : service.receipts = 0
  receiptBytes : service.receiptBytes = 0

/-- The service while bulk requests below a number wait. -/
structure Bulk (n : Nat) (service : Service) : Prop extends Unarchived service where
  saved : service.directory.state = some service.core
  waiting : Waiting n service.core

section Bulk
variable {service : Service}

theorem Bulk.load (h : Bulk n service) (hcore : core.jobs.get? (bulkId n) = none) :
    service.load (bulkId n) core = .ok core := by
  have hid : receiptId (bulkId n) = true := hash_bulkId n
  have hreceipt : service.receipt (bulkId n) = .ok none := by
    rw [Service.receipt, hid, h.empty]
    rfl
  have habsent : core.jobs.contains (bulkId n) = false := by
    rw [OrderedMap.contains, hcore]
    rfl
  rw [Service.load, habsent, if_neg (by decide), hreceipt]
  rfl

theorem Bulk.admission (h : Bulk n service) (hn : n < 65000) (hcore : Waiting n core) :
    service.admission (bulkRequest n) core = .ok () := by
  have hlive : core.live ≤ n := count_le_length.trans hcore.length_le
  have hcount : ¬saturatingAdd (saturatingAdd 0 core.live) 1 >
      bulkConfig.maxTerminalReceipts := by
    change ¬_ > 65000
    unfold saturatingAdd
    omega
  have hbytes : ¬saturatingAdd 0 (saturatingMul (core.live + 1) maxReceiptBytes) >
      bulkConfig.maxReceiptBytes := by
    change ¬_ > 8 * 1024 * 1024 * 1024
    unfold saturatingAdd saturatingMul maxReceiptBytes
    omega
  have hroom : service.hasRoom core.live = true := by
    rw [Service.hasRoom, h.receipts, h.receiptBytes, h.config_eq, decide_eq_false hcount,
      decide_eq_false hbytes]
    rfl
  rw [Service.admission, hroom]
  simp

/-- The candidate of the next bulk request. -/
theorem Bulk.candidate (h : Bulk n service) (hn : n < 65000) :
    ∃ found, service.candidate 1000 (bulkCommand n) 0 = .ok found ∧
      Waiting (n + 1) found.1 ∧ found.1 ≠ service.core := by
  have hfloor := h.waiting.advanceFloor
  obtain ⟨core', henqueue, hwaiting, hjobs⟩ := hfloor.enqueue hn
  have hget : core'.advanceFloor.jobs.get? (bulkId n) =
      some (bulkJob n service.core.advanceFloor.next) := by
    rw [advanceFloor_jobs, hjobs, get?_insert_self]
  refine ⟨(core'.advanceFloor, bulkJob n service.core.advanceFloor.next), ?_,
    hwaiting.advanceFloor, ?_⟩
  · have hscheduled {m : Nat} {core : Core} (hcore : Waiting m core) :
        accepted (Scheduler.schedule service.config 0 core) = .ok core.advanceFloor := by
      rw [h.config_eq, hcore.schedule]
      rfl
    have hperformed : service.perform 0 service.core.advanceFloor
        (.enqueue "desk" (bulkRequest n)) = .ok core' := by
      rw [Service.perform, h.admission hn hfloor, ok_bind, h.config_eq, henqueue]
      rfl
    have hreply : inspect "desk" (bulkId n) core'.advanceFloor =
        .ok (bulkJob n service.core.advanceFloor.next) := by
      rw [inspect, hget]
      rfl
    unfold Service.candidate
    rw [h.poisoned, refuseIf_false, ok_bind]
    dsimp only [bulkCommand, Command.addressed]
    rw [h.config_eq, bulk_registration, ← h.config_eq]
    dsimp only
    refine check_bind_eq_ok.2 ⟨rfl, bind_eq_ok.2 ⟨_, hscheduled h.waiting, bind_eq_ok.2 ⟨_,
      h.load (hfloor.fresh hn), bind_eq_ok.2 ⟨_, hperformed, bind_eq_ok.2 ⟨_,
      hscheduled hwaiting,
      bind_eq_ok.2 ⟨_, hreply, rfl⟩⟩⟩⟩⟩⟩
  · intro (hsame : core'.advanceFloor = service.core)
    rw [hsame, h.waiting.fresh hn] at hget
    cases hget

/-- A candidate in which every job waits is saved without receipts. -/
theorem Unarchived.handle (h : Unarchived service) {i : Nat} {found : Core × Job}
    (hcandidate : service.candidate 1000 (bulkCommand i) 0 = .ok found)
    (hne : found.1 ≠ service.core) (hwaiting : Waiting n found.1) :
    let after := service.handle 0 1000 (bulkCommand i) 0
    after.1 = .ok () ∧ Bulk n after.2 ∧
      service.handleKilled 0 1000 (bulkCommand i) 0 2 = after.2.directory := by
  have hproposal : service.proposal 0 1000 (bulkCommand i) 0 = .ok found.1 := by
    change (service.candidate 1000 (bulkCommand i) 0).map Prod.fst = _
    rw [hcandidate]
    rfl
  have hterminal : Service.terminal found.1 = [] := by
    apply eq_nil_iff_forall_not_mem.2
    intro e he
    obtain ⟨hjob, hterminal⟩ := mem_terminal_iff.1 he
    rw [(hwaiting.jobs e (get?_eq_some.1 hjob)).1.2] at hterminal
    cases hterminal
  have hbefore : service.beforeReceipts found.1 = service := by
    rw [Service.beforeReceipts, hterminal]
    rfl
  rw [Service.handle_eq, Service.handleKilled, hproposal]
  dsimp only
  rw [Service.commit, if_neg hne, if_neg hne, Service.saveDirectories, Service.save, hterminal,
    hbefore]
  exact ⟨rfl, { h with saved := rfl, waiting := { hwaiting with } }, rfl⟩

/-- The next bulk request is answered, and its job waits with the others. -/
theorem Bulk.handle (h : Bulk n service) (hn : n < 65000) :
    let after := service.handle 0 1000 (bulkCommand n) 0
    after.1 = .ok () ∧ Bulk (n + 1) after.2 ∧
      service.handleKilled 0 1000 (bulkCommand n) 0 2 = after.2.directory := by
  obtain ⟨found, hcandidate, hwaiting, hne⟩ := h.candidate hn
  exact h.toUnarchived.handle hcandidate hne hwaiting

/-- The snapshot grows with the bulk requests. -/
theorem Waiting.snapshot_length (h : Waiting n core) : 2066 * n ≤ core.json.utf8Length := by
  have hjobs : (core.jobs.values.map Job.bytes).sum ≤
      (jsonMap core.jobs Job.json).utf8Length := by
    have hobject := sum_le_utf8Length_jsonObject
      (core.jobs.entries.map fun e => (String.ofList e.1, e.2.json))
    rw [map_map] at hobject
    rw [OrderedMap.values, map_map]
    exact hobject
  have hbytes := h.bytes
  refine le_trans ?_ (sum_le_utf8Length_jsonObject _)
  simp only [map_cons, map_nil, sum_cons, sum_nil]
  omega

end Bulk

/-- A start and the bulk requests below a number. -/
def bulkEvents (n : Nat) : List Event :=
  .start :: (range n).map fun i => .request 1000 (bulkCommand i) 0

/-- The bulk machine after its first start. -/
def bulkStarted : Service :=
  .initial sha256 bulkConfig ⟨some (.initial sha256 bulkConfig), .empty⟩

set_option maxRecDepth 20000 in
theorem first_candidate :
    ((bulkStarted.candidate 1000 (bulkCommand 0) 0).toOption.any fun e => Waiting 1 e.1) = true := by
  decide +kernel

/-- The first bulk request takes the slot. -/
theorem bulkStarted_handle : Bulk 1 (bulkStarted.handle 0 1000 (bulkCommand 0) 0).2 := by
  have hcandidate := first_candidate
  cases hresult : bulkStarted.candidate 1000 (bulkCommand 0) 0 with
  | error reason =>
    rw [hresult] at hcandidate
    cases hcandidate
  | ok found =>
    rw [hresult] at hcandidate
    have hwaiting : Waiting 1 found.1 := of_decide_eq_true hcandidate
    have hne : found.1 ≠ bulkStarted.core := by
      intro hsame
      have htaken := hwaiting.taken
      rw [hsame] at htaken
      cases htaken
    exact (Unarchived.handle ⟨rfl, rfl, rfl, rfl, rfl⟩ hresult hne hwaiting).2.1

theorem bulkEvents_succ (n : Nat) (s : System) :
    runEvents sha256 bulkConfig 0 (bulkEvents (n + 1)) s =
      (Event.run sha256 bulkConfig 0 (.request 1000 (bulkCommand n) 0)
        (runEvents sha256 bulkConfig 0 (bulkEvents n) s)).2 := by
  rw [bulkEvents, range_succ, map_append, ← cons_append, runEvents, foldl_append]
  rfl

/-- Every bulk request is accepted. -/
theorem bulkEvents_bulk (hn : n < 65000) :
    ∃ service, runEvents sha256 bulkConfig 0 (bulkEvents (n + 1)) (.stopped .empty) =
      .running service ∧ Bulk (n + 1) service := by
  induction n with
  | zero =>
    have hopen : openSystem sha256 bulkConfig .empty = (some (.ok ()), .running bulkStarted) :=
      openSystem_empty (by decide)
    refine ⟨_, ?_, bulkStarted_handle⟩
    rw [bulkEvents_succ, bulkEvents, range_zero, map_nil, runEvents, foldl_cons, run_start, hopen]
    rfl
  | succ n ih =>
    obtain ⟨service, hrun, hbulk⟩ := ih (lt_of_succ_lt hn)
    refine ⟨_, ?_, (hbulk.handle hn).2.1⟩
    rw [bulkEvents_succ, hrun]
    rfl

/-- The longest snapshot that a start reads. -/
def maxSnapshotBytes : Nat := 128 * 1024 * 1024

/-- A start refuses a snapshot that is too long. -/
theorem openSystem_unreadable {sha : Wire.Digest} {config : Config} {directory : Directory}
    (hvalid : config.validate = .ok ()) (hstate : directory.state = some core)
    (hsize : maxSnapshotBytes < core.json.utf8Length + 1) :
    openSystem sha config directory = (none, .stopped directory) := by
  have hcore : Service.openCore sha config directory = .error "scheduler state exceeds bound" := by
    simp only [Service.openCore, hstate]
    rw [if_pos]
    exact hsize
  unfold openSystem
  rw [Service.reopen, hvalid, ok_bind, hcore, error_bind]

end MiniDregg.Scheduler
