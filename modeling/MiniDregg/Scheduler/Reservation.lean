import MiniDregg.Scheduler.CrashConsistency

/-!
# Reservation in the archive

Every history of starts, requests and kills in which an enqueue is accepted
only with room for all jobs of the service keeps room for every receipt: no
save is refused for want of room, and the archive stays within its limits.

The check of the service counts less: jobs that the schedule of the same
request expires are terminal by then and have no receipt yet, and neither count
includes them. On a machine with one receipt, a request that arrives when the
only job has expired is accepted, takes the room of that job, and cannot be
archived itself.

## Implementation notes

The jobs that still need a receipt are counted by `reserve`. The room is kept
over the snapshot with the terminal jobs in it: writing a receipt moves one job
from the reserve to the archive, and the jobs leave the state afterwards.
-/

namespace MiniDregg.Scheduler

open Fallible Store OrderedMap List Service Wire

/-- The jobs of a state without a receipt. -/
def reserve (receipts : OrderedMap Text Job) (core : Core) : Nat :=
  core.jobs.count fun job => !receipts.contains job.request.id

/-- Room in an archive for the receipts of all jobs of a state. -/
structure Room (config : Config) (receipts : OrderedMap Text Job) (core : Core) : Prop where
  count : receipts.entries.length + reserve receipts core ≤ config.maxTerminalReceipts
  bytes : receiptsBytes receipts + reserve receipts core * maxReceiptBytes ≤ config.maxReceiptBytes

variable {sha : Wire.Digest} {config : Config} {receipts : OrderedMap Text Job} {core next : Core}
  {id : Text} {job : Job}

section Reserve
variable {powers : Powers}

theorem contains_eq_false : receipts.contains id = false ↔ receipts.get? id = none := by
  simp [OrderedMap.contains]

/-- A receipt that is written leaves the reserve. -/
theorem reserve_insert_lt (hk : Keyed core) (hjob : core.jobs.get? id = some job)
    (hfresh : receipts.get? id = none) :
    reserve (receipts.insert id job) core < reserve receipts core := by
  refine count_lt_count ⟨job, hjob, ?_⟩ fun id' job' hjob' hcounted => ?_
  · rw [hk id job hjob, contains_eq_false.2 hfresh]
    rfl
  · rw [hk id' job' hjob', Bool.not_eq_true', contains_eq_false, get?_insert] at hcounted
    split_ifs at hcounted with heq
    refine ⟨heq, job', hjob', ?_⟩
    rw [hk id' job' hjob', contains_eq_false.2 hcounted]
    rfl

/-- When only one identity may enter, at most one receipt more is needed. -/
theorem Steps.reserve_le_succ (h : Steps config powers core next) (receipts : OrderedMap Text Job)
    (hk : Keyed core) (henters : ∀ job, powers.enters job → job.request.id = id) :
    reserve receipts next ≤ reserve receipts core + 1 := by
  refine count_le_count_succ id fun id' job' hne hjob' hcounted => ?_
  obtain ⟨job, hjob⟩ | ⟨job, hentered, hid⟩ := h.present hjob'
  · refine ⟨job, hjob, ?_⟩
    rwa [hk id' job hjob, ← h.keyed hk id' job' hjob']
  · exact absurd (hid.symm.trans (henters job hentered)) hne

/-- When an identity that may enter is there, no further receipt is needed. -/
theorem Steps.reserve_le (h : Steps config powers core next) (receipts : OrderedMap Text Job)
    (hk : Keyed core)
    (henters : ∀ job, powers.enters job → core.jobs.get? job.request.id ≠ none) :
    reserve receipts next ≤ reserve receipts core := by
  refine count_le_count fun id' job' hjob' hcounted => ?_
  have hkey := h.keyed hk id' job' hjob'
  have hthere : ∃ old, core.jobs.get? id' = some old := by
    obtain hold | ⟨job, hentered, rfl⟩ := h.present hjob'
    · exact hold
    · exact Option.ne_none_iff_exists'.1 (henters job hentered)
  obtain ⟨old, hold⟩ := hthere
  exact ⟨old, hold, by rwa [hk id' old hold, ← hkey]⟩

theorem Steps.reserve_le_closed (h : Steps config .closed core next)
    (receipts : OrderedMap Text Job) (hk : Keyed core) :
    reserve receipts next ≤ reserve receipts core :=
  h.reserve_le receipts hk fun _ hentered => hentered.elim

end Reserve

section Room

theorem Room.mono (h : Room config receipts core)
    (hreserve : reserve receipts next ≤ reserve receipts core) : Room config receipts next := by
  have hmul := Nat.mul_le_mul_right maxReceiptBytes hreserve
  exact ⟨(Nat.add_le_add_left hreserve _).trans h.count,
    (Nat.add_le_add_left hmul _).trans h.bytes⟩

theorem Room.fits (h : Room config receipts core) : Fits config receipts :=
  ⟨(Nat.le_add_right _ _).trans h.count, (Nat.le_add_right _ _).trans h.bytes⟩

/-- Writing the receipt of a job keeps the room for the others. -/
theorem Room.insert (h : Room config receipts core) (hk : Keyed core)
    (hjob : core.jobs.get? id = some job)
    (hagrees : ∀ receipt, receipts.get? id = some receipt → job = receipt)
    (hbytes : job.bytes ≤ maxReceiptBytes) : Room config (receipts.insert id job) core := by
  cases hget : receipts.get? id with
  | some receipt =>
    obtain rfl := hagrees receipt hget
    rwa [insert_eq_self hget]
  | none =>
    have hlt := reserve_insert_lt hk hjob hget
    have hmul := Nat.mul_le_mul_right maxReceiptBytes hlt
    have hlength := (insert_perm (v := job) hget).length_eq
    have hcount := h.count
    have hroom := h.bytes
    rw [Nat.succ_mul] at hmul
    constructor
    · rw [hlength, length_cons]
      omega
    · rw [receiptsBytes_insert job hget]
      omega

variable (hvalid : config.validate = .ok ())
include hvalid

/-- Writing the receipts of jobs of a state keeps the room for the others. -/
theorem Room.archived {jobs : List (Text × Job)} (h : Room config receipts core) (hk : Keyed core)
    (hjobs : Archivable config receipts jobs)
    (hmem : ∀ e ∈ jobs, core.jobs.get? e.1 = some e.2) :
    Room config (archived jobs receipts) core := by
  induction jobs generalizing receipts with
  | nil => exact h
  | cons e jobs ih =>
    have hhead : e ∈ e :: jobs := mem_cons_self
    have hbytes := (hjobs.bounds e hhead).bytes_le hvalid (hjobs.terminal e hhead)
    have hwritten := h.insert hk (hmem e hhead) (hjobs.agrees e hhead) hbytes
    exact ih hwritten hjobs.tail fun d hd => hmem d (mem_cons_of_mem e hd)

section
variable (h : Room config receipts next) (hmatched : Matched config receipts next)
include h hmatched

/-- The candidate with a first part of its receipts has room for the rest. -/
theorem Room.written {first rest : List (Text × Job)} (hparts : terminal next = first ++ rest) :
    Room config (Scheduler.archived first receipts) next := by
  have hjobs : Archivable config receipts (first ++ rest) := hparts ▸ hmatched.archivable
  refine h.archived hvalid hmatched.keyed hjobs.left fun e he => ?_
  have hterminal : e ∈ terminal next := hparts ▸ mem_append_left _ he
  exact (mem_terminal_iff.1 hterminal).1

/-- The settled pair has room for the jobs that stay. -/
theorem Room.settled : Room config (settled next receipts).2 (settled next receipts).1 := by
  have hall := h.written hvalid hmatched (append_nil (terminal next)).symm
  refine hall.mono (count_le_count fun id job hjob hcounted => ⟨job, ?_, hcounted⟩)
  rw [settled_jobs, get?_filter, Option.filter_eq_some_iff] at hjob
  exact hjob.1

end

end Room

variable {service : Service} {command : Command} {euid uid now reached : Nat}
  {directory : Directory}

section Save
variable (hvalid : config.validate = .ok ()) (hexact : Exact service)
  (hmatched : Matched config service.directory.receipts next)
  (hroom : Room config service.directory.receipts next)
include hvalid hexact hmatched hroom

/-- A save with room for every job goes through and keeps the room. -/
theorem save_room (htallied : Tallied config service) (hcounted : Counted config service) :
    ∃ service' core', service.save next = (.ok (), service', core') ∧
      Room config service'.directory.receipts core' ∧ service'.poisoned = service.poisoned := by
  have hsettled := hroom.settled hvalid hmatched
  obtain ⟨service', core', hsave⟩ := (save_ok_iff htallied hcounted hexact hmatched).2 hsettled.fits
  obtain ⟨hpair, -, -, -, hpoisoned⟩ := save_eq_ok hsave hexact
  rw [← hpair] at hsettled
  exact ⟨service', core', hsave, hsettled, hpoisoned⟩

/-- Every directory of such a save has room for the receipts of its snapshot. -/
theorem saveDirectories_room
    (hold : ∀ core, service.directory.state = some core →
      Room config service.directory.receipts core)
    (hmem : directory ∈ service.saveDirectories next) (core : Core)
    (hcore : directory.state = some core) : Room config directory.receipts core := by
  obtain rfl | ⟨first, rest, hparts, rfl⟩ | rfl := saveDirectories_cases hexact hmem
  · exact hold core hcore
  · cases hcore
    exact hroom.written hvalid hmatched hparts
  · cases hcore
    exact hroom.settled hvalid hmatched

end Save

/-- There is room for the receipt of a new job beside those of all jobs of the service, also of
the jobs that expire with the same request. -/
def Service.HasRoomForAll (service : Service) : Command → Prop
  | .enqueue _ request =>
    service.core.jobs.get? request.id = none → service.directory.receipts.get? request.id = none →
      service.receipts + service.core.live + 1 ≤ service.config.maxTerminalReceipts ∧
        service.receiptBytes + (service.core.live + 1) * maxReceiptBytes ≤
          service.config.maxReceiptBytes
  | _ => True

section Request
variable (hvalid : config.validate = .ok ())
include hvalid

/-- A receipt that is read back needs no room. -/
theorem load_reserve_le (h : Tallied config service) (hload : service.load id core = .ok next) :
    reserve service.directory.receipts next ≤ reserve service.directory.receipts core := by
  obtain ⟨rfl, -⟩ | ⟨-, receipt, hreceipt, rfl⟩ := load_eq_ok hvalid h hload
  · exact le_rfl
  · apply count_insert_of_not
    simp [OrderedMap.contains, h.archive.keyed hreceipt, hreceipt]

variable (h : Serving sha config service)
  (hroom : Room config service.directory.receipts service.core)
include h hroom

/-- The candidate of a request with room for all has room for its receipts. -/
theorem candidate_room {reply : Job} (hall : service.HasRoomForAll command)
    (hcandidate : service.candidate uid command now = .ok (next, reply)) :
    Room config service.directory.receipts next := by
  have hmatched := h.snapshot.matched
  obtain ⟨controller, id, scheduled, loaded, haddressed, hscheduled, hload, hloaded, hsteps⟩ :=
    candidate_steps hvalid h.tallied hmatched hcandidate
  have hscheduledReserve :=
    hscheduled.reserve_le_closed service.directory.receipts hmatched.keyed
  have hloadedReserve := load_reserve_le hvalid h.tallied hload
  by_cases hnew : loaded.jobs.get? id = none ∧ ∃ job, (enqueuePowers command).enters job
  · obtain ⟨hnone, job, -, controller', rfl⟩ := hnew
    obtain ⟨hscheduledNone, hreceiptNone⟩ := load_absent hvalid h.tallied hload hnone
    have hsucc := hsteps.reserve_le_succ service.directory.receipts hloaded.keyed
      fun _ hentered => enters_addressed haddressed hentered
    cases haddressed
    have hcoreNone : service.core.jobs.get? job.request.id = none := by
      refine Option.eq_none_iff_forall_ne_some.2 fun old hold => ?_
      obtain ⟨old', hold', -⟩ := hscheduled.keeps (fun hleaves => hleaves) hold
      cases hscheduledNone.symm.trans hold'
    obtain ⟨hcount, hbytes⟩ := hall hcoreNone hreceiptNone
    rw [h.tallied.receipts, h.tallied.config_eq] at hcount
    rw [h.tallied.receiptBytes, h.tallied.config_eq] at hbytes
    -- Every job of a service between two requests is live.
    have hlive : reserve service.directory.receipts service.core ≤ service.core.live :=
      count_le_count fun id job hjob _ => ⟨job, hjob, by simp [h.live id job hjob]⟩
    have hreserve : reserve service.directory.receipts next ≤ service.core.live + 1 := by omega
    have hmul := Nat.mul_le_mul_right maxReceiptBytes hreserve
    exact ⟨by omega, by omega⟩
  · have hsame := hsteps.reserve_le service.directory.receipts hloaded.keyed
      fun job hentered hnone => hnew ⟨enters_addressed haddressed hentered ▸ hnone, job, hentered⟩
    exact hroom.mono ((hsame.trans hloadedReserve).trans hscheduledReserve)

/-- What a round of `serve` commits has room for its receipts. -/
theorem proposal_room (hall : service.HasRoomForAll command)
    (hproposal : service.proposal euid uid command now = .ok next) :
    Room config service.directory.receipts next := by
  obtain ⟨draining, resolve, limit, hpage⟩ | ⟨reply, hcandidate⟩ := proposal_eq_ok hproposal
  · have hkeyed := h.snapshot.matched.keyed
    exact hroom.mono ((operatorCandidate_steps hkeyed hpage).reserve_le_closed _ hkeyed)
  · exact candidate_room hvalid h hroom hall hcandidate

end Request

section History
variable (sha : Wire.Digest) (config : Config) (euid : Nat)

/-- A request that the service admits has room for all jobs of the service. -/
def Event.HasRoom : Event → System → Prop
  | request uid command now, .running service =>
    (∃ next, service.proposal euid uid command now = .ok next) → service.HasRoomForAll command
  | requestKilled uid command now _, .running service =>
    (∃ next, service.proposal euid uid command now = .ok next) → service.HasRoomForAll command
  | _, _ => True

/-- Every admitted request of a history has room for all jobs of the service at its time. -/
def RoomThroughout : List Event → System → Prop
  | [], _ => True
  | event :: events, system =>
    event.HasRoom euid system ∧ RoomThroughout events (event.run sha config euid system).2

/-- A system that has room for every receipt. -/
def System.Reserved : System → Prop
  | running service =>
    service.poisoned = false ∧ Room config service.directory.receipts service.core
  | stopped directory => ∀ core, directory.state = some core → Room config directory.receipts core

variable {sha config euid} {system : System} {event : Event} {events : List Event}

theorem System.Reserved.snapshot (h : system.Reserved config) (hsound : system.Sound sha config) :
    ∀ core, system.directory.state = some core → Room config system.directory.receipts core := by
  cases system with
  | stopped directory => exact h
  | running service =>
    intro core hcore
    cases hcore.symm.trans (hsound.2.2 h.1).saved
    exact h.2

section Start
variable (hintact : Intact sha config directory)
  (hroom : ∀ core, directory.state = some core → Room config directory.receipts core)
include hintact hroom

/-- A start saves a candidate with room for its receipts. -/
theorem reopen_room (h : reopen sha config directory = .ok (service, next)) :
    Room config directory.receipts next := by
  obtain ⟨-, -, -, -, -, -, hcore, -⟩ := reopen_eq_ok h
  obtain ⟨rfl, rfl, hsavable⟩ := reopen_intact hintact h
  have hopened : Room config service.directory.receipts service.core := by
    obtain hstate | ⟨hstate, hinitial⟩ := openCore_eq_ok hcore
    · exact hroom _ hstate
    · rw [hintact.first hstate, hinitial]
      have hreserve : reserve .empty (.initial sha config) = 0 := rfl
      have hempty : (empty : OrderedMap Text Job).entries.length = 0 ∧
          receiptsBytes .empty = 0 := ⟨rfl, rfl⟩
      constructor <;> simp [hreserve, hempty]
  exact hopened.mono (recover_steps.reserve_le_closed _ hsavable.snapshot.matched.keyed)

theorem openSystem_reserved (hwithin : Within config directory.receipts) :
    (openSystem sha config directory).2.Reserved config ∧
      (openSystem sha config directory).1 ≠ some (.error archiveExhausted) := by
  unfold openSystem
  split
  · exact ⟨hroom, by simp⟩
  next service next hreopen =>
    have hnext := reopen_room hintact hroom hreopen
    have hcounted := reopen_counted hwithin hreopen
    obtain ⟨hvalid, -, -, hpoisoned, -⟩ := reopen_eq_ok hreopen
    obtain ⟨rfl, -, hsavable⟩ := reopen_intact hintact hreopen
    obtain ⟨service', core', hsave, hsaved, hpoisoned'⟩ :=
      save_room hvalid hsavable.exact hsavable.matched hnext hsavable.tallied hcounted
    rw [hsave]
    exact ⟨⟨hpoisoned'.trans hpoisoned, hsaved⟩, by simp⟩

theorem openKilled_reserved :
    (System.stopped (openKilled sha config reached directory)).Reserved config := by
  obtain hsame | ⟨service, next, hreopen, hmem⟩ := openKilled_cases sha config reached directory
  · rwa [hsame]
  · have hnext := reopen_room hintact hroom hreopen
    obtain ⟨hvalid, -⟩ := reopen_eq_ok hreopen
    obtain ⟨rfl, -, hsavable⟩ := reopen_intact hintact hreopen
    exact saveDirectories_room hvalid hsavable.exact hsavable.matched hnext hroom hmem

end Start

section Request
variable (hsound : (System.running service).Sound sha config)
  (hreserved : (System.running service).Reserved config)
  (hadmitted : (∃ next, service.proposal euid uid command now = .ok next) →
    service.HasRoomForAll command)
include hsound hreserved hadmitted

/-- An admitted request with room for all is saved, if there is anything to save. -/
theorem handle_reserved (hcounted : Counted config service) :
    (System.running (service.handle euid uid command now).2).Reserved config ∧
      service.saved euid uid command now ≠ some (.error archiveExhausted) := by
  rw [handle_eq, saved]
  cases hproposal : service.proposal euid uid command now with
  | error e => exact ⟨hreserved, by simp⟩
  | ok next =>
    have h := hsound.2.2 hreserved.1
    have hmatched := (h.proposal hsound.1 hproposal).matched
    have hroom := proposal_room hsound.1 h hreserved.2 (hadmitted ⟨next, hproposal⟩) hproposal
    obtain ⟨service', core', hsave, hsaved, hpoisoned⟩ :=
      save_room hsound.1 h.exact hmatched hroom h.tallied hcounted
    simp only [Service.commit, hsave]
    split_ifs
    · exact ⟨hreserved, by simp⟩
    · exact ⟨⟨hpoisoned.trans hreserved.1, hsaved⟩, by simp⟩

theorem handleKilled_reserved :
    (System.stopped (service.handleKilled euid uid command now reached)).Reserved config := by
  have hold := hreserved.snapshot hsound
  obtain hsame | ⟨next, hproposal, hmem⟩ := handleKilled_cases service euid uid command now reached
  · rw [hsame]
    exact hold
  · have h := hsound.2.2 hreserved.1
    have hmatched := (h.proposal hsound.1 hproposal).matched
    have hroom := proposal_room hsound.1 h hreserved.2 (hadmitted ⟨next, hproposal⟩) hproposal
    exact saveDirectories_room hsound.1 h.exact hmatched hroom hold hmem

end Request

/-- An event with room for all keeps the room, and its save is not refused for want of it. -/
theorem run_reserved (hsound : system.Sound sha config) (hlimited : system.Limited config)
    (h : system.Reserved config) (hroom : event.HasRoom euid system) :
    (event.run sha config euid system).2.Reserved config ∧
      (event.run sha config euid system).1 ≠ some (.error archiveExhausted) := by
  have hsnapshot := h.snapshot hsound
  cases event with
  | start => exact openSystem_reserved hsound.intact hsnapshot hlimited.within
  | startKilled reached =>
    exact ⟨openKilled_reserved hsound.intact hsnapshot, by simp [Event.run]⟩
  | request uid command now =>
    cases system with
    | stopped directory => exact ⟨h, by simp [Event.run]⟩
    | running service => exact handle_reserved hsound h hroom hlimited
  | requestKilled uid command now reached =>
    cases system with
    | stopped directory => exact ⟨h, by simp [Event.run]⟩
    | running service => exact ⟨handleKilled_reserved hsound h hroom, by simp [Event.run]⟩

theorem runEvents_reserved (hsound : system.Sound sha config) (hlimited : system.Limited config)
    (h : system.Reserved config)
    (hroom : RoomThroughout sha config euid (events ++ [event]) system) :
    (event.run sha config euid (runEvents sha config euid events system)).1 ≠
      some (.error archiveExhausted) := by
  induction events generalizing system with
  | nil => exact (run_reserved hsound hlimited h hroom.1).2
  | cons first events ih =>
    exact ih (run_sound hsound) (run_limited hlimited) (run_reserved hsound hlimited h hroom.1).1
      hroom.2

/-- In every history from an empty directory the receipts stay within `max_terminal_receipts` and
`max_receipt_bytes`. If every enqueue that the service admits comes with room for all jobs of the
service, also those that expire with it, then no save fails with the archive exhausted. -/
theorem archive_reservation (sha : Wire.Digest) (config : Config) (euid : Nat)
    (events : List Event) (event : Event) :
    ((runEvents sha config euid events (.stopped .empty)).directory.receipts.entries.length ≤
        config.maxTerminalReceipts ∧
      (runEvents sha config euid events (.stopped .empty)).directory.bytes ≤
        config.maxReceiptBytes) ∧
    (RoomThroughout sha config euid (events ++ [event]) (.stopped .empty) →
      (event.run sha config euid (runEvents sha config euid events (.stopped .empty))).1 ≠
        some (.error archiveExhausted)) := by
  have hstart : (System.stopped .empty).Limited config := empty_within
  have hwithin := (runEvents_limited sha euid events hstart).within
  refine ⟨⟨hwithin.count, hwithin.bytes⟩, fun hroom => ?_⟩
  have hreserved : (System.stopped .empty).Reserved config := fun _ hcore => by cases hcore
  exact runEvents_reserved empty_sound hstart hreserved hroom

end History

theorem small_room (sha : Wire.Digest) {event : Event}
    (h : event.HasRoom 0 (.running (smallStarted sha))) :
    RoomThroughout sha smallConfig 0 ([.start] ++ [event]) (.stopped .empty) := by
  have hopen := @openSystem_empty sha smallConfig (by decide)
  refine ⟨trivial, ?_, trivial⟩
  rw [run_start, hopen]
  exact h

/-- The small machine has room for its first job. -/
theorem archive_reservation_small :
    (Event.run sha256 smallConfig 0
      (.request 1000 (.enqueue "desk" (smallRequest 'a' 10)) 0)
      (runEvents sha256 smallConfig 0 [.start] (.stopped .empty))).1 ≠
        some (.error archiveExhausted) :=
  (archive_reservation sha256 smallConfig 0 [.start] _).2
    (small_room sha256 fun _ _ _ => by decide)

set_option maxRecDepth 20000 in
/-- The second job arrives when the first has expired and has no receipt yet. It is accepted,
the receipt of the first takes the only place, and the save that ends the second is refused. -/
theorem expired_job_takes_reservation :
    (Event.run sha256 smallConfig 0
      (.request 1000 (.enqueue "desk" (smallRequest 'b' 1000)) 20)
      (runEvents sha256 smallConfig 0
        [.start, .request 1000 (.enqueue "desk" (smallRequest 'a' 10)) 0]
        (.stopped .empty))).1 = some (.ok ()) ∧
    (Event.run sha256 smallConfig 0
      (.request 1000 (.cancel "desk" (List.replicate 64 'b')) 21)
      (runEvents sha256 smallConfig 0
        [.start, .request 1000 (.enqueue "desk" (smallRequest 'a' 10)) 0,
          .request 1000 (.enqueue "desk" (smallRequest 'b' 1000)) 20]
        (.stopped .empty))).1 = some (.error archiveExhausted) := by
  rw [small_start, small_start]
  decide +kernel

end MiniDregg.Scheduler
