import MiniDregg.Scheduler.Header
import MiniDregg.Scheduler.Oversize

/-!
# Crash consistency

Files are intact when the snapshot agrees with the receipts and its counters are
not ahead of them. Every event leaves the files intact, whatever room there is:
a save writes the candidate before its receipts and takes the terminal jobs out
after them, so each directory on the way is the old one, the candidate with a
first part of its receipts, or the settled pair.

A start on intact files makes the rewriting of `recover` of what they hold. It
is refused in two cases only: the snapshot is longer than a start reads, or the
archive has no room for the jobs that `recover` ends.
-/

namespace MiniDregg.Scheduler

open Fallible Store OrderedMap List Service Wire

/-- A snapshot that belongs to a configuration and an archive. The counters may be those of an
earlier archive. -/
structure Snapshot (sha : Wire.Digest) (config : Config) (receipts : OrderedMap Text Job)
    (core : Core) : Prop where
  matched : Matched config receipts core
  version : core.version = 1
  digest : core.configDigest = config.fingerprint sha
  count_le : core.archivedReceipts ≤ receipts.entries.length
  bytes_le : core.archivedBytes ≤ receiptsBytes receipts
  drained : core.archivedReceipts = receipts.entries.length →
    core.archivedDrained = receipts.count fun job => job.state.isDrained

/-- Files whose snapshot belongs to their receipts. -/
structure Intact (sha : Wire.Digest) (config : Config) (directory : Directory) : Prop where
  archive : Archive config directory.receipts
  snapshot : ∀ core, directory.state = some core → Snapshot sha config directory.receipts core
  first : directory.state = none → directory.receipts = .empty

/-- A service between two requests: the snapshot is its state, without terminal jobs. -/
structure Serving (sha : Wire.Digest) (config : Config) (service : Service) : Prop where
  tallied : Tallied config service
  exact : Exact service
  intact : Intact sha config service.directory
  saved : service.directory.state = some service.core
  live : ∀ id job, service.core.jobs.get? id = some job → job.state.isTerminal = false
  count_eq : service.core.archivedReceipts = service.directory.receipts.entries.length
  bytes_eq : service.core.archivedBytes = receiptsBytes service.directory.receipts

/-- A service with intact files, and a candidate that belongs to them. -/
structure Savable (sha : Wire.Digest) (config : Config) (service : Service) (next : Core) :
    Prop where
  tallied : Tallied config service
  exact : Exact service
  intact : Intact sha config service.directory
  snapshot : Snapshot sha config service.directory.receipts service.core
  header : next.header = service.core.header
  matched : Matched config service.directory.receipts next

variable {sha : Wire.Digest} {config : Config} {receipts : OrderedMap Text Job} {core next : Core}
  {service service' : Service} {directory : Directory}

section Files
variable {core' : Core}

theorem Serving.snapshot (h : Serving sha config service) :
    Snapshot sha config service.directory.receipts service.core :=
  h.intact.snapshot service.core h.saved

section
variable (h : Snapshot sha config receipts core) (hheader : next.header = core.header)
  (hmatched : Matched config receipts next)
include h hheader hmatched

/-- The candidate belongs to the archive with a first part of its receipts. -/
theorem Snapshot.written {first rest : List (Text × Job)}
    (hparts : terminal next = first ++ rest) :
    Snapshot sha config (archived first receipts) next := by
  simp only [Core.header, Prod.mk.injEq] at hheader
  obtain ⟨hversion, hdigest, hreceipts, hbytes, hdrained⟩ := hheader
  have hjobs : Archivable config receipts (first ++ rest) := hparts ▸ hmatched.archivable
  have hextends := hjobs.left.extends
  have hlength := (entries_subperm hextends).length_le
  refine ⟨⟨hmatched.keyed, hmatched.bounded, fun {id job receipt} hjob hreceipt => ?_⟩,
    hversion.trans h.version, hdigest.trans h.digest, ?_, ?_, fun hcount => ?_⟩
  · by_cases hmem : id ∈ first.map Prod.fst
    · obtain ⟨e, he, rfl⟩ := mem_map.1 hmem
      rw [get?_archived_of_mem hjobs.left.nodup he] at hreceipt
      have hterminal : e ∈ terminal next := hparts ▸ mem_append_left _ he
      cases hreceipt
      exact Option.some.inj (hjob.symm.trans (mem_terminal_iff.1 hterminal).1)
    · rw [get?_archived_of_not_mem hmem] at hreceipt
      exact hmatched.agrees hjob hreceipt
  · rw [hreceipts]
    exact h.count_le.trans hlength
  · rw [hbytes]
    exact h.bytes_le.trans (receiptsBytes_mono hextends)
  · -- No more receipts than counted: none has been added.
    rw [hreceipts] at hcount
    have hsame := eq_of_extends hextends (hcount ▸ h.count_le)
    rw [← hsame] at hcount ⊢
    rw [hdrained]
    exact h.drained hcount

/-- The settled pair belongs together. -/
theorem Snapshot.settled :
    Snapshot sha config (settled next receipts).2 (settled next receipts).1 := by
  simp only [Core.header, Prod.mk.injEq] at hheader
  obtain ⟨hversion, hdigest, -⟩ := hheader
  have hlive {id : Text} {job : Job}
      (hjob : (Scheduler.settled next receipts).1.jobs.get? id = some job) :
      next.jobs.get? id = some job ∧ job.state.isTerminal = false := by
    rw [settled_jobs, get?_filter, Option.filter_eq_some_iff] at hjob
    exact ⟨hjob.1, by simpa using hjob.2⟩
  refine ⟨⟨fun id job hjob => hmatched.keyed id job (hlive hjob).1, ⟨hmatched.bounded.next,
    fun id job hjob => hmatched.bounded.jobs id job (hlive hjob).1⟩,
    fun {id job receipt} hjob hreceipt => ?_⟩, hversion.trans h.version, hdigest.trans h.digest,
    le_rfl, le_rfl, fun _ => rfl⟩
  obtain ⟨hjob, hterminal⟩ := hlive hjob
  rw [settled_receipts, get?_archived_terminal, hjob] at hreceipt
  simp only [Option.filter, hterminal] at hreceipt
  exact hmatched.agrees hjob hreceipt

end

/-- Every directory of a save is intact. -/
theorem Savable.saveDirectories (h : Savable sha config service next)
    (hmem : directory ∈ service.saveDirectories next) : Intact sha config directory := by
  have harchivable := h.matched.archivable
  obtain rfl | ⟨first, rest, hparts, rfl⟩ | rfl := saveDirectories_cases h.exact hmem
  · exact h.intact
  · rw [hparts] at harchivable
    refine ⟨harchivable.left.archive h.intact.archive, fun core hcore => ?_, fun hnone => ?_⟩
    · cases hcore
      exact h.snapshot.written h.header h.matched hparts
    · cases hnone
  · refine ⟨harchivable.archive h.intact.archive, fun core hcore => ?_, fun hnone => ?_⟩
    · cases hcore
      exact h.snapshot.settled h.header h.matched
    · cases hnone

theorem save_directory_mem (service : Service) (next : Core) :
    (service.save next).2.1.directory ∈ service.saveDirectories next :=
  mem_append_right _ (mem_singleton_self _)

/-- A save that goes through leaves a service between two requests. -/
theorem Savable.serving (h : Savable sha config service next)
    (hsave : service.save next = (.ok (), service', core')) :
    Serving sha config { service' with core := core' } := by
  obtain ⟨hsettled, hstate, hexact', hconfig, -⟩ := save_eq_ok hsave h.exact
  have hmem := save_directory_mem service next
  rw [hsave] at hmem
  have hintact' := h.saveDirectories hmem
  have hcore : core' = (Scheduler.settled next service.directory.receipts).1 :=
    congrArg Prod.fst hsettled
  have hreceipts : service'.directory.receipts =
      (Scheduler.settled next service.directory.receipts).2 := congrArg Prod.snd hsettled
  refine ⟨⟨hconfig.trans h.tallied.config_eq, hintact'.archive, hexact'.receipts,
    hexact'.receiptBytes⟩, { hexact' with }, hintact',
    hstate, fun id job hjob => ?_, ?_, ?_⟩
  · change core'.jobs.get? id = some job at hjob
    rw [hcore, settled_jobs, get?_filter, Option.filter_eq_some_iff] at hjob
    simpa using hjob.2
  · change core'.archivedReceipts = service'.directory.receipts.entries.length
    rw [hcore, hreceipts]
    rfl
  · change core'.archivedBytes = receiptsBytes service'.directory.receipts
    rw [hcore, hreceipts]
    rfl

end Files

theorem initial_snapshot : Snapshot sha config .empty (.initial sha config) :=
  have hnone {id : Text} {job : Job}
      (hjob : (Core.initial sha config).jobs.get? id = some job) : False := by cases hjob
  ⟨⟨fun _ _ hjob => (hnone hjob).elim,
    ⟨Nat.one_lt_two_pow (by decide), fun _ _ hjob => (hnone hjob).elim⟩,
    fun hjob _ => (hnone hjob).elim⟩,
    rfl, rfl, Nat.zero_le _, Nat.zero_le _, fun _ => rfl⟩

/-- The drained receipts as a start counts them. -/
theorem countDrained_eq (hsnapshot : Snapshot sha config directory.receipts core) {drained : Nat}
    (h : countDrained core directory directory.receipts.entries.length
      (receiptsBytes directory.receipts) = .ok drained) :
    drained = directory.receipts.count fun job => job.state.isDrained := by
  unfold countDrained at h
  split_ifs at h with hdiffers
  · simp only [check_bind_eq_ok] at h
    cases h.2
    rfl
  · cases h
    rw [not_or, not_not] at hdiffers
    exact hsnapshot.drained hdiffers.1.symm

/-- What a start on intact files has before its save. -/
theorem reopen_intact (hintact : Intact sha config directory)
    (h : reopen sha config directory = .ok (service, next)) :
    service.directory = directory ∧ next = (recover config sha service.core).2 ∧
      Savable sha config service next := by
  obtain ⟨-, hconfig, rfl, -, hreceipts, hbytes, hcore, hrecover, hcounted⟩ := reopen_eq_ok h
  have hsnapshot : Snapshot sha config service.directory.receipts service.core := by
    obtain hstate | ⟨hstate, hinitial⟩ := openCore_eq_ok hcore
    · exact hintact.snapshot _ hstate
    · rw [hintact.first hstate, hinitial]
      exact initial_snapshot
  have hdrained := countDrained_eq hsnapshot hcounted
  have hnext := accepted_eq_ok hrecover
  refine ⟨rfl, hnext, ⟨hconfig, hintact.archive, hreceipts, hbytes⟩, ⟨hreceipts, hbytes, hdrained⟩,
    hintact, hsnapshot, ?_, ?_⟩
  · rw [hnext, recover_header]
  · rw [hnext]
    exact hsnapshot.matched.steps_closed recover_steps hintact.archive

/-- The scan of an archive within its limits goes through. -/
theorem scan_ok (hvalid : config.validate = .ok ()) (harchive : Archive config directory.receipts)
    (hwithin : Within config directory.receipts) :
    scan directory =
      .ok (directory.receipts.entries.length, receiptsBytes directory.receipts) := by
  have hlimit := Config.receipts_le hvalid
  have hcount := hwithin.count
  have hbytes := hwithin.bytes_le
  refine scan_eq_ok.2 ⟨fun e he => ?_, ?_, rfl⟩
  · have hget : directory.receipts.get? e.1 = some e.2 := get?_eq_some.2 he
    have hid := receiptId_of_checked (harchive.bounds hget).checked
    rw [harchive.keyed hget] at hid
    exact ⟨hid, hwithin.each hget⟩
  · simp only [maxReceiptBytes] at hbytes
    omega

/-- The drained receipts are counted without a refusal. -/
theorem countDrained_ok (harchive : Archive config directory.receipts) (receipts bytes : Nat) :
    ∃ drained, countDrained core directory receipts bytes = .ok drained := by
  unfold countDrained
  split_ifs
  · refine ⟨_, check_bind_eq_ok.2 ⟨forM_eq_ok.2 fun job hjob => ?_, rfl⟩⟩
    obtain ⟨id, hget⟩ := mem_values.1 hjob
    simp [harchive.terminal hget]
  · exact ⟨_, rfl⟩

/-- No job of a state that agrees with the archive conflicts with its receipt. -/
theorem Tallied.agrees_receipt (htallied : Tallied config service)
    (hvalid : config.validate = .ok ())
    (hmatched : Matched config service.directory.receipts core) (e : Text × Job)
    (he : e ∈ core.jobs.entries) :
    (do
      match ← service.receipt e.1 with
      | some receipt => refuseIf (decide (e.2 ≠ receipt)) archiveConflict
      | none => pure () : Result Unit) = .ok () := by
  have hjob : core.jobs.get? e.1 = some e.2 := get?_eq_some.2 he
  have hid := receiptId_of_checked (hmatched.bounded.jobs e.1 e.2 hjob).checked
  rw [hmatched.keyed e.1 e.2 hjob] at hid
  rw [htallied.receipt_eq hvalid hid, ok_bind]
  cases hget : service.directory.receipts.get? e.1 with
  | none => rfl
  | some receipt => simp [hmatched.agrees hjob hget]

/-- A start on intact files gets to its save, if it can read the snapshot. -/
theorem reopen_ok (hvalid : config.validate = .ok ()) (hintact : Intact sha config directory)
    (hwithin : Within config directory.receipts) (hstate : directory.state = some core)
    (hsize : core.json.utf8Length + 1 ≤ maxSnapshotBytes) :
    ∃ service, reopen sha config directory =
      .ok (service, (recover config sha core).2) ∧ service.core = core := by
  have hsnapshot := hintact.snapshot core hstate
  have hcore : openCore sha config directory = .ok core := by
    simp only [openCore, hstate]
    rw [if_neg]
    exact not_lt.2 hsize
  have hscan := scan_ok hvalid hintact.archive hwithin
  obtain ⟨drained, hdrained⟩ : ∃ drained, countDrained core directory
      directory.receipts.entries.length (receiptsBytes directory.receipts) = .ok drained :=
    countDrained_ok hintact.archive _ _
  have hevidence : (decide (directory.receipts.entries.length < core.archivedReceipts) ||
      decide (receiptsBytes directory.receipts < core.archivedBytes)) = false := by
    simp only [Bool.or_eq_false_iff, decide_eq_false_iff_not, not_lt]
    exact ⟨hsnapshot.count_le, hsnapshot.bytes_le⟩
  let service : Service :=
    { config := config
      core := core
      directory := directory
      poisoned := false
      receipts := directory.receipts.entries.length
      receiptBytes := receiptsBytes directory.receipts
      drainedReceipts := drained }
  have htallied : Tallied config service := ⟨rfl, hintact.archive, rfl, rfl⟩
  have hconflict := htallied.agrees_receipt hvalid hsnapshot.matched
  have hrecover : accepted (recover config sha core) = .ok (recover config sha core).2 := by
    rw [recover_eq hsnapshot.version hsnapshot.digest]
    rfl
  refine ⟨service, ?_, rfl⟩
  refine check_bind_eq_ok.2 ⟨hvalid, bind_eq_ok.2 ⟨core, hcore, bind_eq_ok.2 ⟨_, hscan, ?_⟩⟩⟩
  refine check_bind_eq_ok.2 ⟨by rw [hevidence]; rfl, bind_eq_ok.2 ⟨drained, hdrained, ?_⟩⟩
  exact check_bind_eq_ok.2 ⟨forM_eq_ok.2 hconflict, bind_eq_ok.2 ⟨_, hrecover, rfl⟩⟩

variable {euid uid now reached : Nat} {command : Command}

section Histories
variable {system : System} {event : Event}

/-- A system with intact files. -/
def System.Sound (sha : Wire.Digest) (config : Config) : System → Prop
  | running service => config.validate = .ok () ∧ Intact sha config service.directory ∧
      (service.poisoned = false → Serving sha config service)
  | stopped directory => Intact sha config directory

theorem System.Sound.intact (h : system.Sound sha config) : Intact sha config system.directory := by
  cases system with
  | running service => exact h.2.1
  | stopped directory => exact h

section
variable (hintact : Intact sha config directory)
include hintact

theorem reopen_saveDirectories_intact
    (h : reopen sha config directory = .ok (service, next)) {directory' : Directory}
    (hmem : directory' ∈ service.saveDirectories next) : Intact sha config directory' := by
  exact (reopen_intact hintact h).2.2.saveDirectories hmem

theorem openSystem_sound : (openSystem sha config directory).2.Sound sha config := by
  unfold openSystem
  split
  · exact hintact
  next service next hreopen =>
    obtain ⟨hvalid, -⟩ := reopen_eq_ok hreopen
    have hmem := save_directory_mem service next
    split
    next refused core' hsave =>
      rw [hsave] at hmem
      exact reopen_saveDirectories_intact hintact hreopen hmem
    next saved core' hsave =>
      have hserving := (reopen_intact hintact hreopen).2.2.serving hsave
      exact ⟨hvalid, hserving.intact, fun _ => hserving⟩

theorem openKilled_intact : Intact sha config (openKilled sha config reached directory) := by
  obtain hsame | ⟨service, next, hreopen, hmem⟩ := openKilled_cases sha config reached directory
  · rwa [hsame]
  · exact reopen_saveDirectories_intact hintact hreopen hmem

end

section
variable (hvalid : config.validate = .ok ()) (h : Serving sha config service)
  (hproposal : service.proposal euid uid command now = .ok next)
include hvalid h hproposal

/-- What a round of `serve` commits belongs to the archive of the service. -/
theorem Serving.proposal : Savable sha config service next :=
  ⟨h.tallied, h.exact, h.intact, h.snapshot, proposal_header hproposal,
    proposal_matched hvalid h.tallied h.snapshot.matched hproposal⟩

theorem commit_sound : (System.running (service.commit next).2).Sound sha config := by
  have hsavable := h.proposal hvalid hproposal
  have hmem := save_directory_mem service next
  unfold commit
  split
  · exact ⟨hvalid, h.intact, fun _ => h⟩
  · split
    next refused core' hsave =>
      rw [hsave] at hmem
      exact ⟨hvalid, hsavable.saveDirectories hmem, fun hpoisoned => by cases hpoisoned⟩
    next saved core' hsave =>
      have hserving := hsavable.serving hsave
      exact ⟨hvalid, hserving.intact, fun _ => hserving⟩

end

/-- Whatever happens, the files stay intact. -/
theorem run_sound (h : system.Sound sha config) :
    (event.run sha config euid system).2.Sound sha config := by
  cases event with
  | start => exact openSystem_sound h.intact
  | startKilled reached => exact openKilled_intact h.intact
  | request uid command now =>
    cases system with
    | stopped directory => exact h
    | running service =>
      change (System.running (service.handle euid uid command now).2).Sound sha config
      rw [handle_eq]
      split
      · exact h
      next next hproposal =>
        exact commit_sound h.1 (h.2.2 (not_poisoned_of_proposal hproposal)) hproposal
  | requestKilled uid command now reached =>
    cases system with
    | stopped directory => exact h
    | running service =>
      change Intact sha config (service.handleKilled euid uid command now reached)
      obtain hsame | ⟨next, hproposal, hmem⟩ :=
        handleKilled_cases service euid uid command now reached
      · exact hsame ▸ h.2.1
      · have hserving := h.2.2 (not_poisoned_of_proposal hproposal)
        exact (hserving.proposal h.1 hproposal).saveDirectories hmem

theorem runEvents_sound (events : List Event) (h : system.Sound sha config) :
    (runEvents sha config euid events system).Sound sha config := by
  induction events generalizing system with
  | nil => exact h
  | cons event events ih => exact ih (run_sound h)

theorem empty_sound : (System.stopped .empty).Sound sha config where
  archive := by constructor <;> exact fun hget => by cases hget
  snapshot _ hcore := by cases hcore
  first _ := rfl

end Histories

/-- A start can read the snapshot, and there is room for the receipts that it writes. -/
def Restartable (sha : Wire.Digest) (config : Config) (directory : Directory) : Prop :=
  ∀ core, directory.state = some core → core.json.utf8Length + 1 ≤ maxSnapshotBytes ∧
    Fits config (restarted sha config core directory.receipts).2

/-- A service that a start has made of a state and its archive: the rewriting of `recover`, with
every identity in one place. -/
structure Reopened (sha : Wire.Digest) (config : Config) (core : Core)
    (receipts : OrderedMap Text Job) (service : Service) : Prop where
  image : (service.core, service.directory.receipts) = restarted sha config core receipts
  saved : service.directory.state = some service.core
  kept : ∀ id, (service.core.jobs.contains id = true ∨
      service.directory.receipts.contains id = true) ↔
    (core.jobs.contains id = true ∨ receipts.contains id = true)
  once : ∀ id, ¬(service.core.jobs.contains id = true ∧
    service.directory.receipts.contains id = true)
  unique : ∀ id job, service.directory.receipts.get? id = some job → job.request.id = id
  same : ∀ id job, receipts.get? id = some job → service.directory.receipts.get? id = some job

theorem contains_iff_get? {m : OrderedMap Text Job} {id : Text} :
    m.contains id = true ↔ (m.get? id).isSome = true := Iff.rfl

/-- A settlement loses no identity and adds none. -/
theorem settled_kept (core : Core) (receipts : OrderedMap Text Job) (id : Text) :
    ((settled core receipts).1.jobs.contains id = true ∨
      (settled core receipts).2.contains id = true) ↔
      (core.jobs.contains id = true ∨ receipts.contains id = true) := by
  rw [contains_iff_get?, contains_iff_get?, contains_iff_get?, contains_iff_get?, settled_jobs,
    settled_receipts, get?_filter, get?_archived_terminal]
  cases core.jobs.get? id with
  | none => simp
  | some job => cases hterminal : job.state.isTerminal <;> simp [Option.filter, hterminal]

theorem recover_contains (sha : Wire.Digest) (core : Core) (id : Text) :
    (recover config sha core).2.jobs.contains id = core.jobs.contains id := by
  unfold recover
  split
  · rfl
  · change (((core.rewriteJobs recoverJob).jobs.get? id).isSome) = _
    rw [Core.rewriteJobs_jobs, get?_map, Option.isSome_map]
    rfl

/-- A start on intact files makes the rewriting of what they hold. -/
theorem openSystem_running (hintact : Intact sha config directory)
    (hstate : directory.state = some core)
    (h : openSystem sha config directory = (some (.ok ()), .running service)) :
    core.json.utf8Length + 1 ≤ maxSnapshotBytes ∧
      (service.core, service.directory.receipts) = restarted sha config core directory.receipts ∧
      Serving sha config service := by
  unfold openSystem at h
  split at h
  · cases h
  next opened next hreopen =>
    split at h
    · cases h
    next saved core' hsave =>
      cases h
      obtain ⟨-, -, -, -, -, -, hcore, -⟩ := reopen_eq_ok hreopen
      simp only [openCore, hstate] at hcore
      split_ifs at hcore with hsize
      cases hcore
      obtain ⟨rfl, hnext, hsavable⟩ := reopen_intact hintact hreopen
      obtain ⟨hsettled, -⟩ := save_eq_ok hsave hsavable.exact
      refine ⟨not_lt.1 hsize, ?_, hsavable.serving hsave⟩
      rw [restarted, ← hnext]
      exact hsettled

/-- A start on intact files goes through exactly when they are restartable. -/
theorem openSystem_running_iff (hvalid : config.validate = .ok ())
    (hintact : Intact sha config directory) (hwithin : Within config directory.receipts)
    (hstate : directory.state = some core) :
    (∃ service, openSystem sha config directory = (some (.ok ()), .running service)) ↔
      Restartable sha config directory := by
  constructor
  · rintro ⟨service, hopen⟩ core' hcore'
    cases hcore'.symm.trans hstate
    obtain ⟨hsize, himage, -⟩ := openSystem_running hintact hstate hopen
    refine ⟨hsize, ?_⟩
    have hlimited : (openSystem sha config directory).2.Limited config :=
      openSystem_limited hwithin
    rw [hopen] at hlimited
    rw [← himage]
    exact ⟨hlimited.within.count, hlimited.within.bytes⟩
  · intro hrestartable
    obtain ⟨hsize, hfits⟩ := hrestartable core hstate
    obtain ⟨opened, hreopen, -⟩ := reopen_ok hvalid hintact hwithin hstate hsize
    have hcounted := reopen_counted hwithin hreopen
    obtain ⟨hdirectory, -, hsavable⟩ := reopen_intact hintact hreopen
    rw [restarted, ← hdirectory] at hfits
    obtain ⟨service', core', hsave⟩ :=
      (save_ok_iff hsavable.tallied hcounted hsavable.exact hsavable.matched).2 hfits
    refine ⟨{ service' with core := core' }, ?_⟩
    unfold openSystem
    rw [hreopen]
    dsimp only
    rw [hsave]

section
variable (h : Serving sha config service)
include h

/-- What a start makes has every identity in one place. -/
theorem Serving.reopened
    (hmatched : Matched config receipts core) (harchive : Archive config receipts)
    (himage : (service.core, service.directory.receipts) = restarted sha config core receipts) :
    Reopened sha config core receipts service := by
  have hcore : service.core = (restarted sha config core receipts).1 := congrArg Prod.fst himage
  have hreceipts : service.directory.receipts = (restarted sha config core receipts).2 :=
    congrArg Prod.snd himage
  have hrecovered : Matched config receipts (recover config sha core).2 :=
    hmatched.steps_closed recover_steps harchive
  refine ⟨himage, h.saved, fun id => ?_, fun id hboth => ?_, fun id job hget => ?_,
    fun id job hget => ?_⟩
  · rw [hcore, hreceipts, restarted, settled_kept, recover_contains]
  · obtain ⟨job, hjob⟩ := contains_iff.1 hboth.1
    obtain ⟨receipt, hreceipt⟩ := contains_iff.1 hboth.2
    obtain rfl := h.snapshot.matched.agrees hjob hreceipt
    have hlive := h.live id job hjob
    rw [h.intact.archive.terminal hreceipt] at hlive
    cases hlive
  · exact h.intact.archive.keyed hget
  · rw [hreceipts, restarted, settled_receipts]
    exact hrecovered.archivable.extends id job hget

/-- The settled pair of a service between two requests is its own. -/
theorem Serving.settled_eq :
    settled service.core service.directory.receipts =
      (service.core, service.directory.receipts) := by
  have hempty : terminal service.core = [] := by
    apply eq_nil_iff_forall_not_mem.2
    intro e he
    obtain ⟨hjob, hterminal⟩ := mem_terminal_iff.1 he
    rw [h.live e.1 e.2 hjob] at hterminal
    cases hterminal
  have hjobs : (service.core.jobs.filter fun job => !job.state.isTerminal) =
      service.core.jobs := by
    apply ext_get?
    intro id
    rw [get?_filter]
    cases hjob : service.core.jobs.get? id with
    | none => rfl
    | some job => simp [Option.filter, h.live id job hjob]
  have hdrained := h.snapshot.drained h.count_eq
  simp only [settled, hempty, archived, foldl_nil, hjobs, ← h.count_eq, ← h.bytes_eq,
    ← hdrained]

section
variable (hproposal : service.proposal euid uid command now = .ok next)
include hproposal

/-- A request that is answered leaves the settled candidate. -/
theorem Serving.handle_settled (hok : (service.handle euid uid command now).1 = .ok ()) :
    ((service.handle euid uid command now).2.core,
      (service.handle euid uid command now).2.directory.receipts) =
        settled next service.directory.receipts := by
  rw [handle_eq, hproposal] at hok ⊢
  dsimp only at hok ⊢
  unfold commit at hok ⊢
  split_ifs at hok ⊢ with hsame
  · rw [hsame, h.settled_eq]
  · split at hok
    · cases hok
    next saved core' hsave =>
      exact (save_eq_ok hsave h.exact).1

/-- The files of a killed request: those before it, the candidate with a first part of its
receipts, or those after it. -/
theorem Serving.killed_cases (reached : Nat) :
    service.handleKilled euid uid command now reached = service.directory ∨
      (∃ first rest, terminal next = first ++ rest ∧
        service.handleKilled euid uid command now reached =
          ⟨some next, archived first service.directory.receipts⟩) ∨
      service.handleKilled euid uid command now reached =
        ⟨some (settled next service.directory.receipts).1,
          (settled next service.directory.receipts).2⟩ := by
  obtain hsame | ⟨next, hnext, hmem⟩ := handleKilled_cases service euid uid command now reached
  · exact .inl hsame
  · cases hnext.symm.trans hproposal
    exact saveDirectories_cases h.exact hmem

end

theorem Serving.killed_intact (hvalid : config.validate = .ok ()) (reached : Nat) :
    Intact sha config (service.handleKilled euid uid command now reached) := by
  obtain hsame | ⟨next, hproposal, hmem⟩ := handleKilled_cases service euid uid command now reached
  · exact hsame ▸ h.intact
  · exact (h.proposal hvalid hproposal).saveDirectories hmem

end

section
variable (hvalid : config.validate = .ok ()) (h : Serving sha config service)
  (hproposal : service.proposal euid uid command now = .ok next)
include hvalid h hproposal

/-- What a start makes of the files of a killed request. -/
theorem Serving.reopened_killed
    {opened : Service}
    (hopen : openSystem sha config (service.handleKilled euid uid command now reached) =
      (some (.ok ()), .running opened)) :
    Reopened sha config service.core service.directory.receipts opened ∨
      Reopened sha config (settled next service.directory.receipts).1
        (settled next service.directory.receipts).2 opened := by
  have hsavable := h.proposal hvalid hproposal
  have hsettled := h.snapshot.settled hsavable.header hsavable.matched
  have harchive : Archive config (settled next service.directory.receipts).2 :=
    hsavable.matched.archivable.archive h.intact.archive
  have hintact : Intact sha config (service.handleKilled euid uid command now reached) :=
    h.killed_intact hvalid reached
  obtain hold | ⟨first, rest, hparts, hpart⟩ | hnew := h.killed_cases hproposal reached
  · rw [hold] at hopen
    obtain ⟨-, himage, hserving⟩ := openSystem_running h.intact h.saved hopen
    exact .inl (hserving.reopened h.snapshot.matched h.intact.archive himage)
  · rw [hpart] at hopen hintact
    have hsnapshot := hintact.snapshot next rfl
    obtain ⟨-, himage, hserving⟩ := openSystem_running hintact rfl hopen
    rw [restarted_settled hsnapshot.version hsnapshot.digest hparts] at himage
    exact .inr (hserving.reopened hsettled.matched harchive himage)
  · rw [hnew] at hopen hintact
    obtain ⟨-, himage, hserving⟩ := openSystem_running hintact rfl hopen
    exact .inr (hserving.reopened hsettled.matched harchive himage)

end

/-- The files of a killed request hold a snapshot. -/
theorem Serving.killed_state (h : Serving sha config service)
    (hproposal : service.proposal euid uid command now = .ok next) (reached : Nat) :
    ∃ core, (service.handleKilled euid uid command now reached).state = some core := by
  obtain hold | ⟨first, rest, -, hpart⟩ | hnew := h.killed_cases hproposal reached
  · exact ⟨service.core, hold ▸ h.saved⟩
  · exact ⟨next, by rw [hpart]⟩
  · exact ⟨_, by rw [hnew]⟩

/-- In every history, and wherever a kill stops the save of a request, a start on the files makes
the state and the receipts before the request or after it, rewritten by `recover`, exactly when it
can read the snapshot and has room for the receipts it writes. -/
theorem crash_consistent (sha : Wire.Digest) (config : Config) (euid : Nat) (events : List Event)
    (service : Service)
    (hreach : runEvents sha config euid events (.stopped .empty) = .running service)
    (uid now : Nat) (command : Command) (next : Core)
    (hproposal : service.proposal euid uid command now = .ok next) :
    ((service.handle euid uid command now).1 = .ok () →
      ((service.handle euid uid command now).2.core,
        (service.handle euid uid command now).2.directory.receipts) =
          settled next service.directory.receipts) ∧
    ∀ reached,
      (∃ opened, openSystem sha config (service.handleKilled euid uid command now reached) =
          (some (.ok ()), .running opened) ∧
        (Reopened sha config service.core service.directory.receipts opened ∨
          Reopened sha config (settled next service.directory.receipts).1
            (settled next service.directory.receipts).2 opened)) ↔
      Restartable sha config (service.handleKilled euid uid command now reached) := by
  have hstart : (System.stopped .empty).Limited config := empty_within
  have hlimited := runEvents_limited sha euid events hstart
  have hsound : (runEvents sha config euid events (.stopped .empty)).Sound sha config :=
    runEvents_sound events empty_sound
  rw [hreach] at hsound hlimited
  obtain ⟨hvalid, -, hserving⟩ := hsound
  have h := hserving (not_poisoned_of_proposal hproposal)
  refine ⟨h.handle_settled hproposal, fun reached => ?_⟩
  have hintact : Intact sha config (service.handleKilled euid uid command now reached) :=
    h.killed_intact hvalid reached
  have hwithin : Within config (service.handleKilled euid uid command now reached).receipts :=
    handleKilled_within hlimited
  obtain ⟨core, hstate⟩ := h.killed_state hproposal reached
  rw [← openSystem_running_iff hvalid hintact hwithin hstate]
  constructor
  · rintro ⟨opened, hopen, -⟩
    exact ⟨opened, hopen⟩
  · rintro ⟨opened, hopen⟩
    exact ⟨opened, hopen, h.reopened_killed hvalid hproposal hopen⟩

/-- The small machine with its first job. -/
def smallServing : Service :=
  ((smallStarted sha256).handle 0 1000 (.enqueue "desk" (smallRequest 'a' 10)) 0).2

/-- A request that arrives when the first job has expired. -/
def lateCommand : Command := .enqueue "desk" (smallRequest 'b' 1000)

set_option maxRecDepth 20000 in
theorem late_proposal : ((smallServing.proposal 0 1000 lateCommand 20).toOption.map fun next =>
    (settled next smallServing.directory.receipts).2.entries.length) = some 1 := by
  decide +kernel

/-- The late request, whose save writes the receipt of the first job, killed anywhere. -/
theorem crash_consistent_late :
    ∃ next, smallServing.proposal 0 1000 lateCommand 20 = .ok next ∧
      (settled next smallServing.directory.receipts).2.entries.length = 1 ∧
      ∀ reached,
        (∃ opened, openSystem sha256 smallConfig
            (smallServing.handleKilled 0 1000 lateCommand 20 reached) =
              (some (.ok ()), .running opened) ∧
          (Reopened sha256 smallConfig smallServing.core smallServing.directory.receipts opened ∨
            Reopened sha256 smallConfig (settled next smallServing.directory.receipts).1
              (settled next smallServing.directory.receipts).2 opened)) ↔
        Restartable sha256 smallConfig
          (smallServing.handleKilled 0 1000 lateCommand 20 reached) := by
  have hreach : runEvents sha256 smallConfig 0 [.start, .request 1000 (.enqueue "desk"
      (smallRequest 'a' 10)) 0] (.stopped .empty) = .running smallServing := by
    rw [small_start]
    simp only [runEvents, List.foldl_cons, List.foldl_nil, Event.run, smallServing]
  have hreceipt := late_proposal
  cases hproposal : smallServing.proposal 0 1000 lateCommand 20 with
  | error reason =>
    rw [hproposal] at hreceipt
    cases hreceipt
  | ok next =>
    rw [hproposal] at hreceipt
    exact ⟨next, rfl, Option.some.inj hreceipt,
      (crash_consistent sha256 smallConfig 0 _ _ hreach 1000 20 _ next hproposal).2⟩

/-- The last of 65000 bulk requests is answered, and no start can read what it has saved. -/
theorem oversize_unreadable :
    ∃ service, runEvents sha256 bulkConfig 0 (bulkEvents 64999) (.stopped .empty) =
        .running service ∧
      (service.handle 0 1000 (bulkCommand 64999) 0).1 = .ok () ∧
      service.handleKilled 0 1000 (bulkCommand 64999) 0 2 =
        (service.handle 0 1000 (bulkCommand 64999) 0).2.directory ∧
      openSystem sha256 bulkConfig (service.handleKilled 0 1000 (bulkCommand 64999) 0 2) =
        (none, .stopped (service.handleKilled 0 1000 (bulkCommand 64999) 0 2)) := by
  obtain ⟨service, hrun, hbulk⟩ := @bulkEvents_bulk 64998 (by decide)
  obtain ⟨hok, hafter, hkilled⟩ := hbulk.handle (by decide)
  refine ⟨service, hrun, hok, hkilled, ?_⟩
  have hsize := hafter.waiting.snapshot_length
  rw [hkilled]
  apply openSystem_unreadable (by decide) hafter.saved
  unfold maxSnapshotBytes
  omega

section Permanence
variable {sha : Wire.Digest} {config : Config} {euid : Nat} {service : Service}
  {directory : Directory} {next : Core}

/-- No directory of a save lacks or changes a receipt. -/
theorem saveDirectories_grows (h : directory ∈ service.saveDirectories next) :
    service.directory.receipts.Grows directory.receipts := by
  rw [← beforeReceipts_receipts service next]
  rcases mem_append.1 h with h | h
  · rcases mem_cons.1 h with rfl | h
    · rw [beforeReceipts_receipts]
      exact .refl _
    · obtain ⟨_, _, _, -, hwrote, rfl⟩ := retireDirectories_wrote h
      exact hwrote.grows
  · rw [mem_singleton.1 h, save]
    split
    next hall =>
      obtain ⟨_, _, -, hwrote⟩ := retireAll_refused hall
      exact hwrote.grows
    next hall => exact (retireAll_wrote hall).1.grows

/-- The files after an event are those before it, or some of a save over them. -/
theorem run_directory (event : Event) (system : System) :
    (event.run sha config euid system).2.directory = system.directory ∨
      ∃ (service : Service) (next : Core), service.directory = system.directory ∧
        (event.run sha config euid system).2.directory ∈ service.saveDirectories next := by
  cases event with
  | start =>
    rw [show Event.run sha config euid .start system =
      openSystem sha config system.directory from rfl]
    unfold openSystem
    split
    · exact .inl rfl
    next service next hreopen =>
      have hmem := save_directory_mem service next
      obtain ⟨-, -, hdirectory, -⟩ := reopen_eq_ok hreopen
      refine .inr ⟨service, next, hdirectory, ?_⟩
      split <;> next hsave => rwa [hsave] at hmem
  | startKilled reached =>
    refine (openKilled_cases sha config reached system.directory).imp_right ?_
    rintro ⟨service, next, hreopen, hmem⟩
    obtain ⟨-, -, hdirectory, -⟩ := reopen_eq_ok hreopen
    exact ⟨service, next, hdirectory, hmem⟩
  | request uid command now =>
    cases system with
    | stopped directory => exact .inl rfl
    | running service =>
      simp only [Event.run, System.directory, handle_eq]
      split
      · exact .inl rfl
      next next hproposal =>
        have hmem := save_directory_mem service next
        unfold commit
        split_ifs
        · exact .inl rfl
        · refine .inr ⟨service, next, rfl, ?_⟩
          split <;> next hsave => rwa [hsave] at hmem
  | requestKilled uid command now reached =>
    cases system with
    | stopped directory => exact .inl rfl
    | running service =>
      refine (handleKilled_cases service euid uid command now reached).imp_right ?_
      rintro ⟨next, -, hmem⟩
      exact ⟨service, next, rfl, hmem⟩

/-- Whatever is requested, refused or killed half way, and however often the service starts again,
a receipt that was published stays as it is. -/
theorem receipts_permanent (sha : Wire.Digest) (config : Config) (euid : Nat) (events : List Event)
    (system : System) : system.directory.receipts.Grows
      (runEvents sha config euid events system).directory.receipts := by
  induction events generalizing system with
  | nil => exact .refl _
  | cons event events ih =>
    refine Grows.trans ?_ (ih _)
    obtain hsame | ⟨service, next, hdirectory, hmem⟩ := run_directory event system
    · exact hsame ▸ .refl _
    · exact hdirectory ▸ saveDirectories_grows hmem

end Permanence

end MiniDregg.Scheduler
