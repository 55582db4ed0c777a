import MiniDregg.Scheduler.Archive

/-!
# Histories of the service

What a request or a start commits agrees with the archive: no identity that is
there or archived enters a second time, and a terminal job stays what it is. The
receipts stay within their limits in every history of starts, requests and
kills.
-/

namespace MiniDregg.Scheduler

open Fallible Store OrderedMap List Service Nat Wire

variable {powers : Powers} {core : Core} {id : Text} {job : Job}

section Identities
variable {config : Config} {core' : Core} {job' : Job}

/-- An identity after a step was there before it, or a job with it entered. -/
theorem Step.present (h : Step config powers core core') (hjob' : core'.jobs.get? id = some job') :
    (∃ job, core.jobs.get? id = some job) ∨ ∃ job, powers.enters job ∧ job.request.id = id := by
  cases h with
  | rewrite _ h =>
    obtain ⟨-, hnone⟩ | ⟨old, -, hold, -⟩ := h id
    · cases hnone.symm.trans hjob'
    · exact .inl ⟨old, hold⟩
  | number _ _ h => exact .inl ⟨job', h ▸ hjob'⟩
  | enter _ h _ _ _ power | load _ h _ _ power =>
    rw [h, get?_insert] at hjob'
    split_ifs at hjob' with heq
    · exact .inr ⟨_, power, heq.symm⟩
    · exact .inl ⟨job', hjob'⟩
  | place _ _ _ h =>
    rw [h, get?_modify] at hjob'
    split_ifs at hjob'
    · obtain ⟨old, hold, -⟩ := Option.map_eq_some_iff.1 hjob'
      exact .inl ⟨old, hold⟩
    · exact .inl ⟨job', hjob'⟩
  | archive _ h =>
    rw [h, get?_erase] at hjob'
    split_ifs at hjob'
    exact .inl ⟨job', hjob'⟩

theorem Steps.present (h : Steps config powers core core')
    (hjob' : core'.jobs.get? id = some job') :
    (∃ job, core.jobs.get? id = some job) ∨ ∃ job, powers.enters job ∧ job.request.id = id := by
  induction h generalizing job' with
  | refl => exact .inl ⟨job', hjob'⟩
  | tail _ hstep ih =>
    obtain ⟨job, hjob⟩ | hentered := hstep.present hjob'
    · exact ih hjob
    · exact .inr hentered

/-- An identity that may not leave stays, and a terminal job stays what it is. -/
theorem Step.keeps (h : Step config powers core core') (hleaves : ¬powers.leaves id)
    (hjob : core.jobs.get? id = some job) :
    ∃ job', core'.jobs.get? id = some job' ∧ (job.state.isTerminal = true → job' = job) := by
  have hfresh {new : Job} (hnew : core.jobs.get? new.request.id = none) : id ≠ new.request.id := by
    rintro rfl
    cases hnew.symm.trans hjob
  cases h with
  | rewrite _ h =>
    obtain ⟨hnone, -⟩ | ⟨old, new, hold, hnew, hmove⟩ := h id
    · cases hnone.symm.trans hjob
    · cases hold.symm.trans hjob
      exact ⟨new, hnew, hmove.terminal⟩
  | number _ _ h => exact ⟨job, h ▸ hjob, fun _ => rfl⟩
  | enter _ h fresh | load _ h fresh =>
    refine ⟨job, ?_, fun _ => rfl⟩
    rw [h, get?_insert_ne (hfresh fresh), hjob]
  | @place chosen placed _ _ s _ _ _ h hchosen queued =>
    by_cases heq : id = chosen
    · subst heq
      cases hchosen.symm.trans hjob
      refine ⟨job.withState (s job), ?_, fun hterminal => ?_⟩
      · rw [h, get?_modify, if_pos rfl, hjob]
        rfl
      · rw [queued] at hterminal
        cases hterminal
    · exact ⟨job, by rw [h, get?_modify, if_neg heq, hjob], fun _ => rfl⟩
  | archive _ h _ _ power =>
    refine ⟨job, ?_, fun _ => rfl⟩
    rw [h, get?_erase, if_neg, hjob]
    rintro rfl
    exact hleaves power

theorem Steps.keeps (h : Steps config powers core core') (hleaves : ¬powers.leaves id)
    (hjob : core.jobs.get? id = some job) :
    ∃ job', core'.jobs.get? id = some job' ∧ (job.state.isTerminal = true → job' = job) := by
  refine h.preserves (P := fun after => ∃ job', after.jobs.get? id = some job' ∧
    (job.state.isTerminal = true → job' = job)) (fun _ _ hstep hmid => ?_) ⟨job, hjob, fun _ => rfl⟩
  obtain ⟨mid, hmid, hsame⟩ := hmid
  obtain ⟨job', hjob', hsame'⟩ := hstep.keeps hleaves hmid
  refine ⟨job', hjob', fun hterminal => ?_⟩
  obtain rfl := hsame hterminal
  exact hsame' hterminal

end Identities

variable {next : Core}

section Matched
variable {config : Config} {receipts : OrderedMap Text Job}

/-- What steps keep of the relation to the archive. -/
theorem Matched.steps (h : Matched config receipts core) (hsteps : Steps config powers core next)
    (harchive : Archive config receipts) (hleaves : ∀ id, ¬powers.leaves id)
    (henters : ∀ job, powers.enters job → job.state = .queued ∧
      (core.jobs.get? job.request.id = none → receipts.get? job.request.id = none)) :
    Matched config receipts next where
  keyed := hsteps.keyed h.keyed
  bounded := by
    refine hsteps.bounded h.bounded fun job hentered hterminal => ?_
    rw [(henters job hentered).1] at hterminal
    cases hterminal
  agrees := by
    intro id job receipt hjob hreceipt
    have hold : ∃ old, core.jobs.get? id = some old := by
      obtain hold | ⟨new, hentered, rfl⟩ := hsteps.present hjob
      · exact hold
      · by_contra hnone
        have hfresh := (henters new hentered).2
          (Option.eq_none_iff_forall_ne_some.2 fun old hold => hnone ⟨old, hold⟩)
        cases hfresh.symm.trans hreceipt
    obtain ⟨old, hold⟩ := hold
    obtain rfl := h.agrees hold hreceipt
    obtain ⟨job', hjob', hsame⟩ := hsteps.keeps (hleaves id) hold
    cases hjob'.symm.trans hjob
    exact hsame (harchive.terminal hreceipt)

theorem Matched.steps_closed (h : Matched config receipts core)
    (hsteps : Steps config .closed core next) (harchive : Archive config receipts) :
    Matched config receipts next :=
  h.steps hsteps harchive (fun _ hleaves => hleaves) fun _ hentered => hentered.elim

end Matched

variable {service : Service} {command : Command} {uid now : Nat}

section Requests
variable {config : Config} {euid : Nat}

theorem accepted_eq_ok {effect : Effect} (h : accepted effect = .ok core) : core = effect.2 := by
  obtain ⟨result, after⟩ := effect
  cases result with
  | error e => cases h
  | ok u =>
    cases h
    rfl

theorem accepted_schedule (hk : Keyed core) (h : accepted (schedule config now core) = .ok next)
    (powers : Powers) : Steps config powers core next := by
  obtain rfl := accepted_eq_ok h
  exact schedule_steps hk

/-- An operator page lets nothing in. -/
theorem operatorCandidate_steps {draining : Option Bool} {resolve : Option Text} {limit : Nat}
    (hk : Keyed service.core)
    (h : service.operatorCandidate euid uid draining resolve limit now = .ok next) :
    Steps service.config .closed service.core next := by
  simp only [operatorCandidate, check_bind_eq_ok] at h
  obtain ⟨-, -, -, h⟩ := h
  obtain ⟨resolved, hresolved, hschedule⟩ := bind_eq_ok.1 h
  have hdrained : Steps service.config .closed service.core
      (drainOption draining service.core) := by
    cases draining with
    | none => exact .refl
    | some enabled => exact setDraining_steps
  have hsteps : Steps service.config .closed service.core resolved := by
    cases resolve with
    | none =>
      cases hresolved
      exact hdrained
    | some id =>
      obtain rfl := accepted_eq_ok hresolved
      exact hdrained.trans (resolve_steps fun _ _ => trivial)
  exact hsteps.trans (accepted_schedule (hsteps.keyed hk) hschedule _)

/-- What an enqueue lets in: its own request. -/
def enqueuePowers (command : Command) : Powers where
  completes _ _ _ := True
  sends _ _ := True
  enters job := job.state = .queued ∧ ∃ controller, command = .enqueue controller job.request
  leaves _ := False

theorem perform_steps (hk : Keyed core) (h : service.perform now core command = .ok next) :
    Steps service.config (enqueuePowers command) core next := by
  cases command with
  | enqueue controller request =>
    simp only [perform, check_bind_eq_ok] at h
    rw [accepted_eq_ok h.2]
    exact enqueue_steps hk fun job hrequest hqueued => ⟨hqueued, controller, by rw [hrequest]⟩
  | inspect =>
    cases h
    exact .refl
  | dispatch =>
    rw [accepted_eq_ok h]
    exact dispatch_steps trivial
  | finish =>
    rw [accepted_eq_ok h]
    exact finish_steps trivial
  | cancel =>
    rw [accepted_eq_ok h]
    exact cancel_steps
  | status | statusGroups | drain | resolve => cases h

section
variable (hconfig : config.validate = .ok ()) (h : Tallied config service)
include hconfig h

/-- A load leaves the state, or reads the receipt of an absent identity back into it. -/
theorem load_eq_ok (hload : service.load id core = .ok next) :
    (next = core ∧ (core.jobs.get? id = none → service.directory.receipts.get? id = none)) ∨
      (core.jobs.get? id = none ∧ ∃ receipt, service.directory.receipts.get? id = some receipt ∧
        next = { core with jobs := core.jobs.insert id receipt }) := by
  unfold load at hload
  split at hload
  next hcontains =>
    cases hload
    obtain ⟨job, hjob⟩ := contains_iff.1 hcontains
    exact .inl ⟨rfl, fun hnone => absurd (hnone.symm.trans hjob) (by simp)⟩
  next hcontains =>
    have habsent : core.jobs.get? id = none := by simpa [OrderedMap.contains] using hcontains
    obtain ⟨found, hreceipt, hload⟩ := bind_eq_ok.1 hload
    have hid : receiptId id = true := by
      cases hid : receiptId id with
      | true => rfl
      | false => simp [receipt, hid] at hreceipt
    rw [h.receipt_eq hconfig hid, Except.ok.injEq] at hreceipt
    cases found with
    | none =>
      cases hload
      exact .inl ⟨rfl, fun _ => hreceipt⟩
    | some receipt =>
      cases hload
      exact .inr ⟨habsent, receipt, hreceipt, rfl⟩

/-- After a load an absent identity has no receipt. -/
theorem load_absent (hload : service.load id core = .ok next) (hnone : next.jobs.get? id = none) :
    core.jobs.get? id = none ∧ service.directory.receipts.get? id = none := by
  obtain ⟨rfl, hreceipt⟩ | ⟨-, receipt, -, rfl⟩ := load_eq_ok hconfig h hload
  · exact ⟨hnone, hreceipt hnone⟩
  · simp at hnone

/-- Reading back a receipt keeps the relation to the archive. -/
theorem load_matched (hmatched : Matched config service.directory.receipts core)
    (hload : service.load id core = .ok next) : Matched config service.directory.receipts next := by
  obtain ⟨rfl, -⟩ | ⟨-, receipt, hreceipt, rfl⟩ := load_eq_ok hconfig h hload
  · exact hmatched
  · refine ⟨fun id' job hjob => ?_, ⟨hmatched.bounded.next, fun id' job hjob => ?_⟩,
      fun {id' job saved} hjob hsaved => ?_⟩ <;>
      obtain ⟨rfl, rfl⟩ | hold := of_get?_insert hjob
    · exact h.archive.keyed hreceipt
    · exact hmatched.keyed id' job hold
    · exact h.archive.bounds hreceipt
    · exact hmatched.bounded.jobs id' job hold
    · exact Option.some.inj (hreceipt.symm.trans hsaved)
    · exact hmatched.agrees hold hsaved

end

end Requests

section Room
variable {config : Config} {euid : Nat}

variable {reply : Job}

/-- The stages of a candidate. -/
theorem candidate_eq_ok (h : service.candidate uid command now = .ok (next, reply)) :
    ∃ controller id scheduled loaded performed, command.addressed = some (controller, id) ∧
      accepted (schedule service.config now service.core) = .ok scheduled ∧
      service.load id scheduled = .ok loaded ∧ service.perform now loaded command = .ok performed ∧
      accepted (schedule service.config now performed) = .ok next := by
  simp only [candidate, check_bind_eq_ok] at h
  obtain ⟨-, h⟩ := h
  split at h
  · cases h
  rename_i controller id haddressed
  split at h
  · cases h
  simp only [check_bind_eq_ok] at h
  obtain ⟨-, h⟩ := h
  obtain ⟨scheduled, hscheduled, h⟩ := bind_eq_ok.1 h
  obtain ⟨loaded, hload, h⟩ := bind_eq_ok.1 h
  obtain ⟨performed, hperform, h⟩ := bind_eq_ok.1 h
  obtain ⟨final, hfinal, h⟩ := bind_eq_ok.1 h
  obtain ⟨_, -, h⟩ := bind_eq_ok.1 h
  cases h
  exact ⟨controller, id, scheduled, loaded, performed, haddressed, hscheduled, hload, hperform,
    hfinal⟩

/-- The candidate of a request in steps: a schedule, a load of the addressed identity, and what
the request does to it. -/
theorem candidate_steps (hconfig : config.validate = .ok ()) (h : Tallied config service)
    (hmatched : Matched config service.directory.receipts service.core)
    (hcandidate : service.candidate uid command now = .ok (next, reply)) :
    ∃ controller id scheduled loaded, command.addressed = some (controller, id) ∧
      Steps config .closed service.core scheduled ∧ service.load id scheduled = .ok loaded ∧
      Matched config service.directory.receipts loaded ∧
      Steps config (enqueuePowers command) loaded next := by
  obtain ⟨controller, id, scheduled, loaded, performed, haddressed, hscheduled, hload, hperform,
    hfinal⟩ := candidate_eq_ok hcandidate
  rw [h.config_eq] at hscheduled hfinal
  have hscheduled : Steps config .closed service.core scheduled :=
    accepted_schedule hmatched.keyed hscheduled _
  have hloaded := load_matched hconfig h (hmatched.steps_closed hscheduled h.archive) hload
  have hperformed : Steps config (enqueuePowers command) loaded performed :=
    h.config_eq ▸ perform_steps hloaded.keyed hperform
  exact ⟨controller, id, scheduled, loaded, haddressed, hscheduled, hload, hloaded,
    hperformed.trans (accepted_schedule (hperformed.keyed hloaded.keyed) hfinal _)⟩

/-- Only the addressed identity may enter. -/
theorem enters_addressed {controller : Text}
    (haddressed : command.addressed = some (controller, id))
    (hentered : (enqueuePowers command).enters job) : job.request.id = id := by
  obtain ⟨-, _, rfl⟩ := hentered
  cases haddressed
  rfl

section
variable (hconfig : config.validate = .ok ())
include hconfig

/-- The candidate of a request agrees with the archive. -/
theorem candidate_matched (h : Tallied config service)
    (hmatched : Matched config service.directory.receipts service.core)
    (hcandidate : service.candidate uid command now = .ok (next, reply)) :
    Matched config service.directory.receipts next := by
  obtain ⟨controller, id, scheduled, loaded, haddressed, -, hload, hloaded, hsteps⟩ :=
    candidate_steps hconfig h hmatched hcandidate
  refine hloaded.steps hsteps h.archive (fun _ hleaves => hleaves) fun job hentered => ?_
  obtain rfl := enters_addressed haddressed hentered
  exact ⟨hentered.1, fun hnone => (load_absent hconfig h hload hnone).2⟩

omit hconfig in
/-- A round of `serve` commits an operator page or the candidate of a request. -/
theorem proposal_eq_ok (h : service.proposal euid uid command now = .ok next) :
    (∃ draining resolve limit,
      service.operatorCandidate euid uid draining resolve limit now = .ok next) ∨
      ∃ reply, service.candidate uid command now = .ok (next, reply) := by
  unfold proposal at h
  split at h
  · exact .inl ⟨_, _, _, h⟩
  · cases hcandidate : service.candidate uid command now with
    | error e =>
      rw [hcandidate] at h
      cases h
    | ok found =>
      rw [hcandidate] at h
      cases h
      exact .inr ⟨found.2, rfl⟩

/-- What a round of `serve` commits agrees with the archive. -/
theorem proposal_matched (h : Tallied config service)
    (hmatched : Matched config service.directory.receipts service.core)
    (hproposal : service.proposal euid uid command now = .ok next) :
    Matched config service.directory.receipts next := by
  obtain ⟨draining, resolve, limit, hpage⟩ | ⟨reply, hcandidate⟩ := proposal_eq_ok hproposal
  · have hsteps := operatorCandidate_steps hmatched.keyed hpage
    rw [h.config_eq] at hsteps
    exact hmatched.steps_closed hsteps h.archive
  · exact candidate_matched hconfig h hmatched hcandidate

end

end Room

variable {directory : Directory}

section Start
variable {sha : Wire.Digest} {config : Config}

theorem foldlM_scanRound {l : List (Text × Job)} {start counted : Nat × Nat}
    (hstart : start.2 < 2 ^ 64) :
    l.foldlM scanRound start = .ok counted ↔
      (∀ e ∈ l, receiptId e.1 = true ∧ e.2.bytes ≤ maxReceiptBytes) ∧
        start.2 + ((l.map Prod.snd).map Job.bytes).sum < 2 ^ 64 ∧
        counted = (start.1 + l.length, start.2 + ((l.map Prod.snd).map Job.bytes).sum) := by
  induction l generalizing start with
  | nil => exact ⟨fun h => ⟨nofun, hstart, (Except.ok.inj h).symm⟩, fun h => congrArg _ h.2.2.symm⟩
  | cons e l ih =>
    rw [foldlM_cons, bind_eq_ok]
    simp only [scanRound, check_bind_eq_ok, refuseIf_eq_ok, pure_inj, Bool.not_eq_false',
      decide_eq_false_iff_not, not_lt, not_le, forall_mem_cons, map_cons, sum_cons, length_cons,
      ← Nat.add_assoc]
    have hrest := @ih (start.1 + 1, start.2 + e.2.bytes)
    simp only [Nat.add_right_comm start.1 1] at hrest
    constructor
    · rintro ⟨_, hround, h⟩
      obtain rfl := hround.2.2.2
      obtain ⟨heach, htotal⟩ := (hrest hround.2.2.1).1 h
      exact ⟨⟨⟨hround.1, hround.2.1⟩, heach⟩, htotal⟩
    · rintro ⟨⟨hfirst, heach⟩, htotal⟩
      have hsum : start.2 + e.2.bytes < 2 ^ 64 := lt_of_le_of_lt (Nat.le_add_right _ _) htotal.1
      exact ⟨_, ⟨hfirst.1, hfirst.2, hsum, rfl⟩, (hrest hsum).2 ⟨heach, htotal⟩⟩

/-- The scan of the archive counts its receipts and their bytes. -/
theorem scan_eq_ok {counted : Nat × Nat} :
    scan directory = .ok counted ↔
      (∀ e ∈ directory.receipts.entries, receiptId e.1 = true ∧ e.2.bytes ≤ maxReceiptBytes) ∧
        receiptsBytes directory.receipts < 2 ^ 64 ∧
        counted = (directory.receipts.entries.length, receiptsBytes directory.receipts) := by
  have hfold := @foldlM_scanRound directory.receipts.entries (0, 0) counted (by decide)
  simp only [Nat.zero_add] at hfold
  exact hfold

/-- The stages of a start. -/
theorem reopen_eq_ok (h : reopen sha config directory = .ok (service, next)) :
    config.validate = .ok () ∧ service.config = config ∧ service.directory = directory ∧
      service.poisoned = false ∧ service.receipts = directory.receipts.entries.length ∧
      service.receiptBytes = receiptsBytes directory.receipts ∧
      openCore sha config directory = .ok service.core ∧
      accepted (recover config sha service.core) = .ok next ∧
      countDrained service.core directory directory.receipts.entries.length
        (receiptsBytes directory.receipts) = .ok service.drainedReceipts := by
  simp only [reopen, check_bind_eq_ok] at h
  obtain ⟨hconfig, h⟩ := h
  obtain ⟨core, hcore, h⟩ := bind_eq_ok.1 h
  obtain ⟨counted, hscan, h⟩ := bind_eq_ok.1 h
  simp only [check_bind_eq_ok] at h
  obtain ⟨-, h⟩ := h
  obtain ⟨drained, hdrained, h⟩ := bind_eq_ok.1 h
  simp only [check_bind_eq_ok] at h
  obtain ⟨-, h⟩ := h
  obtain ⟨recovered, hrecover, h⟩ := bind_eq_ok.1 h
  cases h
  obtain ⟨-, -, rfl⟩ := scan_eq_ok.1 hscan
  exact ⟨hconfig, rfl, rfl, rfl, rfl, rfl, hcore, hrecover, hdrained⟩

/-- The state that a start reads is the snapshot, or the first state without one. -/
theorem openCore_eq_ok (h : openCore sha config directory = .ok core) :
    directory.state = some core ∨ directory.state = none ∧ core = .initial sha config := by
  unfold openCore at h
  split at h
  next hstate =>
    split_ifs at h
    cases h
    exact .inl hstate
  next hstate =>
    exact .inr ⟨hstate, (new_eq_ok.1 h).2⟩

end Start

section Limits
variable {sha : Wire.Digest} {config : Config} {service' : Service} {state : Core} {euid : Nat}

theorem Counted.commit (h : Counted config service) (next : Core) :
    Counted config (service.commit next).2 := by
  have hsave := h.save next
  unfold Service.commit
  split
  · exact h
  · split
    next heq =>
      rw [heq] at hsave
      exact { hsave with }
    next heq =>
      rw [heq] at hsave
      exact { hsave with }

theorem reopen_counted (hwithin : Within config directory.receipts)
    (h : reopen sha config directory = .ok (service, next)) : Counted config service := by
  obtain ⟨hvalid, hconfig, hdirectory, -, hreceipts, hbytes, -⟩ := reopen_eq_ok h
  subst hdirectory
  exact ⟨hvalid, hconfig, hwithin, hreceipts, hbytes⟩

end Limits

variable {event : Event}

section History
variable (sha : Wire.Digest) (config : Config) (euid : Nat)

/-- The system after a history. -/
def runEvents (events : List Event) (system : System) : System :=
  events.foldl (fun system event => (event.run sha config euid system).2) system

/-- The archive of a system is within its limits. -/
def System.Limited : System → Prop
  | running service => Counted config service
  | stopped directory => Within config directory.receipts

variable {sha config euid} {system : System} {events : List Event}

theorem getD_getElem?_mem {α : Type} (l : List α) (n : Nat) (a : α) :
    l[n]?.getD a = a ∨ l[n]?.getD a ∈ l := by
  cases hget : l[n]? with
  | none => exact .inl rfl
  | some b => exact .inr (mem_of_getElem? hget)

theorem System.Limited.within (h : system.Limited config) :
    Within config system.directory.receipts := by
  cases system with
  | running service => exact h.within
  | stopped directory => exact h

variable {reached : Nat}

theorem openSystem_limited (h : Within config directory.receipts) :
    (openSystem sha config directory).2.Limited config := by
  unfold openSystem
  split
  · exact h
  next service next hreopen =>
    have hsave := (reopen_counted h hreopen).save next
    split
    next heq =>
      rw [heq] at hsave
      exact hsave.within
    next heq =>
      rw [heq] at hsave
      exact { hsave with }

/-- The files when a start is killed are those before it or those of its save. -/
theorem openKilled_cases (sha : Wire.Digest) (config : Config) (reached : Nat)
    (directory : Directory) :
    openKilled sha config reached directory = directory ∨
      ∃ service next, reopen sha config directory = .ok (service, next) ∧
        openKilled sha config reached directory ∈ service.saveDirectories next := by
  unfold openKilled
  split
  · exact .inl rfl
  next service next hreopen =>
    exact (getD_getElem?_mem ..).imp_right fun hmem => ⟨service, next, hreopen, hmem⟩

/-- The files when a request is killed are those before it or those of its save. -/
theorem handleKilled_cases (service : Service) (euid uid : Nat) (command : Command)
    (now reached : Nat) :
    service.handleKilled euid uid command now reached = service.directory ∨
      ∃ next, service.proposal euid uid command now = .ok next ∧
        service.handleKilled euid uid command now reached ∈ service.saveDirectories next := by
  unfold handleKilled
  split
  · exact .inl rfl
  next next hproposal =>
    split
    · exact .inl rfl
    · exact (getD_getElem?_mem ..).imp_right fun hmem => ⟨next, hproposal, hmem⟩

theorem openKilled_within (h : Within config directory.receipts) :
    Within config (openKilled sha config reached directory).receipts := by
  obtain hsame | ⟨service, next, hreopen, hmem⟩ := openKilled_cases sha config reached directory
  · rwa [hsame]
  · exact (reopen_counted h hreopen).saveDirectories hmem

theorem handleKilled_within (h : Counted config service) :
    Within config (service.handleKilled euid uid command now reached).receipts := by
  obtain hsame | ⟨next, -, hmem⟩ := handleKilled_cases service euid uid command now reached
  · exact hsame ▸ h.within
  · exact h.saveDirectories hmem

/-- Whatever happens, the archive stays within its limits. -/
theorem run_limited (h : system.Limited config) :
    (event.run sha config euid system).2.Limited config := by
  cases event with
  | start => exact openSystem_limited h.within
  | startKilled reached => exact openKilled_within h.within
  | request uid command now =>
    cases system with
    | stopped directory => exact h
    | running service =>
      change Counted config (service.handle euid uid command now).2
      rw [handle_eq]
      split
      · exact h
      · exact Counted.commit h _
  | requestKilled uid command now reached =>
    cases system with
    | stopped directory => exact h
    | running service => exact handleKilled_within h

theorem runEvents_limited (sha : Wire.Digest) (euid : Nat) (events : List Event)
    (h : system.Limited config) : (runEvents sha config euid events system).Limited config := by
  induction events generalizing system with
  | nil => exact h
  | cons event events ih => exact ih (run_limited h)

theorem empty_within : Within config Directory.empty.receipts where
  each hget := by cases hget
  count := zero_le _
  bytes := zero_le _

end History

theorem rewriteJobs_empty {rewrite : Job → Job × Option Nat} (h : core.jobs = .empty) :
    core.rewriteJobs rewrite = core := by
  cases core
  subst h
  rfl

/-- A service without jobs and receipts. -/
def Service.initial (sha : Wire.Digest) (config : Config) (directory : Directory) : Service where
  config := config
  core := .initial sha config
  directory := directory
  poisoned := false
  receipts := 0
  receiptBytes := 0
  drainedReceipts := 0

/-- The first start. -/
theorem openSystem_empty {sha : Wire.Digest} {config : Config} (h : config.validate = .ok ()) :
    openSystem sha config .empty = (some (.ok ()),
      .running (.initial sha config ⟨some (.initial sha config), .empty⟩)) := by
  have hjobs : (Core.initial sha config).jobs = .empty := rfl
  have hcore : openCore sha config .empty = .ok (.initial sha config) :=
    new_eq_ok.2 ⟨h, rfl⟩
  have hrecover : recover config sha (.initial sha config) = (.ok (), .initial sha config) := by
    have hsame : ¬((Core.initial sha config).version ≠ 1 ∨
        (Core.initial sha config).configDigest ≠ config.fingerprint sha) := by
      rintro (h | h) <;> exact h rfl
    rw [recover, if_neg hsame, rewriteJobs_empty hjobs]
  have hreopen : reopen sha config .empty = 
      .ok (.initial sha config .empty, .initial sha config) := by
    refine check_bind_eq_ok.2 ⟨h, bind_eq_ok.2 ⟨_, hcore, bind_eq_ok.2 ⟨(0, 0), rfl, ?_⟩⟩⟩
    refine check_bind_eq_ok.2 ⟨rfl, bind_eq_ok.2 ⟨0, rfl, check_bind_eq_ok.2 ⟨rfl, ?_⟩⟩⟩
    exact bind_eq_ok.2 ⟨_, congrArg accepted hrecover, rfl⟩
  unfold openSystem
  rw [hreopen]
  rfl

section
variable (sha : Wire.Digest)

theorem run_start (config : Config) (euid : Nat) (directory : Directory) :
    Event.run sha config euid .start (.stopped directory) = openSystem sha config directory := by
  simp only [Event.run, System.directory]

/-- The small machine after its first start. -/
def smallStarted : Service :=
  .initial sha smallConfig ⟨some (.initial sha smallConfig), .empty⟩

theorem small_start (events : List Event) :
    runEvents sha smallConfig 0 (.start :: events) (.stopped .empty) =
      runEvents sha smallConfig 0 events (.running (smallStarted sha)) := by
  have hopen := @openSystem_empty sha smallConfig (by decide)
  rw [runEvents, foldl_cons, run_start, hopen]
  rfl

end

end MiniDregg.Scheduler
