import MiniDregg.Scheduler.Settlement

/-!
# The header of a state

The version, the digest of the configuration and the counters of the archive
belong to the service: no operation of the scheduler touches them, and a save
writes the counters.
-/

namespace MiniDregg.Scheduler

open Fallible Store Service

/-- The version, the digest of the configuration and the counters of the archive. -/
def Core.header (core : Core) : Nat × Text × Nat × Nat × Nat :=
  (core.version, core.configDigest, core.archivedReceipts, core.archivedBytes,
    core.archivedDrained)

section Core
variable {config : Config} {core next : Core} {now : Nat} {id controller : Text}

theorem rewriteJobs_header (rewrite : Job → Job × Option Nat) (core : Core) :
    (core.rewriteJobs rewrite).header = core.header := by
  rw [rewriteJobs_eq]
  rfl

theorem advanceFloor_header (core : Core) : core.advanceFloor.header = core.header := by
  unfold Core.advanceFloor
  dsimp only
  split <;> rfl

theorem serial_header {lease : Nat} (h : core.serial = .ok (lease, next)) :
    next.header = core.header := by
  unfold Core.serial at h
  split_ifs at h
  cases h
  rfl

theorem place_header (choice : Choice) (core : Core) :
    (place config now choice core).2.header = core.header := by
  unfold place
  split
  · rfl
  next lease numbered hserial =>
    have hnumbered := serial_header hserial
    split
    · dsimp only
      split <;> exact hnumbered
    · exact hnumbered

theorem placements_header (fuel : Nat) (core : Core) :
    (placements config now fuel core).2.header = core.header := by
  induction fuel generalizing core with
  | zero => rfl
  | succ fuel ih =>
    have hfloor := advanceFloor_header core
    unfold placements
    dsimp only
    split
    · exact hfloor
    · exact hfloor
    next choice others hchoices =>
      have hplaced : (place config now choice core.advanceFloor).2.header =
          core.advanceFloor.header := place_header choice _
      split
      next heq =>
        rw [heq] at hplaced
        exact hplaced.trans hfloor
      next heq =>
        rw [heq] at hplaced
        exact (ih _).trans (hplaced.trans hfloor)

theorem schedule_header (core : Core) : (schedule config now core).2.header = core.header := by
  unfold schedule
  dsimp only
  split
  · exact rewriteJobs_header _ core
  · exact (placements_header _ _).trans (rewriteJobs_header _ core)

theorem enqueue_header (request : Request) (core : Core) :
    (enqueue config controller request now core).2.header = core.header := by
  unfold enqueue
  split
  · rfl
  · split
    · split <;> rfl
    · split
      · rfl
      · split
        · rfl
        next order numbered hserial =>
          have hnumbered := serial_header hserial
          exact (schedule_header _).trans ((advanceFloor_header _).trans hnumbered)

theorem dispatch_header (lease : Nat) (attempt : Text) (core : Core) :
    (dispatch controller id lease attempt now core).2.header = core.header := by
  unfold dispatch
  split
  · rfl
  · split
    · rfl
    · split
      · split <;> rfl
      · rfl

theorem complete_header (principal : Text) (estimated elapsed : Nat) (state : State) (core : Core) :
    (complete id principal estimated elapsed state core).header = core.header := by
  unfold complete
  dsimp only
  split <;> rfl

theorem finishSent_header (lease : Nat) (outcome : Outcome) (core : Core) (principal : Text)
    (actual : Nat) (backend group attempt : Text) (startedMs estimatedUs : Nat) :
    (finishSent id lease outcome now core principal actual backend group attempt startedMs
      estimatedUs).2.header = core.header := by
  unfold finishSent
  split
  · split
    · rfl
    · exact complete_header _ _ _ _ _
  · rfl

theorem finish_header (lease : Nat) (outcome : Outcome) (core : Core) :
    (finish controller id lease outcome now core).2.header = core.header := by
  unfold finish
  split
  · rfl
  · split
    · split <;> rfl
    · split
      · split
        · exact complete_header _ _ _ _ _
        · rfl
      · exact finishSent_header _ _ _ _ _ _ _ _ _ _
      · exact finishSent_header _ _ _ _ _ _ _ _ _ _
      · split <;> rfl
      · rfl

theorem resolve_header (core : Core) : (resolve id now core).2.header = core.header := by
  unfold resolve
  split
  · rfl
  · dsimp only
    split
    · exact complete_header _ _ _ _ _
    · exact complete_header _ _ _ _ _
    · rfl
    · rfl

theorem cancel_header (core : Core) : (cancel controller id core).2.header = core.header := by
  unfold cancel
  split
  · rfl
  · split <;> rfl

theorem setDraining_header (enabled : Bool) (core : Core) :
    (setDraining enabled core).header = core.header := by
  unfold setDraining
  dsimp only
  split
  · exact rewriteJobs_header _ _
  · rfl

theorem recover_header (sha : Wire.Digest) (core : Core) :
    (recover config sha core).2.header = core.header := by
  unfold recover
  split
  · rfl
  · exact rewriteJobs_header _ _

end Core

section Service
variable {service : Service} {core next : Core} {command : Command} {euid uid now : Nat}

theorem load_header {id : Text} (h : service.load id core = .ok next) :
    next.header = core.header := by
  unfold load at h
  split at h
  · cases h
    rfl
  · obtain ⟨found, -, h⟩ := bind_eq_ok.1 h
    cases found <;> cases h <;> rfl

theorem perform_header (h : service.perform now core command = .ok next) :
    next.header = core.header := by
  cases command with
  | enqueue controller request =>
    simp only [perform, check_bind_eq_ok] at h
    rw [accepted_eq_ok h.2, enqueue_header]
  | inspect =>
    cases h
    rfl
  | dispatch => rw [accepted_eq_ok h, dispatch_header]
  | finish => rw [accepted_eq_ok h, finish_header]
  | cancel => rw [accepted_eq_ok h, cancel_header]
  | status | statusGroups | drain | resolve => cases h

theorem candidate_header {reply : Job} (h : service.candidate uid command now = .ok (next, reply)) :
    next.header = service.core.header := by
  obtain ⟨controller, id, scheduled, loaded, performed, -, hscheduled, hload, hperform, hfinal⟩ :=
    candidate_eq_ok h
  calc next.header = performed.header := by rw [accepted_eq_ok hfinal, schedule_header]
    _ = loaded.header := perform_header hperform
    _ = scheduled.header := load_header hload
    _ = service.core.header := by rw [accepted_eq_ok hscheduled, schedule_header]

theorem operatorCandidate_header {draining : Option Bool} {resolve : Option Text} {limit : Nat}
    (h : service.operatorCandidate euid uid draining resolve limit now = .ok next) :
    next.header = service.core.header := by
  simp only [operatorCandidate, check_bind_eq_ok] at h
  obtain ⟨-, -, -, h⟩ := h
  obtain ⟨resolved, hresolved, hschedule⟩ := bind_eq_ok.1 h
  have hdrained : (drainOption draining service.core).header = service.core.header := by
    cases draining with
    | none => rfl
    | some enabled => exact setDraining_header enabled service.core
  rw [accepted_eq_ok hschedule, schedule_header, ← hdrained]
  cases resolve with
  | none =>
    cases hresolved
    rfl
  | some id => rw [accepted_eq_ok hresolved, resolve_header]

variable (h : service.proposal euid uid command now = .ok next)
include h

/-- What a round of `serve` commits has the header of the state. -/
theorem proposal_header :
    next.header = service.core.header := by
  obtain ⟨draining, resolve, limit, hpage⟩ | ⟨reply, hcandidate⟩ := proposal_eq_ok h
  · exact operatorCandidate_header hpage
  · exact candidate_header hcandidate

/-- A service whose save has failed proposes nothing. -/
theorem not_poisoned_of_proposal :
    service.poisoned = false := by
  obtain ⟨draining, resolve, limit, hpage⟩ | ⟨reply, hcandidate⟩ := proposal_eq_ok h
  · simp only [operatorCandidate, check_bind_eq_ok, refuseIf_eq_ok] at hpage
    exact hpage.2.1
  · simp only [candidate, check_bind_eq_ok, refuseIf_eq_ok] at hcandidate
    exact hcandidate.1

end Service

end MiniDregg.Scheduler
