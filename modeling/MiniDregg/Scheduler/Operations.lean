import MiniDregg.Scheduler.Steps

/-!
# Operations and runs

Each call on the scheduler, accepted or refused, is a sequence of elementary
steps within its own powers: only a dispatch sends, and only a report under the
exact lease by the controller of the job or the operator's word completes a
sent job. A property of the empty scheduler that the elementary steps keep
therefore holds in every reachable state.
-/

namespace MiniDregg.Scheduler

open Fallible Store Relation OrderedMap Scheduler.Core

variable {config : Config} {core : Core} {job : Job} {sha : Wire.Digest}

section Operations
variable {powers : Powers} {controller id : Text} {now lease : Nat} {request : Request}

theorem admissible_eq_ok {registration : Registration}
    (h : admissible config controller request now core = .ok registration) :
    config.controllers.get? controller = some registration ∧ core.live < config.maxJobs := by
  simp only [admissible, check_bind_eq_ok, refuseIf_eq_ok] at h
  obtain ⟨-, h⟩ := h
  split at h
  · cases h
  next found hfound =>
    simp only [check_bind_eq_ok, refuseIf_decide, not_le] at h
    obtain ⟨-, hroom, -, -, h⟩ := h
    cases h
    exact ⟨hfound, hroom⟩

theorem enqueue_steps (hk : Keyed core)
    (hpower : ∀ job : Job, job.request = request → job.state = .queued → powers.enters job) :
    Steps config powers core (enqueue config controller request now core).2 := by
  unfold enqueue
  split
  · exact .refl
  next hchecked =>
    split
    · split <;> exact .refl
    next hfresh =>
      split
      · exact .refl
      next registration hadmissible =>
        obtain ⟨hregistration, hroom⟩ := admissible_eq_ok hadmissible
        split
        · exact .refl
        next order numbered hserial =>
          obtain ⟨rfl, rfl, hbound⟩ := serial_eq_ok hserial
          have hnumber : Step config powers core { core with next := core.next + 1 } :=
            .number rfl hbound rfl
          have hadmitted : Step config powers { core with next := core.next + 1 }
              (admitted controller registration request core.next
                { core with next := core.next + 1 }) := by
            refine @Step.enter config powers _ _ ⟨controller, registration.principal,
              registration.pool, core.next, request, .queued, .empty⟩ ?_ ?_ hfresh ?_ hroom
              (hpower _ rfl rfl)
            · simp [admitted]
            · simp [admitted]
            · exact ⟨rfl, rfl, Nat.lt_succ_self _, hchecked, registration, hregistration, rfl, rfl⟩
          exact .head hnumber (.head hadmitted
            (schedule_steps (hadmitted.keyed (hnumber.keyed hk))))

theorem inspect_eq_ok (h : inspect controller id core = .ok job) :
    core.jobs.get? id = some job ∧ job.controller = controller := by
  unfold inspect at h
  split at h
  · cases h
  next found hfound =>
    split_ifs at h with hne
    cases h
    exact ⟨hfound, not_not.1 hne⟩

theorem dispatch_steps {attempt : Text} (hpower : powers.sends id lease) :
    Steps config powers core (dispatch controller id lease attempt now core).2 := by
  unfold dispatch
  split
  · exact .refl
  · split
    · exact .refl
    next old hinspect =>
      obtain ⟨hjob, -⟩ := inspect_eq_ok hinspect
      split
      next actual backend endpoint group expiresMs estimatedUs hstate =>
        split
        next hlease =>
          obtain ⟨rfl, -⟩ := hlease
          have hplacement : old.state.placement = some (lease, group) := by
            rw [hstate]
            rfl
          exact .single (.setState rfl rfl hjob (.send hplacement rfl hpower))
        · exact .refl
      · exact .refl

variable {outcome : Outcome}

theorem finishSent_steps {actual : Nat} {backend group attempt : Text} {startedMs estimatedUs : Nat}
    (hjob : core.jobs.get? id = some job) (hsent : job.state.sent = some (actual, group))
    (hpower : powers.completes id job.controller lease) :
    Steps config powers core (finishSent id lease outcome now core job.principal actual backend
      group attempt startedMs estimatedUs).2 := by
  unfold finishSent
  split
  next hreport =>
    obtain ⟨rfl, -⟩ := hreport
    split
    · exact .single (.setState rfl rfl hjob (.mark hsent rfl))
    · exact .single (.setState (complete_next _ _ _ _ _ _) (complete_jobs _ _ _ _ _ _) hjob
        (.complete hsent outcome hpower))
  · exact .refl

theorem finish_steps (hpower : powers.completes id controller lease) :
    Steps config powers core (finish controller id lease outcome now core).2 := by
  unfold finish
  split
  · exact .refl
  next old hinspect =>
    obtain ⟨hjob, rfl⟩ := inspect_eq_ok hinspect
    split
    · split <;> exact .refl
    · split
      next actual backend endpoint group expiresMs estimatedUs hstate =>
        split
        next hreport =>
          obtain ⟨rfl, -⟩ := hreport
          exact .single (.setState (complete_next _ _ _ _ _ _) (complete_jobs _ _ _ _ _ _) hjob
            (.drop (by rw [hstate]; rfl) (by rw [hstate]; rfl) outcome (by rw [hstate]; rfl)))
        · exact .refl
      next hstate =>
        exact finishSent_steps hjob (by rw [hstate]; rfl) hpower
      next hstate =>
        exact finishSent_steps hjob (by rw [hstate]; rfl) hpower
      · split <;> exact .refl
      · exact .refl

theorem resolve_steps (hpower : ∀ controller lease, powers.completes id controller lease) :
    Steps config powers core (resolve id now core).2 := by
  unfold resolve
  split
  · exact .refl
  next old hjob =>
    have hresolved {lease startedMs estimatedUs : Nat} {group : Text}
        (hsent : old.state.sent = some (lease, group)) :
        Steps config powers core (complete id old.principal estimatedUs (elapsedUs startedMs now)
          (.terminal .operatorResolved (some lease)) core) :=
      .single (.setState (complete_next _ _ _ _ _ _) (complete_jobs _ _ _ _ _ _) hjob
        (.complete hsent _ (hpower _ _)))
    dsimp only
    split
    next hstate =>
      exact hresolved (by rw [hstate]; rfl)
    next hstate =>
      exact hresolved (by rw [hstate]; rfl)
    · exact .refl
    · exact .refl

theorem cancel_steps : Steps config powers core (cancel controller id core).2 := by
  unfold cancel
  split
  · exact .refl
  next old hinspect =>
    obtain ⟨hjob, -⟩ := inspect_eq_ok hinspect
    split
    next hstate =>
      exact .single (.setState rfl rfl hjob
        (.drop (by rw [hstate]; rfl) (by rw [hstate]; rfl) _ (by rw [hstate]; rfl)))
    next hstate =>
      exact .single (.setState rfl rfl hjob
        (.drop (by rw [hstate]; rfl) (by rw [hstate]; rfl) _ (by rw [hstate]; rfl)))
    next hstate =>
      exact .single (.setState rfl rfl hjob (.mark (by rw [hstate]; rfl) rfl))
    · exact .refl

theorem setDraining_steps {enabled : Bool} :
    Steps config powers core (setDraining enabled core) := by
  have hflag : Step config powers core { core with draining := enabled } := .accounts rfl rfl
  unfold setDraining
  dsimp only
  split
  · exact .head hflag (.single (.rewriteJobs drainJob_move))
  · exact .single hflag

theorem recover_steps : Steps config powers core (recover config sha core).2 := by
  unfold recover
  split
  · exact .refl
  · exact .single (.rewriteJobs recoverJob_move)

end Operations

/-- The calls that change a scheduler. `archive` and `load` are what the service around the
core does when it retires a terminal job and when it reads a receipt back. -/
inductive Op
  | enqueue (controller : Text) (request : Request) (now : Nat)
  | schedule (now : Nat)
  | dispatch (controller id : Text) (lease : Nat) (attempt : Text) (now : Nat)
  | finish (controller id : Text) (lease : Nat) (outcome : Outcome) (now : Nat)
  | resolve (id : Text) (now : Nat)
  | cancel (controller id : Text)
  | setDraining (enabled : Bool)
  | recover
  | archive (id : Text)
  | load (job : Job)
  deriving DecidableEq

namespace Op

/-- Remove a terminal job. -/
def retire (id : Text) (core : Core) : Core :=
  match core.jobs.get? id with
  | some job => if job.state.isTerminal then { core with jobs := core.jobs.erase id } else core
  | none => core

/-- Put a terminal job under its identity, unless a job is there. -/
def restore (job : Job) (core : Core) : Core :=
  if job.state.isTerminal ∧ core.jobs.get? job.request.id = none then
    { core with jobs := core.jobs.insert job.request.id job }
  else core

variable (sha : Wire.Digest)

/-- Run a call. -/
def run (config : Config) : Op → Core → Effect
  | enqueue controller request now, core => Scheduler.enqueue config controller request now core
  | schedule now, core => Scheduler.schedule config now core
  | dispatch controller id lease attempt now, core =>
    Scheduler.dispatch controller id lease attempt now core
  | finish controller id lease outcome now, core =>
    Scheduler.finish controller id lease outcome now core
  | resolve id now, core => Scheduler.resolve id now core
  | cancel controller id, core => Scheduler.cancel controller id core
  | setDraining enabled, core => (.ok (), Scheduler.setDraining enabled core)
  | recover, core => Scheduler.recover config sha core
  | archive id, core => (.ok (), retire id core)
  | load job, core => (.ok (), restore job core)

/-- Whether a call may end a sent job: a report under its lease by its controller, or the
operator's word on the job. -/
def Releases (id controller : Text) (lease : Nat) : Op → Prop
  | finish controller' id' lease' _ _ => controller' = controller ∧ id' = id ∧ lease' = lease
  | resolve id' _ => id' = id
  | _ => False

/-- Whether a call is the dispatch of a placement. -/
def Sends (id : Text) (lease : Nat) : Op → Prop
  | dispatch _ id' lease' _ _ => id' = id ∧ lease' = lease
  | _ => False

/-- Whether a call may bring a job in. -/
def Enters (job : Job) : Op → Prop
  | enqueue _ request _ => job.request = request ∧ job.state = .queued
  | load job' => job = job'
  | _ => False

/-- Whether a call may remove the job under an identity. -/
def Leaves (id : Text) : Op → Prop
  | archive id' => id' = id
  | _ => False

/-- What a call may do. -/
def powers (op : Op) : Powers where
  completes id controller lease := op.Releases id controller lease
  sends id lease := op.Sends id lease
  enters job := op.Enters job
  leaves id := op.Leaves id

theorem retire_steps {powers : Powers} {id : Text} (hpower : powers.leaves id) :
    Steps config powers core (retire id core) := by
  unfold retire
  split
  next job hjob =>
    split
    · exact .single (.archive rfl rfl hjob ‹_› hpower)
    · exact .refl
  · exact .refl

theorem restore_steps {powers : Powers} (hpower : powers.enters job) :
    Steps config powers core (restore job core) := by
  unfold restore
  split
  next h =>
    exact .single (.load rfl rfl h.2 h.1 hpower)
  · exact .refl

/-- Every call, accepted or refused, is a sequence of elementary steps within its powers. -/
theorem run_steps (config : Config) (op : Op) (hk : Keyed core) :
    Steps config op.powers core (op.run sha config core).2 := by
  cases op with simp only [run]
  | enqueue => exact enqueue_steps hk fun _ hrequest hqueued => ⟨hrequest, hqueued⟩
  | schedule => exact schedule_steps hk
  | dispatch => exact dispatch_steps ⟨rfl, rfl⟩
  | finish => exact finish_steps ⟨rfl, rfl, rfl⟩
  | resolve => exact resolve_steps fun _ _ => rfl
  | cancel => exact cancel_steps
  | setDraining => exact setDraining_steps
  | recover => exact recover_steps
  | archive => exact retire_steps rfl
  | load => exact restore_steps rfl

end Op

/-- The state after a sequence of calls. -/
def runAll (sha : Wire.Digest) (config : Config) (core : Core) (ops : List Op) : Core :=
  ops.foldl (fun core op => (op.run sha config core).2) core

/-- The states of a scheduler that starts empty under a validated configuration. -/
def Reachable (sha : Wire.Digest) (config : Config) (core : Core) : Prop :=
  ∃ start ops, new sha config = .ok start ∧ core = runAll sha config start ops

section Runs
variable {start : Core}

variable {P : Core → Prop}

/-- What one call keeps, a sequence of calls keeps. -/
theorem runAll_induction {A : Op → Prop}
    (step : ∀ op core, A op → P core → P (op.run sha config core).2) (h : P core)
    {ops : List Op} (hops : ∀ op ∈ ops, A op) : P (runAll sha config core ops) := by
  induction ops generalizing core with
  | nil => exact h
  | cons op ops ih =>
    obtain ⟨hop, hops⟩ := List.forall_mem_cons.1 hops
    exact ih (step op core hop h) hops

theorem new_eq_ok : new sha config = .ok core ↔
    config.validate = .ok () ∧ core = .initial sha config := by
  rw [new, check_bind_eq_ok, pure_eq_ok, Except.ok.injEq, eq_comm (a := core)]

/-- A property of the empty scheduler that every elementary step keeps holds of every
reachable state. -/
theorem Reachable.induction (empty : ∀ core, core.jobs = .empty → core.next = 1 → P core)
    (step : ∀ powers core core', Step config powers core core' → P core → P core')
    (h : Reachable sha config core) : P core := by
  obtain ⟨start, ops, hstart, rfl⟩ := h
  obtain ⟨-, rfl⟩ := new_eq_ok.1 hstart
  have hkeyed : Keyed (.initial sha config) := fun id job hget => by cases hget
  have hboth : Keyed (.initial sha config) ∧ P (.initial sha config) := ⟨hkeyed, empty _ rfl rfl⟩
  refine (runAll_induction (P := fun core => Keyed core ∧ P core) (A := fun _ => True)
    (fun op core _ hcore => ?_) hboth fun _ _ => trivial).2
  have hsteps := op.run_steps sha config hcore.1
  exact ⟨hsteps.keyed hcore.1, hsteps.preserves (step op.powers) hcore.2⟩

section
variable (h : Reachable sha config core)
include h

theorem Reachable.keyed : Keyed core := by
  refine h.induction (fun core hjobs _ id job hget => ?_) fun _ _ _ step => step.keyed
  rw [hjobs] at hget
  cases hget

theorem Reachable.runAll (ops : List Op) : Reachable sha config (runAll sha config core ops) := by
  obtain ⟨start, before, hstart, rfl⟩ := h
  exact ⟨start, before ++ ops, hstart, List.foldl_append.symm⟩

theorem Reachable.run (op : Op) : Reachable sha config (op.run sha config core).2 :=
  h.runAll [op]

end

end Runs

/-- A machine with one slot, for one job at a time and one receipt. -/
def smallConfig : Config where
  version := 1
  maxJobs := 1
  maxTerminalReceipts := 1
  maxReceiptBytes := 8 * 1024 * 1024 * 1024
  maxQueuedPerPrincipal := 1
  maxActivePerPrincipal := 1
  leaseMs := 100
  groups := empty.insert "gpu" 1
  controllers := empty.insert "desk" ⟨1000, "team", "local"⟩
  backends := empty.insert "box"
    ⟨"local", "gpu", "https://box",
      empty.insert "small" ⟨10, 5, false, 1, 1⟩⟩

/-- A request the small machine can serve, under an identity of one repeated digit. -/
def smallRequest (c : Char) (deadline : Nat) : Request where
  id := List.replicate 64 c
  requestDigest := List.replicate 64 '0'
  model := "small"
  maxInput := 1
  maxOutput := 1
  tools := false
  queueDeadlineMs := deadline
  allowedEndpoints := ["https://box"]

theorem smallConfig_new (sha : Wire.Digest) :
    new sha smallConfig = .ok (.initial sha smallConfig) :=
  new_eq_ok.2 ⟨by decide, rfl⟩

end MiniDregg.Scheduler
