import MiniDregg.Scheduler.Core

/-!
# What an operation can do to the jobs

Every operation of the scheduler is a sequence of elementary steps: one job is
admitted, one queued job is placed under the next lease, terminal jobs leave
for the archive or are read back from it, or jobs are rewritten where they
stand. A rewriting moves each job within its life cycle, and the moves that
send a job or complete a sent one are tied to the call that asked for them.

## Implementation notes

The steps look at the jobs and the lease counter only. Service accounts, the
virtual clock and the archive counters change freely, so a proof about slots or
leases needs the steps and nothing else of the operations.
-/

namespace MiniDregg.Scheduler

open Fallible Store Relation OrderedMap List Scheduler.Core State

/-- The lease and group of a job that was handed to a backend. -/
def State.sent : State → Option (Nat × Text)
  | dispatched lease _ group _ _ _ _ => some (lease, group)
  | uncertain lease _ group _ _ _ => some (lease, group)
  | _ => none

/-- The lease and group of a placement that was not dispatched. -/
def State.placement : State → Option (Nat × Text)
  | placed lease _ _ group _ _ => some (lease, group)
  | _ => none

/-- What a call may do: `completes id controller lease` to a sent job, `sends id lease` to a
placement, the jobs that may enter, and the identities that may leave. -/
structure Powers where
  completes : Text → Text → Nat → Prop
  sends : Text → Nat → Prop
  enters : Job → Prop
  leaves : Text → Prop

/-- A call that may do anything to the jobs that are there, and lets none in or out. -/
def Powers.closed : Powers :=
  ⟨fun _ _ _ => True, fun _ _ => True, fun _ => False, fun _ => False⟩

/-- How the state of one job may move under the powers of a call. -/
inductive Move (powers : Powers) (id : Text) : Job → Job → Prop
  | stay (job : Job) : Move powers id job job
  | drop {job : Job} (live : job.state.isTerminal = false) (h : job.state.sent = none)
      (outcome : Outcome) {lease : Option Nat}
      (hlease : lease = job.state.placement.map Prod.fst) :
      Move powers id job (job.withState (.terminal outcome lease))
  | supersede {job : Job} {lease : Nat} {group : Text}
      (h : job.state.placement = some (lease, group))
      (room : ¬(job.supersededUnsent.entries.length ≥ maxUnsentLeaseGuards ∧
        ¬job.supersededUnsent.contains lease)) :
      Move powers id job
        { job with
          state := .queued
          supersededUnsent := job.supersededUnsent.insert lease () }
  | mark {job : Job} {lease : Nat} {group : Text} {state : State}
      (h : job.state.sent = some (lease, group)) (h' : state.sent = some (lease, group)) :
      Move powers id job (job.withState state)
  | send {job : Job} {lease : Nat} {group : Text} {state : State}
      (h : job.state.placement = some (lease, group)) (h' : state.sent = some (lease, group))
      (power : powers.sends id lease) : Move powers id job (job.withState state)
  | complete {job : Job} {lease : Nat} {group : Text}
      (h : job.state.sent = some (lease, group)) (outcome : Outcome)
      (power : powers.completes id job.controller lease) :
      Move powers id job (job.withState (.terminal outcome (some lease)))

/-- Every job moves where it stands; none appears or disappears. -/
def Rewrites (powers : Powers) (jobs jobs' : OrderedMap Text Job) : Prop :=
  ∀ id, (jobs.get? id = none ∧ jobs'.get? id = none) ∨
    ∃ job job', jobs.get? id = some job ∧ jobs'.get? id = some job' ∧ Move powers id job job'

/-- A job as admission builds it. -/
structure NewJob (config : Config) (core : Core) (job : Job) : Prop where
  queued : job.state = .queued
  unguarded : job.supersededUnsent = .empty
  numbered : job.order < core.next
  checked : checkRequest job.request = .ok ()
  registered : ∃ registration, config.controllers.get? job.controller = some registration ∧
    job.principal = registration.principal ∧ job.pool = registration.pool

/-- One elementary step of the scheduler. -/
inductive Step (config : Config) (powers : Powers) : Core → Core → Prop
  | rewrite {core core' : Core} (hnext : core'.next = core.next)
      (h : Rewrites powers core.jobs core'.jobs) : Step config powers core core'
  | number {core core' : Core} (hnext : core'.next = core.next + 1) (hbound : core'.next < 2 ^ 64)
      (h : core'.jobs = core.jobs) : Step config powers core core'
  | enter {core core' : Core} {job : Job} (hnext : core'.next = core.next)
      (h : core'.jobs = core.jobs.insert job.request.id job)
      (fresh : core.jobs.get? job.request.id = none) (new : NewJob config core job)
      (room : core.live < config.maxJobs) (power : powers.enters job) :
      Step config powers core core'
  | place {core core' : Core} {id : Text} {job : Job} {lease : Nat} {group : Text}
      {s : Job → State}
      (hnext : core'.next = core.next + 1) (hbound : core'.next < 2 ^ 64)
      (hlease : lease = core.next)
      (h : core'.jobs = core.jobs.modify id fun job => job.withState (s job))
      (hjob : core.jobs.get? id = some job) (queued : job.state = .queued)
      (placed : (s job).placement = some (lease, group))
      (slot : core.occupied group < (config.groups.get? group).getD 0)
      (share : core.active job.principal < config.maxActivePerPrincipal) :
      Step config powers core core'
  | archive {core core' : Core} {id : Text} {job : Job} (hnext : core'.next = core.next)
      (h : core'.jobs = core.jobs.erase id) (hjob : core.jobs.get? id = some job)
      (terminal : job.state.isTerminal) (power : powers.leaves id) : Step config powers core core'
  | load {core core' : Core} {job : Job} (hnext : core'.next = core.next)
      (h : core'.jobs = core.jobs.insert job.request.id job)
      (fresh : core.jobs.get? job.request.id = none) (terminal : job.state.isTerminal)
      (power : powers.enters job) : Step config powers core core'

/-- A sequence of elementary steps. -/
abbrev Steps (config : Config) (powers : Powers) : Core → Core → Prop :=
  ReflTransGen (Step config powers)

/-- Jobs stand under the identity of their request. -/
def Keyed (core : Core) : Prop := ∀ id job, core.jobs.get? id = some job → job.request.id = id

variable {config : Config} {powers : Powers} {core' : Core}

section Rewriting
variable {core : Core} {jobs : OrderedMap Text Job}

theorem Rewrites.refl : Rewrites powers jobs jobs := by
  intro id
  cases h : jobs.get? id with
  | none => exact .inl ⟨rfl, rfl⟩
  | some job => exact .inr ⟨job, job, rfl, rfl, .stay job⟩

variable {f : Job → Job}

theorem Rewrites.map (h : ∀ id job, Move powers id job (f job)) :
    Rewrites powers jobs (jobs.map f) := by
  intro id
  cases hget : jobs.get? id with
  | none => exact .inl ⟨rfl, by simp [hget]⟩
  | some job => exact .inr ⟨job, f job, rfl, by simp [hget], h id job⟩

variable {id : Text} {job job' : Job}

theorem Rewrites.modify (hjob : jobs.get? id = some job) (h : Move powers id job (f job)) :
    Rewrites powers jobs (jobs.modify id f) := by
  intro id'
  rw [get?_modify]
  split_ifs with heq
  · subst heq
    exact .inr ⟨job, f job, hjob, by rw [hjob]; rfl, h⟩
  · exact Rewrites.refl id'

theorem Rewrites.source {jobs' : OrderedMap Text Job} (h : Rewrites powers jobs jobs')
    (hjob' : jobs'.get? id = some job') :
    ∃ job, jobs.get? id = some job ∧ Move powers id job job' := by
  obtain ⟨-, hnone⟩ | ⟨job, new, hjob, hnew, hmove⟩ := h id
  · cases hnone.symm.trans hjob'
  · cases hnew.symm.trans hjob'
    exact ⟨job, hjob, hmove⟩

/-- A change of the accounts alone. -/
theorem Step.accounts (hnext : core'.next = core.next) (h : core'.jobs = core.jobs) :
    Step config powers core core' :=
  .rewrite hnext (h ▸ Rewrites.refl)

section
variable (h : Move powers id job job')
include h

theorem Move.request : job'.request = job.request := by
  cases h <;> rfl

theorem Move.principal : job'.principal = job.principal := by
  cases h <;> rfl

theorem Move.controller : job'.controller = job.controller := by
  cases h <;> rfl

end

/-- Elementary steps keep jobs under their identities. -/
theorem Step.keyed (h : Step config powers core core') (hk : Keyed core) : Keyed core' := by
  intro id job hget
  cases h with
  | rewrite _ h =>
    obtain ⟨old, hold, hmove⟩ := h.source hget
    exact hmove.request ▸ hk id old hold
  | number _ _ h => exact hk id job (h ▸ hget)
  | enter _ h | load _ h =>
    obtain ⟨rfl, rfl⟩ | hget := of_get?_insert (h ▸ hget)
    · rfl
    · exact hk id job hget
  | place _ _ _ h hjob =>
    rw [h, get?_modify] at hget
    split_ifs at hget with heq
    · obtain ⟨old, hold, rfl⟩ := Option.map_eq_some_iff.1 hget
      exact hk id old hold
    · exact hk id job hget
  | archive _ h =>
    rw [h, get?_erase] at hget
    split_ifs at hget
    exact hk id job hget

/-- What one elementary step keeps, a sequence of them keeps. -/
theorem Steps.preserves {P : Core → Prop}
    (step : ∀ core core', Step config powers core core' → P core → P core')
    (h : Steps config powers core core') (hcore : P core) : P core' := by
  induction h with
  | refl => exact hcore
  | tail _ hstep ih => exact step _ _ hstep ih

theorem Steps.keyed (h : Steps config powers core core') (hk : Keyed core) : Keyed core' :=
  h.preserves (fun _ _ hstep => hstep.keyed) hk

end Rewriting

/-- What a refund does to the service accounts. -/
def creditAccount (accounts : OrderedMap Text Nat) (refund : Text × Nat) : OrderedMap Text Nat :=
  accounts.insert refund.1 ((accounts.get? refund.1).getD 0 - refund.2)

theorem foldl_credit (refunds : List (Text × Nat)) (core : Core) :
    refunds.foldl Core.credit core =
      { core with serviceUs := refunds.foldl creditAccount core.serviceUs } := by
  induction refunds generalizing core with
  | nil => rfl
  | cons refund refunds ih =>
    rw [foldl_cons, ih]
    rfl

/-- The refunds of a rewriting. -/
def refunds (rewrite : Job → Job × Option Nat) (jobs : OrderedMap Text Job) : List (Text × Nat) :=
  jobs.values.filterMap fun job => (rewrite job).2.map fun amount => (job.principal, amount)

theorem rewriteJobs_eq (rewrite : Job → Job × Option Nat) (core : Core) :
    core.rewriteJobs rewrite =
      { core with
        jobs := core.jobs.map fun job => (rewrite job).1
        serviceUs := (refunds rewrite core.jobs).foldl creditAccount core.serviceUs } :=
  foldl_credit _ _

section Accounts
variable (core : Core)

theorem Core.rewriteJobs_jobs (rewrite : Job → Job × Option Nat) :
    (core.rewriteJobs rewrite).jobs = core.jobs.map fun job => (rewrite job).1 := by
  rw [rewriteJobs_eq]

theorem Core.rewriteJobs_next (rewrite : Job → Job × Option Nat) :
    (core.rewriteJobs rewrite).next = core.next := by
  rw [rewriteJobs_eq]

@[simp] theorem Core.advanceFloor_jobs : core.advanceFloor.jobs = core.jobs := by
  unfold advanceFloor
  dsimp only
  split <;> rfl

@[simp] theorem Core.advanceFloor_next : core.advanceFloor.next = core.next := by
  unfold advanceFloor
  dsimp only
  split <;> rfl

@[simp] theorem complete_jobs (id principal : Text) (estimated elapsed : Nat) (next : State) :
    (complete id principal estimated elapsed next core).jobs = (core.setState id next).jobs := by
  unfold complete
  dsimp only
  split <;> rfl

@[simp] theorem complete_next (id principal : Text) (estimated elapsed : Nat) (next : State) :
    (complete id principal estimated elapsed next core).next = core.next := by
  unfold complete
  dsimp only
  split <;> rfl

variable {core}

theorem Step.rewriteJobs {rewrite : Job → Job × Option Nat}
    (h : ∀ id job, Move powers id job (rewrite job).1) :
    Step config powers core (core.rewriteJobs rewrite) :=
  .rewrite (core.rewriteJobs_next rewrite) (core.rewriteJobs_jobs rewrite ▸ Rewrites.map h)

/-- One job moves to another state. -/
theorem Step.setState {id : Text} {job : Job} {state : State} (hnext : core'.next = core.next)
    (hjobs : core'.jobs = (core.setState id state).jobs) (hjob : core.jobs.get? id = some job)
    (h : Move powers id job (job.withState state)) : Step config powers core core' :=
  .rewrite hnext (hjobs ▸ Rewrites.modify hjob h)

theorem Core.serial_eq_ok {n : Nat} (h : core.serial = .ok (n, core')) :
    n = core.next ∧ core' = { core with next := core.next + 1 } ∧ core.next + 1 < 2 ^ 64 := by
  unfold serial at h
  split_ifs at h with hbound
  cases h
  exact ⟨rfl, rfl, hbound⟩

end Accounts

section JobMoves
variable (id : Text) (job : Job)

theorem expireJob_move (now : Nat) : Move powers id job (expireJob now job).1 := by
  unfold expireJob
  split
  · split
    · exact .drop (by simp [isTerminal, *]) (by simp [sent, *]) _
        (by simp [placement, *])
    · exact .stay job
  · split
    · exact .drop (by simp [isTerminal, *]) (by simp [sent, *]) _
        (by simp [placement, *])
    · exact .stay job
  · exact .stay job

theorem drainJob_move : Move powers id job (drainJob job).1 := by
  unfold drainJob
  split
  · exact .drop (by simp [isTerminal, *]) (by simp [sent, *]) _
        (by simp [placement, *])
  · exact .drop (by simp [isTerminal, *]) (by simp [sent, *]) _
        (by simp [placement, *])
  · exact .stay job

theorem recoverJob_move : Move powers id job (recoverJob job).1 := by
  unfold recoverJob
  split
  next lease backend endpoint group expiresMs estimatedUs hstate =>
    have hplacement : job.state.placement = some (lease, group) := by
      rw [hstate]
      rfl
    split
    · exact .drop (by rw [hstate]; rfl) (by rw [hstate]; rfl) _ (by rw [hplacement]; rfl)
    · exact .supersede hplacement ‹_›
  next lease backend group attempt startedMs estimatedUs stop hstate =>
    exact .mark (by rw [hstate]; rfl) rfl
  · exact .stay job

end JobMoves

section Placement
variable {core : Core} {now : Nat}

variable {cs : List Choice} {choice : Choice}

/-- A choice for a queued job: its principal is below its bound, and the backend is eligible, has
a free slot in its group and serves the request at the cost of the choice. -/
structure Offered (config : Config) (core : Core) (job : Job) (choice : Choice) : Prop where
  queued : job.state = .queued
  share : core.active job.principal < config.maxActivePerPrincipal
  id_eq : choice.id = job.request.id
  service_eq : choice.service = core.service job.principal
  order_eq : choice.order = job.order
  backend : ∃ backend, config.backends.get? choice.backend = some backend ∧
    eligible backend job.pool job.request = true ∧
    core.occupied backend.group < (config.groups.get? backend.group).getD 0 ∧
    cost backend job.request = .ok choice.cost

theorem offers_offered {job : Job} (h : offers config core job = .ok cs) (hmem : choice ∈ cs)
    (hqueued : job.state = .queued)
    (hshare : core.active job.principal < config.maxActivePerPrincipal) :
    Offered config core job choice := by
  obtain ⟨e, he, hround⟩ := mem_of_mapM_eq_ok h hmem
  obtain ⟨hbackend, hoffer⟩ := mem_filter.1 he
  obtain ⟨amount, hcost, hchoice⟩ := bind_eq_ok.1 hround
  cases hchoice
  rw [Bool.and_eq_true, decide_eq_true_eq] at hoffer
  exact ⟨hqueued, hshare, rfl, rfl, rfl, e.2, get?_eq_some.2 hbackend, hoffer.1, hoffer.2, hcost⟩

theorem choicesFrom_offered {seen : List (Text × Text × Text)} {jobs : List Job}
    (h : choicesFrom config core seen jobs = .ok cs) (hmem : choice ∈ cs)
    (hqueued : ∀ job ∈ jobs, job.state = .queued) :
    ∃ job ∈ jobs, Offered config core job choice := by
  induction jobs generalizing seen cs with
  | nil =>
    cases h
    cases hmem
  | cons job rest ih =>
    obtain ⟨hjob, hrest⟩ := forall_mem_cons.1 hqueued
    rw [exists_mem_cons_iff]
    simp only [choicesFrom] at h
    split_ifs at h with hskip
    · exact .inr (ih h hmem hrest)
    · simp only [Bool.or_eq_true, decide_eq_true_eq, not_or, not_le] at hskip
      obtain ⟨offered, hoffered, h⟩ := bind_eq_ok.1 h
      obtain ⟨others, hothers, h⟩ := bind_eq_ok.1 h
      cases h
      rcases mem_append.1 hmem with hmem | hmem
      · exact .inl (offers_offered hoffered hmem hjob hskip.2)
      · exact .inr (ih hothers hmem hrest)

theorem mem_waiting {job : Job} :
    job ∈ waiting core ↔ job ∈ core.jobs.values ∧ job.state = .queued := by
  simp [waiting, mem_insertionSort, mem_filter]

theorem choices_offered (h : choices config core = .ok cs) (hmem : choice ∈ cs) :
    ∃ job ∈ core.jobs.values, Offered config core job choice := by
  obtain ⟨unsorted, hunsorted, h⟩ := bind_eq_ok.1 h
  cases h
  obtain ⟨job, hjob, hoffered⟩ := choicesFrom_offered hunsorted ((mem_insertionSort _).1 hmem)
    fun _ hjob => (mem_waiting.1 hjob).2
  exact ⟨job, (mem_waiting.1 hjob).1, hoffered⟩

/-- A choice names its job by the identity under which the job is kept. -/
theorem choices_job (hk : Keyed core) (h : choices config core = .ok cs) (hmem : choice ∈ cs) :
    ∃ job, core.jobs.get? choice.id = some job ∧ Offered config core job choice := by
  obtain ⟨job, hvalue, hoffered⟩ := choices_offered h hmem
  obtain ⟨id, hjob⟩ := mem_values.1 hvalue
  obtain rfl : choice.id = id := hoffered.id_eq.trans (hk id job hjob)
  exact ⟨job, hjob, hoffered⟩

/-- Placing a choice is one step, or one lease number is used up. -/
theorem place_steps (hk : Keyed core) (h : choices config core = .ok cs) (hmem : choice ∈ cs) :
    Steps config powers core (place config now choice core).2 := by
  obtain ⟨job, hjob, hoffered⟩ := choices_job hk h hmem
  obtain ⟨backend, hbackend, -, hslot, -⟩ := hoffered.backend
  unfold place
  split
  · exact .refl
  next lease numbered hserial =>
    obtain ⟨rfl, rfl, hbound⟩ := serial_eq_ok hserial
    simp only [hbackend, hjob]
    split
    · exact .single (.place (s := placed config now core.next choice backend) rfl hbound rfl rfl
        hjob hoffered.queued rfl hslot hoffered.share)
    · exact .single (.number rfl hbound rfl)

/-- The jobs that wait for a slot. -/
def Core.queued (core : Core) : Nat := core.jobs.count fun job => job.state == .queued

theorem Keyed.advanceFloor (hk : Keyed core) : Keyed core.advanceFloor := by
  rw [Keyed, core.advanceFloor_jobs]
  exact hk

section Round
variable {rest : List Choice} {r : Result Unit} (hk : Keyed core)
  (hchoices : choices config core.advanceFloor = .ok (choice :: rest))
include hk hchoices

theorem Keyed.round (hplace : place config now choice core.advanceFloor = (r, core')) :
    Keyed core' := by
  have hsteps : Steps config .closed core.advanceFloor
      (place config now choice core.advanceFloor).2 :=
    place_steps hk.advanceFloor hchoices mem_cons_self
  rw [hplace] at hsteps
  exact hsteps.keyed hk.advanceFloor

/-- A round takes a job out of the queue. -/
theorem round_queued (hplace : place config now choice core.advanceFloor = (.ok (), core')) :
    core'.queued < core.queued := by
  obtain ⟨job, hjob, hoffered⟩ := choices_job hk.advanceFloor hchoices mem_cons_self
  obtain ⟨backend, hbackend, -⟩ := hoffered.backend
  rw [core.advanceFloor_jobs] at hjob
  unfold place at hplace
  split at hplace
  · cases hplace
  next lease numbered hserial =>
    obtain ⟨rfl, rfl, hbound⟩ := serial_eq_ok hserial
    simp only [hbackend, core.advanceFloor_jobs, hjob] at hplace
    split at hplace
    · cases hplace
      exact count_modify_lt hjob (by simp [hoffered.queued]) rfl
    · cases hplace

end Round

/-- The placement loop ends before its fuel does. -/
theorem placements_fuel {fuel : Nat} (hk : Keyed core) (h : core.queued < fuel) :
    placements config now (fuel + 1) core = placements config now fuel core := by
  induction fuel generalizing core with
  | zero => exact absurd h (Nat.not_lt_zero _)
  | succ fuel ih =>
    rw [placements]
    conv_rhs => rw [placements]
    split
    · rfl
    · rfl
    next choice rest hchoices =>
      split
      · rfl
      next after hplace =>
        have hfewer := round_queued hk hchoices hplace
        exact ih (hk.round hchoices hplace) (Nat.lt_of_lt_of_le hfewer (Nat.le_of_lt_succ h))

/-- More fuel than `schedule` gives the loop changes nothing. -/
theorem schedule_fuel (hk : Keyed core) (extra : Nat) :
    placements config now (core.jobs.entries.length + 1 + extra) core =
      placements config now (core.jobs.entries.length + 1) core := by
  induction extra with
  | zero => rfl
  | succ extra ih =>
    have hqueued : core.queued ≤ core.jobs.entries.length := count_le_length
    have hfuel : core.queued < core.jobs.entries.length + 1 + extra := by omega
    rw [← ih]
    exact placements_fuel hk hfuel

theorem placements_steps {fuel : Nat} (hk : Keyed core) :
    Steps config powers core (placements config now fuel core).2 := by
  induction fuel generalizing core with
  | zero => exact .refl
  | succ fuel ih =>
    have hfloor : Step config powers core core.advanceFloor :=
      .accounts core.advanceFloor_next core.advanceFloor_jobs
    simp only [placements]
    split
    · exact .single hfloor
    · exact .single hfloor
    next choice rest hchoices =>
      have hplace : Steps config powers core.advanceFloor
          (place config now choice core.advanceFloor).2 :=
        place_steps hk.advanceFloor hchoices mem_cons_self
      split
      next e after heq =>
        rw [heq] at hplace
        exact .head hfloor hplace
      next after heq =>
        rw [heq] at hplace
        exact (ReflTransGen.head hfloor hplace).trans (ih (hplace.keyed hk.advanceFloor))

theorem Keyed.expire (hk : Keyed core) (now : Nat) :
    Keyed (core.rewriteJobs (expireJob now)) := by
  intro id job hget
  rw [core.rewriteJobs_jobs, get?_map] at hget
  obtain ⟨old, hold, rfl⟩ := Option.map_eq_some_iff.1 hget
  have hmove : Move .closed id old (expireJob now old).1 := expireJob_move id old now
  rw [hmove.request]
  exact hk id old hold

theorem schedule_steps (hk : Keyed core) :
    Steps config powers core (schedule config now core).2 := by
  have hexpire : Step config powers core (core.rewriteJobs (expireJob now)) :=
    .rewriteJobs fun id job => expireJob_move id job now
  unfold schedule
  dsimp only
  split
  · exact .single hexpire
  · exact .head hexpire (placements_steps (hk.expire now))

end Placement

end MiniDregg.Scheduler
