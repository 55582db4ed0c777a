import MiniDregg.Scheduler.Operations

/-!
# Capacity

In every reachable state a group has no more holders than slots, a principal no
more than its share, and the nonterminal jobs fit the configured bound.
-/

namespace MiniDregg.Scheduler

open Fallible Store OrderedMap State Scheduler.Core

variable {config : Config} {powers : Powers} {core core' : Core}

/-- The bounds of the configuration, on a state. -/
structure Capacity (config : Config) (core : Core) : Prop where
  groups : ∀ group, core.occupied group ≤ (config.groups.get? group).getD 0
  principals : ∀ principal, core.active principal ≤ config.maxActivePerPrincipal
  jobs : core.live ≤ config.maxJobs

variable {lease : Nat}

namespace State

variable {state : State} {group : Text}

/-- A slot is held by a placement or by a sent job. -/
theorem group_eq_some :
    state.group = some group ↔
      ∃ lease, state.placement = some (lease, group) ∨ state.sent = some (lease, group) := by
  cases state <;> simp [State.group, placement, sent]

theorem group_of_placement (h : state.placement = some (lease, group)) : state.group = some group :=
  group_eq_some.2 ⟨lease, .inl h⟩

theorem group_of_sent (h : state.sent = some (lease, group)) : state.group = some group :=
  group_eq_some.2 ⟨lease, .inr h⟩

theorem not_terminal_of_group (h : state.group = some group) : state.isTerminal = false := by
  cases state <;> simp [State.group, isTerminal] at h ⊢

end State

variable {id : Text} {job : Job} {job' : Job}

/-- No move takes a slot. -/
theorem Move.group {group : Text} (h : Move powers id job job')
    (hgroup : job'.state.group = some group) : job.state.group = some group := by
  cases h with
  | stay => exact hgroup
  | drop | supersede | complete => cases hgroup
  | mark h h' =>
    cases (group_of_sent h').symm.trans hgroup
    exact group_of_sent h
  | send h h' =>
    cases (group_of_sent h').symm.trans hgroup
    exact group_of_placement h

/-- No move revives a terminal job. -/
theorem Move.live (h : Move powers id job job') (hlive : job'.state.isTerminal = false) :
    job.state.isTerminal = false := by
  cases h with
  | stay => exact hlive
  | drop | complete => cases hlive
  | supersede h | send h => exact not_terminal_of_group (group_of_placement h)
  | mark h => exact not_terminal_of_group (group_of_sent h)

theorem Rewrites.count_le {jobs jobs' : OrderedMap Text Job} {p : Job → Bool}
    (h : Rewrites powers jobs jobs')
    (hp : ∀ id job job', Move powers id job job' → p job' = true → p job = true) :
    jobs'.count p ≤ jobs.count p := by
  refine count_le_count fun id job' hjob' hcounted => ?_
  obtain ⟨old, hold, hmove⟩ := h.source hjob'
  exact ⟨old, hold, hp id old job' hmove hcounted⟩

theorem Rewrites.capacity (h : Rewrites powers core.jobs core'.jobs) (hc : Capacity config core) :
    Capacity config core' where
  groups group := by
    refine (h.count_le fun id job job' hmove hgroup => ?_).trans (hc.groups group)
    simpa using hmove.group (by simpa using hgroup)
  principals principal := by
    refine (h.count_le fun id job job' hmove hheld => ?_).trans (hc.principals principal)
    simp only [Bool.and_eq_true, beq_iff_eq, Option.isSome_iff_exists] at hheld ⊢
    obtain ⟨hprincipal, group, hgroup⟩ := hheld
    exact ⟨hmove.principal.symm.trans hprincipal, group, hmove.group hgroup⟩
  jobs := by
    refine (h.count_le fun id job job' hmove hlive => ?_).trans hc.jobs
    simpa using hmove.live (by simpa using hlive)

/-- A job that holds no slot and enters within the bound on jobs. -/
theorem Capacity.insert (hc : Capacity config core) (h : core'.jobs = core.jobs.insert id job)
    (hgroup : job.state.group = none)
    (hroom : job.state.isTerminal ∨ core.live < config.maxJobs) : Capacity config core' where
  groups group := by
    rw [occupied, h]
    exact (count_insert_of_not (by simp [hgroup])).trans (hc.groups group)
  principals principal := by
    rw [active, h]
    exact (count_insert_of_not (by simp [hgroup])).trans (hc.principals principal)
  jobs := by
    rw [live, h]
    obtain hterminal | hroom := hroom
    · exact (count_insert_of_not (by simp [hterminal])).trans hc.jobs
    · exact count_insert_le.trans hroom

/-- A queued job that takes a free slot within the share of its principal. -/
theorem Capacity.place {group : Text} {s : Job → State} (hc : Capacity config core)
    (h : core'.jobs = core.jobs.modify id fun job => job.withState (s job))
    (hjob : core.jobs.get? id = some job) (hqueued : job.state = .queued)
    (hplaced : (s job).placement = some (lease, group))
    (hslot : core.occupied group < (config.groups.get? group).getD 0)
    (hshare : core.active job.principal < config.maxActivePerPrincipal) :
    Capacity config core' := by
  have hgroup : (s job).group = some group := group_of_placement hplaced
  refine ⟨fun other => ?_, fun other => ?_, ?_⟩
  · rw [occupied, h]
    by_cases heq : other = group
    · exact heq ▸ count_modify_le.trans hslot
    · refine (count_modify_of fun w hw hcounted => ?_).trans (hc.groups other)
      cases hjob.symm.trans hw
      simp only [Job.withState, hgroup, beq_iff_eq, Option.some.injEq] at hcounted
      exact absurd hcounted.symm heq
  · rw [active, h]
    by_cases heq : other = job.principal
    · exact heq ▸ count_modify_le.trans hshare
    · refine (count_modify_of fun w hw hcounted => ?_).trans (hc.principals other)
      cases hjob.symm.trans hw
      simp only [Job.withState, Bool.and_eq_true, beq_iff_eq] at hcounted
      exact absurd hcounted.1.symm heq
  · rw [live, h]
    refine (count_modify_of fun w hw _ => ?_).trans hc.jobs
    cases hjob.symm.trans hw
    simp [hqueued, State.isTerminal]

/-- Elementary steps keep the bounds. -/
theorem Step.capacity (h : Step config powers core core') (hc : Capacity config core) :
    Capacity config core' := by
  cases h with
  | rewrite _ h => exact h.capacity hc
  | number _ _ h =>
    have hstay : Rewrites powers core.jobs core'.jobs := h ▸ Rewrites.refl
    exact hstay.capacity hc
  | enter _ h _ new room =>
    exact hc.insert h (by rw [new.queued]; rfl) (.inr room)
  | place _ _ _ h hjob queued placed slot share =>
    exact hc.place h hjob queued placed slot share
  | archive _ h =>
    refine ⟨fun group => ?_, fun principal => ?_, ?_⟩
    · rw [occupied, h]
      exact count_erase_le.trans (hc.groups group)
    · rw [active, h]
      exact count_erase_le.trans (hc.principals principal)
    · rw [live, h]
      exact count_erase_le.trans hc.jobs
  | @load job _ h _ terminal =>
    refine hc.insert h ?_ (.inl terminal)
    cases hgroup : job.state.group with
    | none => rfl
    | some group => simp [not_terminal_of_group hgroup] at terminal

/-- In every reachable state the slots of a group bound its holders, the share of a principal
bounds what it holds, and the nonterminal jobs are at most `max_jobs`. -/
theorem reachable_capacity {sha : Wire.Digest} (h : Reachable sha config core) :
    (∀ group, core.occupied group ≤ (config.groups.get? group).getD 0) ∧
      (∀ principal, core.active principal ≤ config.maxActivePerPrincipal) ∧
      core.live ≤ config.maxJobs := by
  have hcapacity : Capacity config core := by
    refine h.induction (fun core hjobs _ => ?_) fun _ _ _ step => step.capacity
    refine ⟨fun group => ?_, fun principal => ?_, ?_⟩
    · rw [occupied, hjobs]
      exact Nat.zero_le _
    · rw [active, hjobs]
      exact Nat.zero_le _
    · rw [live, hjobs]
      exact Nat.zero_le _
  exact ⟨hcapacity.groups, hcapacity.principals, hcapacity.jobs⟩

set_option maxRecDepth 8000 in
/-- The small machine with a job in its slot. -/
theorem reachable_capacity_small :
    let core := runAll Wire.sha256 smallConfig (.initial Wire.sha256 smallConfig)
      [.enqueue "desk" (smallRequest 'a' 10) 0]
    core.active "team" = 1 ∧ core.occupied "gpu" ≤ 1 :=
  ⟨by decide, (reachable_capacity ⟨_, _, smallConfig_new _, rfl⟩).1 "gpu"⟩

end MiniDregg.Scheduler
