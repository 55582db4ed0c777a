import MiniDregg.Scheduler.Operations

/-!
# Leases

A lease number stands for one placement: it is taken from the counter once,
dispatched at most once, and a sent job keeps it, with its slot, until its
controller reports under that number or the operator resolves the job.

## Implementation notes

Placements are compared across a call by the states before and after it. The
counter separates the numbers of the past from those to come, so two
assignments of one number cannot lie in two calls; within one call the numbers
of different jobs differ.
-/

namespace MiniDregg.Scheduler

open Fallible Store State OrderedMap Steps

variable {sha : Wire.Digest} {config : Config} {powers : Powers} {core core' : Core}
  {id id' : Text} {job job' : Job} {lease : Nat} {group : Text}

/-- The lease under which a job holds a slot. -/
def State.heldLease (state : State) : Option Nat := (state.placement.or state.sent).map Prod.fst

/-- A lease is assigned to the unsent placement of a job. -/
def Core.PlacedAt (core : Core) (id : Text) (lease : Nat) : Prop :=
  ∃ job group, core.jobs.get? id = some job ∧ job.state.placement = some (lease, group)

/-- A job of a controller was sent under a lease and holds a slot of a group. -/
def Core.SentAt (core : Core) (id controller : Text) (lease : Nat) (group : Text) : Prop :=
  ∃ job, core.jobs.get? id = some job ∧ job.state.sent = some (lease, group) ∧
    job.controller = controller

/-- A call assigns a lease to a job. -/
def Assigns (sha : Wire.Digest) (config : Config) (core : Core) (op : Op) (id : Text)
    (lease : Nat) : Prop :=
  (op.run sha config core).2.PlacedAt id lease ∧ ¬core.PlacedAt id lease

/-- Leases in use lie below the counter and belong to one job each. -/
structure LeasesDistinct (core : Core) : Prop where
  bounded : ∀ {id job lease}, core.jobs.get? id = some job → job.state.heldLease = some lease →
    lease < core.next
  distinct : ∀ {id id' job job' lease}, core.jobs.get? id = some job →
    core.jobs.get? id' = some job' → job.state.heldLease = some lease →
    job'.state.heldLease = some lease → id = id'

namespace State

variable {state : State}

theorem lease_of_placement (h : state.placement = some (lease, group)) :
    state.heldLease = some lease := by
  rw [State.heldLease, h]
  rfl

theorem lease_of_sent (h : state.sent = some (lease, group)) : state.heldLease = some lease := by
  cases state <;> simp [State.heldLease, placement, sent] at h ⊢
  all_goals exact h.1

theorem lease_terminal (h : state.isTerminal = true) : state.heldLease = none := by
  cases state <;> simp [isTerminal] at h
  rfl

theorem placement_of_sent (h : state.sent = some (lease, group)) : state.placement = none := by
  cases state <;> simp [placement, sent] at h ⊢

end State

section
variable (h : Move powers id job job')
include h

/-- No move takes a lease. -/
theorem Move.heldLease (hlease : job'.state.heldLease = some lease) :
    job.state.heldLease = some lease := by
  cases h with
  | stay => exact hlease
  | drop | supersede | complete => cases hlease
  | mark h h' =>
    cases (lease_of_sent h').symm.trans hlease
    exact lease_of_sent h
  | send h h' =>
    cases (lease_of_sent h').symm.trans hlease
    exact lease_of_placement h

/-- A terminal job does not move. -/
theorem Move.terminal (hterminal : job.state.isTerminal = true) : job' = job := by
  have hnone := lease_terminal hterminal
  cases h with
  | stay => rfl
  | drop live => cases live.symm.trans hterminal
  | supersede h | send h => cases (lease_of_placement h).symm.trans hnone
  | mark h | complete h => cases (lease_of_sent h).symm.trans hnone

/-- No move makes a placement. -/
theorem Move.placement (hplaced : job'.state.placement = some (lease, group)) :
    job'.state = job.state := by
  cases h with
  | stay => rfl
  | drop | supersede | complete => cases hplaced
  | mark _ h' | send _ h' => cases (placement_of_sent h').symm.trans hplaced

/-- A sent job stays sent under its lease unless it is completed within the powers of the call. -/
theorem Move.sent (hsent : job.state.sent = some (lease, group)) :
    job'.state.sent = some (lease, group) ∨ powers.completes id job.controller lease := by
  cases h with
  | stay => exact .inl hsent
  | drop _ h =>
    cases h.symm.trans hsent
  | supersede h | send h => cases (placement_of_sent hsent).symm.trans h
  | mark h h' =>
    cases h.symm.trans hsent
    exact .inl h'
  | complete h _ power =>
    cases h.symm.trans hsent
    exact .inr power

end

/-- How a step puts a queued job under the next lease, and touches nothing else. -/
def PlacedBy (core core' : Core) (id : Text) (job' : Job) : Prop :=
  ∃ job s group, core.jobs.get? id = some job ∧ job.state = .queued ∧ job' = job.withState s ∧
    s.placement = some (core.next, group) ∧ core'.next = core.next + 1 ∧
    ∀ id', id' ≠ id → core'.jobs.get? id' = core.jobs.get? id'

/-- Where a job comes from: it moved, it entered without a lease, or it was placed. -/
theorem Step.origin (h : Step config powers core core') (hjob' : core'.jobs.get? id = some job') :
    (∃ job, core.jobs.get? id = some job ∧ Move powers id job job') ∨
      (core.jobs.get? id = none ∧ job'.state.heldLease = none) ∨ PlacedBy core core' id job' := by
  cases h with
  | rewrite _ h => exact .inl (h.source hjob')
  | number _ _ h => exact .inl ⟨job', h ▸ hjob', .stay job'⟩
  | enter _ h fresh new =>
    obtain ⟨rfl, rfl⟩ | hjob' := of_get?_insert (h ▸ hjob')
    · exact .inr (.inl ⟨fresh, by rw [new.queued]; rfl⟩)
    · exact .inl ⟨job', hjob', .stay job'⟩
  | @place chosen job _ group s hnext _ hlease h hjob queued placed =>
    have hothers : ∀ id', id' ≠ chosen → core'.jobs.get? id' = core.jobs.get? id' := by
      intro id' hne
      rw [h, get?_modify, if_neg hne]
    by_cases heq : id = chosen
    · subst heq
      rw [h, get?_modify, if_pos rfl, hjob] at hjob'
      cases hjob'
      exact .inr (.inr ⟨job, s job, group, hjob, queued, rfl, hlease ▸ placed, hnext, hothers⟩)
    · exact .inl ⟨job', hothers id heq ▸ hjob', .stay job'⟩
  | archive _ h =>
    rw [h, get?_erase] at hjob'
    split_ifs at hjob'
    exact .inl ⟨job', hjob', .stay job'⟩
  | load _ h fresh terminal =>
    obtain ⟨rfl, rfl⟩ | hjob' := of_get?_insert (h ▸ hjob')
    · exact .inr (.inl ⟨fresh, lease_terminal terminal⟩)
    · exact .inl ⟨job', hjob', .stay job'⟩

theorem Step.next_le (h : Step config powers core core') : core.next ≤ core'.next := by
  cases h <;> omega

theorem Steps.next_le (h : Steps config powers core core') : core.next ≤ core'.next :=
  h.preserves (P := fun after => core.next ≤ after.next)
    (fun _ _ step hle => hle.trans step.next_le) le_rfl

theorem PlacedBy.heldLease (h : PlacedBy core core' id job') :
    job'.state.heldLease = some core.next := by
  obtain ⟨job, s, group, -, -, rfl, hs, -⟩ := h
  exact lease_of_placement hs

/-- A lease in use after a step was in use before it, or is the next number. -/
theorem Step.heldLease (h : Step config powers core core') (hjob' : core'.jobs.get? id = some job')
    (hlease : job'.state.heldLease = some lease) :
    (∃ job, core.jobs.get? id = some job ∧ job.state.heldLease = some lease) ∨
      lease = core.next ∧ PlacedBy core core' id job' := by
  obtain ⟨job, hjob, hmove⟩ | ⟨-, hnone⟩ | hplaced := h.origin hjob'
  · exact .inl ⟨job, hjob, hmove.heldLease hlease⟩
  · cases hnone.symm.trans hlease
  · cases hplaced.heldLease.symm.trans hlease
    exact .inr ⟨rfl, hplaced⟩

theorem Step.leasesDistinct (h : Step config powers core core') (hd : LeasesDistinct core) :
    LeasesDistinct core' where
  bounded := by
    intro id job' lease hjob' hlease
    obtain ⟨job, hjob, hold⟩ | ⟨rfl, job, s, group, -, -, -, -, hnext, -⟩ :=
      h.heldLease hjob' hlease
    · exact (hd.bounded hjob hold).trans_le h.next_le
    · omega
  distinct := by
    intro id id' job job' lease hjob hjob' hlease hlease'
    obtain ⟨old, hold, hlo⟩ | ⟨hnext, hplaced⟩ := h.heldLease hjob hlease
    · obtain ⟨old', hold', hlo'⟩ | ⟨hnext, -⟩ := h.heldLease hjob' hlease'
      · exact hd.distinct hold hold' hlo hlo'
      · exact absurd (hd.bounded hold hlo) (by omega)
    · obtain ⟨old', hold', hlo'⟩ | ⟨-, hplaced'⟩ := h.heldLease hjob' hlease'
      · exact absurd (hd.bounded hold' hlo') (by omega)
      · -- A step places one job only: the other one is as before, and was queued.
        by_contra hne
        obtain ⟨-, -, -, -, -, -, -, -, hothers⟩ := hplaced
        obtain ⟨old', s, group, hold', hqueued, -⟩ := hplaced'
        have hsame := (hothers id' (Ne.symm hne)).symm.trans hjob'
        cases hold'.symm.trans hsame
        rw [hqueued] at hlease'
        cases hlease'

theorem Reachable.leasesDistinct (h : Reachable sha config core) : LeasesDistinct core := by
  refine h.induction (fun core hjobs _ => ?_) fun _ _ _ step => step.leasesDistinct
  constructor
  · intro id job lease hjob
    rw [hjobs] at hjob
    cases hjob
  · intro id id' job job' lease hjob
    rw [hjobs] at hjob
    cases hjob

/-- An unsent placement after some steps was there before them, or its lease is from the
counter since. -/
theorem Steps.placedAt (h : Steps config powers core core') (hplaced : core'.PlacedAt id lease) :
    core.PlacedAt id lease ∨ core.next ≤ lease := by
  induction h with
  | refl => exact .inl hplaced
  | tail hsteps hstep ih =>
    obtain ⟨job', group, hjob', hplacement⟩ := hplaced
    obtain ⟨job, hjob, hmove⟩ | ⟨-, hnone⟩ | hby := hstep.origin hjob'
    · have hstate := hmove.placement hplacement
      exact ih ⟨job, group, hjob, hstate ▸ hplacement⟩
    · cases (lease_of_placement hplacement).symm.trans hnone
    · cases (lease_of_placement hplacement).symm.trans hby.heldLease
      exact .inr (next_le hsteps)

/-- A sent job stays sent through a step, unless the step completes it. -/
theorem Step.sent {controller : Text} (h : Step config powers core core')
    (hsent : core.SentAt id controller lease group) :
    core'.SentAt id controller lease group ∨ powers.completes id controller lease := by
  obtain ⟨job, hjob, hsent, rfl⟩ := hsent
  cases h with
  | rewrite _ h =>
    obtain ⟨hnone, -⟩ | ⟨old, new, hold, hnew, hmove⟩ := h id
    · cases hnone.symm.trans hjob
    · cases hold.symm.trans hjob
      exact (hmove.sent hsent).imp_left fun h => ⟨new, hnew, h, hmove.controller⟩
  | number _ _ h => exact .inl ⟨job, h ▸ hjob, hsent, rfl⟩
  | enter _ h fresh | load _ h fresh =>
    refine .inl ⟨job, ?_, hsent, rfl⟩
    rw [h, get?_insert_ne, hjob]
    rintro rfl
    rw [fresh] at hjob
    cases hjob
  | place _ _ _ h hchosen queued =>
    refine .inl ⟨job, ?_, hsent, rfl⟩
    rw [h, get?_modify, if_neg, hjob]
    rintro rfl
    cases hchosen.symm.trans hjob
    rw [queued] at hsent
    cases hsent
  | archive _ h hold terminal =>
    refine .inl ⟨job, ?_, hsent, rfl⟩
    rw [h, get?_erase, if_neg, hjob]
    rintro rfl
    cases hold.symm.trans hjob
    cases (lease_terminal terminal).symm.trans (lease_of_sent hsent)

section History
variable {op op' : Op} {ops : List Op}

/-- A call assigns numbers between the counter before it and the counter after it. -/
theorem Assigns.lease_range (h : Reachable sha config core)
    (hassigns : Assigns sha config core op id lease) :
    core.next ≤ lease ∧ lease < (op.run sha config core).2.next := by
  obtain ⟨hafter, hbefore⟩ := hassigns
  refine ⟨((op.run_steps sha config h.keyed).placedAt hafter).resolve_left hbefore, ?_⟩
  obtain ⟨job, group, hjob, hplacement⟩ := hafter
  exact (h.run op).leasesDistinct.bounded hjob (lease_of_placement hplacement)

theorem runAll_next_le (ops : List Op) (h : Reachable sha config core) :
    core.next ≤ (runAll sha config core ops).next := by
  refine (runAll_induction (P := fun after => Reachable sha config after ∧ core.next ≤ after.next)
    (A := fun _ => True) (fun op after _ hafter => ⟨hafter.1.run op, ?_⟩) ⟨h, le_rfl⟩
    fun _ _ => trivial).2
  exact hafter.2.trans (next_le (op.run_steps sha config hafter.1.keyed))

/-- A lease that is used up: below the counter, and no placement bears it. -/
def Spent (lease : Nat) (core : Core) : Prop :=
  lease < core.next ∧ ∀ id, ¬core.PlacedAt id lease

theorem Spent.runAll (h : Spent lease core) (hreach : Reachable sha config core) (ops : List Op) :
    Spent lease (runAll sha config core ops) := by
  refine (runAll_induction (P := fun after => Reachable sha config after ∧ Spent lease after)
    (A := fun _ => True) (fun op after _ hafter => ⟨hafter.1.run op, ?_, fun id hplaced => ?_⟩)
    ⟨hreach, h⟩ fun _ _ => trivial).2
  · exact hafter.2.1.trans_le (next_le (op.run_steps sha config hafter.1.keyed))
  · obtain hold | hfresh := (op.run_steps sha config hafter.1.keyed).placedAt hplaced
    · exact hafter.2.2 id hold
    · exact absurd hafter.2.1 (by omega)

variable {controller attempt : Text} {now : Nat}

/-- A dispatch is accepted for the placement under its lease, which it turns into a sent job. -/
theorem dispatch_eq_ok (h : (dispatch controller id lease attempt now core).1 = .ok ()) :
    core.PlacedAt id lease ∧
      ∀ lease', ¬(dispatch controller id lease attempt now core).2.PlacedAt id lease' := by
  unfold dispatch at h ⊢
  split at h
  · cases h
  · split at h
    · cases h
    next hattempt _ old hinspect =>
      obtain ⟨hjob, -⟩ := inspect_eq_ok hinspect
      split at h
      next actual backend endpoint group expiresMs estimatedUs hstate =>
        split_ifs at h with hlease
        obtain ⟨rfl, hnow⟩ := hlease
        refine ⟨⟨old, group, hjob, by rw [hstate]; rfl⟩, fun lease' hplaced => ?_⟩
        obtain ⟨job', group', hjob', hplacement⟩ := hplaced
        simp only [if_neg hattempt, true_and, hnow, if_true, Core.setState,
          get?_modify, hjob, Option.map_some, Option.some.injEq] at hjob'
        subst hjob'
        cases hplacement
      · cases h

variable (hreach : Reachable sha config core)
include hreach

/-- An accepted dispatch uses its lease up. -/
theorem dispatch_spends (h : (dispatch controller id lease attempt now core).1 = .ok ()) :
    Spent lease (dispatch controller id lease attempt now core).2 := by
  obtain ⟨⟨job, group, hjob, hplacement⟩, hgone⟩ := dispatch_eq_ok h
  have hheld := lease_of_placement hplacement
  have hsteps := Op.run_steps sha config (.dispatch controller id lease attempt now) hreach.keyed
  have hbound := hreach.leasesDistinct.bounded hjob hheld
  refine ⟨hbound.trans_le (next_le hsteps), fun id' hplaced => ?_⟩
  obtain ⟨job', group', hjob', hplacement'⟩ | hfresh := hsteps.placedAt hplaced
  · have hid := hreach.leasesDistinct.distinct hjob hjob' hheld
      (lease_of_placement hplacement')
    exact hgone lease (hid ▸ hplaced)
  · omega

/-- A sent job keeps its lease and slot through calls that do not release it. -/
theorem runAll_sent (hsent : core.SentAt id controller lease group)
    (hops : ∀ op ∈ ops, ¬op.Releases id controller lease) :
    (runAll sha config core ops).SentAt id controller lease group := by
  refine (runAll_induction (P := fun after => Reachable sha config after ∧
    after.SentAt id controller lease group) (fun op after hop hafter => ⟨hafter.1.run op, ?_⟩)
    ⟨hreach, hsent⟩ hops).2
  refine (op.run_steps sha config hafter.1.keyed).preserves
    (P := fun core => core.SentAt id controller lease group) (fun _ _ hstep hstill => ?_) hafter.2
  exact (hstep.sent hstill).resolve_right hop

end History

/-- Whatever calls and restarts follow: a lease number is assigned to one job in one call, it is
dispatched at most once, and a sent job holds its slot under its lease until its controller
reports under that lease or the operator resolves the job. -/
theorem lease_safety (h : Reachable sha config core) :
    (∀ op id id' lease, Assigns sha config core op id lease →
      Assigns sha config core op id' lease → id = id') ∧
    (∀ op ops op' id id' lease, Assigns sha config core op id lease →
      ¬Assigns sha config (runAll sha config core (op :: ops)) op' id' lease) ∧
    (∀ controller id lease attempt now ops controller' id' attempt' now',
      (dispatch controller id lease attempt now core).1 = .ok () →
      (dispatch controller' id' lease attempt' now' (runAll sha config core
        (.dispatch controller id lease attempt now :: ops))).1 ≠ .ok ()) ∧
    (∀ id controller lease group ops, core.SentAt id controller lease group →
      (∀ op ∈ ops, ¬op.Releases id controller lease) →
      (runAll sha config core ops).SentAt id controller lease group) := by
  refine ⟨?_, ?_, ?_, fun _ _ _ _ _ hsent hops => runAll_sent h hsent hops⟩
  · rintro op id id' lease ⟨⟨job, _, hjob, hplaced⟩, -⟩ ⟨⟨job', _, hjob', hplaced'⟩, -⟩
    exact (h.run op).leasesDistinct.distinct hjob hjob' (lease_of_placement hplaced)
      (lease_of_placement hplaced')
  · intro op ops op' id id' lease hfirst hsecond
    have hrange := hfirst.lease_range h
    have hlater := (hsecond.lease_range (h.runAll (op :: ops))).1
    have hnext := runAll_next_le ops (h.run op)
    exact absurd (hrange.2.trans_le hnext) (not_lt.2 hlater)
  · intro controller id lease attempt now ops controller' id' attempt' now' hfirst hsecond
    have hspent := (dispatch_spends h hfirst).runAll
      (h.run (.dispatch controller id lease attempt now)) ops
    exact hspent.2 id' (dispatch_eq_ok hsecond).1

set_option maxRecDepth 8000 in
/-- On the small machine, cancel, drain, a restart and time leave a sent job in its slot. -/
theorem lease_safety_small :
    (runAll Wire.sha256 smallConfig
      (runAll Wire.sha256 smallConfig (.initial Wire.sha256 smallConfig)
        [.enqueue "desk" (smallRequest 'a' 10) 0,
          .dispatch "desk" (List.replicate 64 'a') 2 "try" 1])
      [.cancel "desk" (List.replicate 64 'a'), .setDraining true, .recover,
        .schedule 1000]).SentAt (List.replicate 64 'a') "desk" 2 "gpu" := by
  refine (lease_safety ⟨_, _, smallConfig_new _, rfl⟩).2.2.2 _ _ _ _ _ ⟨_, rfl, rfl, rfl⟩ ?_
  simp [Op.Releases]

end MiniDregg.Scheduler
