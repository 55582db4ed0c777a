import MiniDregg.Scheduler.Histories

/-!
# Settlement

A save moves the terminal jobs of a state into the archive. `settled` says what
the pair of state and archive is after that, and `restarted` what a start makes
of such a pair: the rewriting of `recover`, settled again.

A start does not see whether the terminal jobs of a snapshot have their receipts
already: from the snapshot with any first part of the receipts it makes the same
pair as from the settled one.

## Implementation notes

The rewriting of `recover` gives nothing back for a terminal job and leaves it
as it is. This is all the proof uses of it.
-/

namespace MiniDregg.Scheduler

open Fallible Store OrderedMap List Service

/-- An archive with the receipts of further jobs. -/
def archived (jobs : List (Text × Job)) (receipts : OrderedMap Text Job) : OrderedMap Text Job :=
  jobs.foldl (fun receipts e => receipts.insert e.1 e.2) receipts

/-- A state and its archive, with the terminal jobs moved from the one to the other. -/
def settled (core : Core) (receipts : OrderedMap Text Job) : Core × OrderedMap Text Job :=
  let receipts := archived (terminal core) receipts
  ({ core with
      jobs := core.jobs.filter fun job => !job.state.isTerminal
      archivedReceipts := receipts.entries.length
      archivedBytes := receiptsBytes receipts
      archivedDrained := receipts.count fun job => job.state.isDrained }, receipts)

/-- What a start makes of a state and its archive. -/
def restarted (sha : Wire.Digest) (config : Config) (core : Core)
    (receipts : OrderedMap Text Job) : Core × OrderedMap Text Job :=
  settled (recover config sha core).2 receipts

theorem settled_jobs (core : Core) (receipts : OrderedMap Text Job) :
    (settled core receipts).1.jobs = core.jobs.filter fun job => !job.state.isTerminal := rfl

theorem settled_receipts (core : Core) (receipts : OrderedMap Text Job) :
    (settled core receipts).2 = archived (terminal core) receipts := rfl

variable {receipts : OrderedMap Text Job} {core : Core}

section Archived
variable {jobs first rest : List (Text × Job)} {id : Text} {e : Text × Job}

theorem archived_cons (e : Text × Job) (jobs : List (Text × Job)) (receipts : OrderedMap Text Job) :
    archived (e :: jobs) receipts = archived jobs (receipts.insert e.1 e.2) := rfl

theorem get?_archived_of_not_mem (h : id ∉ jobs.map Prod.fst) :
    (archived jobs receipts).get? id = receipts.get? id := by
  induction jobs generalizing receipts with
  | nil => rfl
  | cons e jobs ih =>
    rw [map_cons, mem_cons, not_or] at h
    rw [archived_cons, ih h.2, get?_insert_ne h.1]

theorem get?_archived_of_mem (hnodup : (jobs.map Prod.fst).Nodup) (h : e ∈ jobs) :
    (archived jobs receipts).get? e.1 = some e.2 := by
  induction jobs generalizing receipts with
  | nil => cases h
  | cons d jobs ih =>
    rw [map_cons, nodup_cons] at hnodup
    rw [archived_cons]
    rcases mem_cons.1 h with rfl | h
    · rw [get?_archived_of_not_mem hnodup.1, get?_insert_self]
    · exact ih hnodup.2 h

theorem terminal_nodup (core : Core) : ((terminal core).map Prod.fst).Nodup :=
  core.jobs.keys_nodup.sublist (filter_sublist.map _)

theorem mem_terminal_iff : e ∈ terminal core ↔
    core.jobs.get? e.1 = some e.2 ∧ e.2.state.isTerminal = true := by
  rw [terminal, mem_filter, get?_eq_some]

theorem not_mem_terminal (h : ∀ job, core.jobs.get? id = some job → job.state.isTerminal = false) :
    id ∉ (terminal core).map Prod.fst := by
  intro hmem
  obtain ⟨e, he, rfl⟩ := mem_map.1 hmem
  obtain ⟨hjob, hterminal⟩ := mem_terminal_iff.1 he
  rw [h e.2 hjob] at hterminal
  cases hterminal

/-- The archive after a settlement: the terminal jobs, and what was there. -/
theorem get?_archived_terminal :
    (archived (terminal core) receipts).get? id =
      ((core.jobs.get? id).filter fun job => job.state.isTerminal).or (receipts.get? id) := by
  cases hjob : core.jobs.get? id with
  | none =>
    rw [get?_archived_of_not_mem (not_mem_terminal fun job hjob' => ?_)]
    · rfl
    · cases hjob.symm.trans hjob'
  | some job =>
    cases hterminal : job.state.isTerminal with
    | true =>
      have hmem : (id, job) ∈ terminal core := mem_terminal_iff.2 ⟨hjob, hterminal⟩
      rw [get?_archived_of_mem (terminal_nodup core) hmem]
      simp [Option.filter, hterminal]
    | false =>
      rw [get?_archived_of_not_mem (not_mem_terminal fun job' hjob' => ?_)]
      · simp [Option.filter, hterminal]
      · cases hjob.symm.trans hjob'
        exact hterminal

/-- Archiving agrees with what is there: nothing is replaced. -/
theorem archived_extends (hnodup : (jobs.map Prod.fst).Nodup)
    (hagrees : ∀ e ∈ jobs, ∀ receipt, receipts.get? e.1 = some receipt → e.2 = receipt) {job : Job}
    (h : receipts.get? id = some job) : (archived jobs receipts).get? id = some job := by
  by_cases hmem : id ∈ jobs.map Prod.fst
  · obtain ⟨e, he, rfl⟩ := mem_map.1 hmem
    rw [get?_archived_of_mem hnodup he, hagrees e he job h]
  · rw [get?_archived_of_not_mem hmem, h]

end Archived

section Restart
variable {sha : Wire.Digest} {config : Config}

theorem recoverJob_terminal {job : Job} (h : job.state.isTerminal = true) :
    recoverJob job = (job, none) := by
  unfold recoverJob
  cases hstate : job.state with
  | terminal outcome lease => rfl
  | _ => simp [hstate, State.isTerminal] at h

/-- Terminal jobs have no part in the refunds of a restart. -/
theorem refunds_filter (jobs : OrderedMap Text Job) :
    refunds recoverJob (jobs.filter fun job => !job.state.isTerminal) = refunds recoverJob jobs := by
  have hvalues : (jobs.filter fun job => !job.state.isTerminal).values =
      jobs.values.filter fun job => !job.state.isTerminal := by
    rw [OrderedMap.values, OrderedMap.values, filter_map]
    rfl
  rw [refunds, refunds, hvalues, filterMap_filter]
  congr 1
  funext job
  cases hterminal : job.state.isTerminal with
  | true => rw [recoverJob_terminal hterminal]; rfl
  | false => rfl

theorem recover_eq (h : core.version = 1) (hdigest : core.configDigest = config.fingerprint sha) :
    recover config sha core = (.ok (), core.rewriteJobs recoverJob) := by
  have hsame : ¬(core.version ≠ 1 ∨ core.configDigest ≠ config.fingerprint sha) := by
    rintro (hne | hne)
    · exact hne h
    · exact hne hdigest
  rw [recover, if_neg hsame]

/-- The jobs left by a restart are those a restart of the settled state leaves. -/
theorem live_after_restart (jobs : OrderedMap Text Job) :
    ((jobs.filter fun job => !job.state.isTerminal).map fun job => (recoverJob job).1).filter
        (fun job => !job.state.isTerminal) =
      (jobs.map fun job => (recoverJob job).1).filter fun job => !job.state.isTerminal := by
  apply ext_get?
  intro id
  rw [get?_filter, get?_filter, get?_map, get?_map,
    get?_filter]
  cases jobs.get? id with
  | none => rfl
  | some job =>
    cases hterminal : job.state.isTerminal with
    | true => simp [Option.filter, hterminal, recoverJob_terminal hterminal]
    | false => simp [Option.filter, hterminal]

/-- A restart of a snapshot whose receipts are written in part. -/
theorem restarted_settled {first rest : List (Text × Job)} (hversion : core.version = 1)
    (hdigest : core.configDigest = config.fingerprint sha)
    (hparts : terminal core = first ++ rest) :
    restarted sha config core (archived first receipts) =
      restarted sha config (settled core receipts).1 (settled core receipts).2 := by
  have hreceipts : archived (terminal (core.rewriteJobs recoverJob))
        (archived first receipts) =
      archived (terminal ((settled core receipts).1.rewriteJobs recoverJob))
        (settled core receipts).2 := by
    apply ext_get?
    intro id
    have hfirst (hlive : ∀ job, core.jobs.get? id = some job → job.state.isTerminal = false) :
        (archived first receipts).get? id = receipts.get? id := by
      apply get?_archived_of_not_mem
      intro hmem
      apply not_mem_terminal hlive
      rw [hparts, map_append]
      exact mem_append_left _ hmem
    rw [get?_archived_terminal, get?_archived_terminal, Core.rewriteJobs_jobs,
      Core.rewriteJobs_jobs,
      settled_jobs, settled_receipts, get?_map, get?_map,
      get?_filter, get?_archived_terminal]
    cases hjob : core.jobs.get? id with
    | none =>
      rw [hfirst fun job hjob' => by cases hjob.symm.trans hjob']
      rfl
    | some job =>
      cases hterminal : job.state.isTerminal with
      | true => simp [Option.filter, hterminal, recoverJob_terminal hterminal]
      | false =>
        rw [hfirst fun job' hjob' => by
          cases hjob.symm.trans hjob'
          exact hterminal]
        simp [Option.filter, hterminal]
  have hleft : recover config sha core = (.ok (), core.rewriteJobs recoverJob) :=
    recover_eq hversion hdigest
  have hright : recover config sha (settled core receipts).1 =
      (.ok (), (settled core receipts).1.rewriteJobs recoverJob) := recover_eq hversion hdigest
  rw [restarted, restarted, hleft, hright]
  have hjobs := live_after_restart core.jobs
  have hrefunds := refunds_filter core.jobs
  simp only [settled] at hreceipts ⊢
  rw [hreceipts, rewriteJobs_eq, rewriteJobs_eq]
  simp only [hjobs, hrefunds]

end Restart

end MiniDregg.Scheduler
