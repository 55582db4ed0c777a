import MiniDregg.Scheduler.Operations

/-!
# Rounds of the placement loop

`schedule` goes round until no waiting job has a free slot. Every round looks up jobs, backends,
groups and models; under a valid configuration, with jobs under their identities, each lookup
finds what it asks for, and a request that is eligible for a backend is so short that its cost
fits a word. A round places the earliest job of a principal of the least service, among those
that can be placed, and the loop ends well only when none can.
-/

namespace MiniDregg.Scheduler

open Fallible Store OrderedMap List Nat Choice Scheduler.Core

section Rounds
variable (config : Config) (now : Nat)

/-- The rounds of the placement loop: the state in which each looks for a choice, and the choice
that it places. -/
def rounds : Nat → Core → List (Core × Option Choice)
  | 0, _ => []
  | fuel + 1, core =>
    let core := core.advanceFloor
    match choices config core with
    | .ok (choice :: _) =>
      (core, some choice) ::
        match place config now choice core with
        | (.ok (), core) => rounds fuel core
        | _ => []
    | _ => [(core, none)]

/-- The rounds of `schedule`. -/
def scheduleRounds (core : Core) : List (Core × Option Choice) :=
  let core := core.rewriteJobs (expireJob now)
  if core.draining then [] else rounds config now (core.jobs.entries.length + 1) core

end Rounds

variable {config : Config} {core : Core} {now fuel : Nat} {round : Core × Option Choice}

/-- A round starts from jobs under their identities and places its best choice. -/
theorem rounds_spec (hk : Keyed core) (hmem : round ∈ rounds config now fuel core) :
    Keyed round.1 ∧
      ∀ choice, round.2 = some choice → ∃ rest, choices config round.1 = .ok (choice :: rest) := by
  induction fuel generalizing core with
  | zero => cases hmem
  | succ fuel ih =>
    simp only [rounds] at hmem
    split at hmem
    next choice rest hchoices =>
      rcases mem_cons.1 hmem with rfl | hmem
      · refine ⟨hk.advanceFloor, ?_⟩
        rintro _ ⟨⟩
        exact ⟨rest, hchoices⟩
      · split at hmem
        next after hplace =>
          exact ih (hk.round hchoices hplace) hmem
        · cases hmem
    · obtain rfl := mem_singleton.1 hmem
      exact ⟨hk.advanceFloor, nofun⟩

theorem mem_scheduleRounds (hmem : round ∈ scheduleRounds config now core) :
    ∃ fuel, round ∈ rounds config now fuel (core.rewriteJobs (expireJob now)) := by
  unfold scheduleRounds at hmem
  dsimp only at hmem
  split at hmem
  · cases hmem
  · exact ⟨_, hmem⟩

section Costs

/-- The costs of the models are words of 32 bits, as the source holds them. -/
def Config.Words (config : Config) : Prop :=
  ∀ e ∈ config.backends.entries, ∀ m ∈ e.2.models.entries,
    m.2.inputUs < 2 ^ 32 ∧ m.2.outputUs < 2 ^ 32

/-- The integer cost of a request under a model. -/
def exactCost (request : Request) (model : Model) : Nat :=
  request.maxInput * model.inputUs + request.maxOutput * model.outputUs

/-- What a round charges for a choice: the exact cost, on the principal and on the placed job. -/
structure Charged (config : Config) (core : Core) (choice : Choice) (backend : Backend)
    (job : Job) : Prop where
  exact : ∃ model, backend.models.get? job.request.model = some model ∧
    choice.cost = exactCost job.request model
  placed : ∀ now core', place config now choice core = (.ok (), core') →
    core'.service job.principal = core.service job.principal + choice.cost ∧
      ∃ lease expiresMs, core'.jobs.get? choice.id = some (job.withState
        (.placed lease choice.backend backend.endpoint backend.group expiresMs choice.cost))

/-- The lookups of a round find what they ask for, and its costs are exact. -/
structure Served (config : Config) (core : Core) : Prop where
  group : ∀ name backend, config.backends.get? name = some backend →
    ∃ slots, config.groups.get? backend.group = some slots
  exact : ∀ job ∈ waiting core, ∀ name backend, config.backends.get? name = some backend →
    eligible backend job.pool job.request = true →
      ∃ model, backend.models.get? job.request.model = some model ∧
        cost backend job.request = .ok (exactCost job.request model)
  chosen : ∃ cs, choices config core = .ok cs ∧ ∀ choice ∈ cs, ∃ backend job,
    config.backends.get? choice.backend = some backend ∧ core.jobs.get? choice.id = some job ∧
      Charged config core choice backend job

theorem place_error {choice : Choice} {core' : Core} {e : String}
    (h : place config now choice core = (.error e, core')) :
    e = "scheduler sequence exhausted" ∨ e = "virtual service exhausted" := by
  unfold place at h
  split at h
  next hserial =>
    unfold serial at hserial
    split_ifs at hserial
    cases hserial
    cases h
    exact .inl rfl
  · split at h
    · dsimp only at h
      split_ifs at h
      · cases h
      · cases h
        exact .inr rfl
    · cases h

/-- A placement adds the cost of its choice to the service and puts it down in the job. -/
theorem place_charges {choice : Choice} {core' : Core} {backend : Backend} {job : Job}
    (hbackend : config.backends.get? choice.backend = some backend)
    (hjob : core.jobs.get? choice.id = some job)
    (h : place config now choice core = (.ok (), core')) :
    core'.service job.principal = core.service job.principal + choice.cost ∧
      ∃ lease expiresMs, core'.jobs.get? choice.id = some (job.withState
        (.placed lease choice.backend backend.endpoint backend.group expiresMs choice.cost)) := by
  unfold place at h
  split at h
  · cases h
  next lease numbered hserial =>
    obtain ⟨-, rfl, -⟩ := serial_eq_ok hserial
    simp only [hbackend, hjob] at h
    split_ifs at h
    · cases h
      refine ⟨?_, lease, min (saturatingAdd now config.leaseMs) job.request.queueDeadlineMs, ?_⟩
      · rw [Core.service, get?_insert_self]
        rfl
      · rw [get?_modify, if_pos rfl, hjob]
        rfl
    · cases h

section
variable (hwords : config.Words)
include hwords

/-- Input and output of an eligible request are together below `2 ^ 32` tokens, so that the two
products sum to less than `2 ^ 64`. -/
theorem cost_exact {name : Text} {backend : Backend} {pool : Text} {request : Request}
    (hbackend : config.backends.get? name = some backend)
    (h : eligible backend pool request = true) :
    ∃ model, backend.models.get? request.model = some model ∧
      cost backend request = .ok (exactCost request model) := by
  cases hmodel : backend.models.get? request.model with
  | none => simp [eligible, hmodel] at h
  | some model =>
    simp only [eligible, hmodel, Bool.and_eq_true, decide_eq_true_eq] at h
    obtain ⟨-, ⟨⟨hsum, -⟩, -⟩, -⟩ := h
    obtain ⟨hinput, houtput⟩ := hwords _ (get?_eq_some.1 hbackend) _ (get?_eq_some.1 hmodel)
    have hread := mul_le_mul_left request.maxInput (le_pred_of_lt hinput)
    have hwrite := mul_le_mul_left request.maxOutput (le_pred_of_lt houtput)
    refine ⟨model, rfl, ?_⟩
    simp only [cost, hmodel, exactCost]
    rw [if_pos]
    simp only [pred_eq_sub_one, reducePow, reduceSub] at hread hwrite hsum ⊢
    omega

theorem choicesFrom_ok (core : Core) (seen : List (Text × Text × Text)) (jobs : List Job) :
    ∃ cs, choicesFrom config core seen jobs = .ok cs := by
  induction jobs generalizing seen with
  | nil => exact ⟨[], rfl⟩
  | cons job rest ih =>
    obtain ⟨offered, hoffered⟩ : ∃ cs, offers config core job = .ok cs := by
      refine mapM_ok fun e he => ?_
      obtain ⟨hentry, hoffer⟩ := mem_filter.1 he
      obtain ⟨model, -, hcost⟩ := cost_exact hwords (get?_eq_some.2 hentry)
        (Bool.and_eq_true_iff.1 hoffer).1
      exact ⟨_, by rw [hcost]; rfl⟩
    simp only [choicesFrom, hoffered, ok_bind]
    split
    · exact ih seen
    · obtain ⟨others, hothers⟩ := ih (if offered.isEmpty then seen else
        (job.principal, job.pool, job.request.model) :: seen)
      exact ⟨offered ++ others, by rw [hothers, ok_bind, pure_eq_ok]⟩

theorem choices_ok (core : Core) : ∃ cs, choices config core = .ok cs := by
  obtain ⟨cs, hcs⟩ := choicesFrom_ok hwords core [] (waiting core)
  exact ⟨_, by rw [choices, hcs, ok_bind, pure_eq_ok]⟩

variable (hvalid : config.validate = .ok ()) (hk : Keyed core)
include hvalid hk

/-- A round of a valid configuration. -/
theorem served : Served config core := by
  refine ⟨fun name backend hbackend => ?_, fun job _ name backend => cost_exact hwords, ?_⟩
  · simp only [Config.validate, check_bind_eq_ok, forM_eq_ok] at hvalid
    obtain ⟨-, -, -, hbackends⟩ := hvalid
    have hentry := (hbackends _ (get?_eq_some.1 hbackend)).1
    simp only [refuseIf_eq_ok, Bool.or_eq_false_iff, Bool.not_eq_false'] at hentry
    exact contains_iff.1 hentry.1.1.2
  · obtain ⟨cs, hchoices⟩ := choices_ok hwords core
    refine ⟨_, hchoices, fun choice hmem => ?_⟩
    obtain ⟨job, hjob, hoffered⟩ := choices_job hk hchoices hmem
    obtain ⟨backend, hbackend, heligible, -, hcost⟩ := hoffered.backend
    obtain ⟨model, hmodel, hexact⟩ := cost_exact hwords hbackend heligible
    rw [hcost, Except.ok.injEq] at hexact
    exact ⟨backend, job, hbackend, hjob, ⟨model, hmodel, hexact⟩,
      fun now core' => place_charges hbackend hjob⟩

theorem placements_error :
    (placements config now fuel core).1 ≠ .error "scheduling cost overflows" := by
  induction fuel generalizing core with
  | zero => simp [placements]
  | succ fuel ih =>
    obtain ⟨cs, hchoices, -⟩ := (served hwords hvalid hk.advanceFloor).chosen
    simp only [placements, hchoices]
    cases cs with
    | nil => simp
    | cons choice rest =>
      dsimp only
      split
      next e after hplace =>
        obtain rfl | rfl := place_error hplace
        · simp
        · simp
      next after hplace =>
        exact ih (hk.round hchoices hplace)

end

/-- In every reachable state and at every time `schedule` computes exact costs and does not
report an overflow, and in each of its rounds every lookup of a job, a backend, a group or a
model finds what it asks for. -/
theorem schedule_served {sha : Wire.Digest} (hwords : config.Words)
    (h : Reachable sha config core) (now : Nat) :
    (schedule config now core).1 ≠ .error "scheduling cost overflows" ∧
      ∀ round ∈ scheduleRounds config now core, Served config round.1 := by
  have hvalid : config.validate = .ok () := by
    obtain ⟨start, -, hstart, -⟩ := h
    exact (new_eq_ok.1 hstart).1
  constructor
  · unfold schedule
    dsimp only
    split
    · nofun
    · exact placements_error hwords hvalid (h.keyed.expire now)
  · intro round hmem
    obtain ⟨fuel, hmem⟩ := mem_scheduleRounds hmem
    exact served hwords hvalid (rounds_spec (h.keyed.expire now) hmem).1

/-- A machine with two slots, for two jobs at a time. -/
def pairConfig : Config :=
  { smallConfig with
    maxJobs := 2
    maxTerminalReceipts := 2
    maxQueuedPerPrincipal := 2
    maxActivePerPrincipal := 2
    groups := empty.insert "gpu" 2 }

/-- A machine whose two jobs wait again after a restart. -/
def restartedSmall : Core :=
  let sha : Wire.Digest := ⟨fun _ => List.replicate 32 0, fun _ => rfl⟩
  runAll sha pairConfig (.initial sha pairConfig)
    [.enqueue "desk" (smallRequest 'a' 10) 0, .enqueue "desk" (smallRequest 'b' 10) 0, .recover]

theorem restartedSmall_reachable :
    Reachable ⟨fun _ => List.replicate 32 0, fun _ => rfl⟩ pairConfig restartedSmall :=
  ⟨_, _, new_eq_ok.2 ⟨by decide, rfl⟩, rfl⟩

set_option maxRecDepth 8000 in
/-- The machine with two jobs goes three rounds. -/
theorem schedule_served_small :
    (scheduleRounds pairConfig 1 restartedSmall).length = 3 ∧
      (schedule pairConfig 1 restartedSmall).1 ≠ .error "scheduling cost overflows" ∧
      ∀ round ∈ scheduleRounds pairConfig 1 restartedSmall, Served pairConfig round.1 :=
  ⟨by decide, schedule_served (by unfold Config.Words; decide) restartedSmall_reachable 1⟩

/-- Unless it drains, `schedule` is its loop with any more fuel: in every reachable state the loop
ends by itself, after a round for each job and one more at most. -/
theorem schedule_terminates {sha : Wire.Digest} (h : Reachable sha config core)
    (hdrain : core.draining = false) (now extra : Nat) :
    schedule config now core =
      let core := core.rewriteJobs (expireJob now)
      placements config now (core.jobs.entries.length + 1 + extra) core := by
  dsimp only [schedule]
  rw [schedule_fuel (h.keyed.expire now), rewriteJobs_eq]
  simp only [hdrain, Bool.false_eq_true, if_false]

set_option maxRecDepth 8000 in
/-- The loop for two jobs ends in three rounds, also with fuel for ten. -/
theorem schedule_terminates_small :
    (scheduleRounds pairConfig 1 restartedSmall).length = 3 ∧
      schedule pairConfig 1 restartedSmall =
        let core := restartedSmall.rewriteJobs (expireJob 1)
        placements pairConfig 1 (core.jobs.entries.length + 1 + 7) core :=
  ⟨by decide, schedule_terminates restartedSmall_reachable (by decide) 1 7⟩

end Costs

section Order

/-- A queued job of a principal below its bound, and an eligible backend with a free slot. -/
def Placeable (config : Config) (core : Core) (job : Job) : Prop :=
  job.state = .queued ∧ core.active job.principal < config.maxActivePerPrincipal ∧
    ∃ e ∈ config.backends.entries, eligible e.2 job.pool job.request = true ∧
      core.occupied e.2.group < (config.groups.get? e.2.group).getD 0

/-- The first of the orders of the source by which choices are sorted. -/
def Choice.Before (a b : Choice) : Prop :=
  a.service < b.service ∨ a.service = b.service ∧ a.order ≤ b.order

theorem Choice.before_of_le {a b : Choice} :
    (a.le b = true → a.Before b) ∧ (¬a.le b = true → b.Before a) := by
  unfold le Choice.Before
  split_ifs with hservice horder
  all_goals simp_all <;> omega

theorem Choice.before_trans {a b c : Choice} (h : a.Before b) (h' : b.Before c) : a.Before c := by
  unfold Choice.Before at h h' ⊢
  omega

variable {job : Job} {cs : List Choice}

theorem offers_ne_nil (h : offers config core job = .ok cs)
    (hplaceable : Placeable config core job) :
    cs ≠ [] := by
  rintro rfl
  obtain ⟨-, -, e, hentry, hoffer⟩ := hplaceable
  have hlength := (mapM_eq_ok.1 h).length_eq
  rw [length_nil, length_eq_zero_iff, filter_eq_nil_iff] at hlength
  refine hlength e hentry ?_
  simpa using hoffer

/-- A placeable job whose family is new has a choice of its principal that does not come later. -/
theorem choicesFrom_of_placeable {seen : List (Text × Text × Text)} {jobs : List Job}
    (h : choicesFrom config core seen jobs = .ok cs) (hqueued : ∀ job ∈ jobs, job.state = .queued)
    (hsorted : jobs.Pairwise fun a b => a.order ≤ b.order) (hmem : job ∈ jobs)
    (hplaceable : Placeable config core job)
    (hnew : (job.principal, job.pool, job.request.model) ∉ seen) :
    ∃ choice ∈ cs, choice.service = core.service job.principal ∧ choice.order ≤ job.order := by
  induction jobs generalizing seen cs with
  | nil => cases hmem
  | cons first rest ih =>
    obtain ⟨hfirst, hrest⟩ := forall_mem_cons.1 hqueued
    obtain ⟨hle, hsorted⟩ := pairwise_cons.1 hsorted
    simp only [choicesFrom] at h
    split_ifs at h with hskip
    · rcases mem_cons.1 hmem with rfl | hmem
      · simp [hnew, hplaceable.2.1.not_ge] at hskip
      · exact ih h hrest hsorted hmem hnew
    · simp only [Bool.or_eq_true, decide_eq_true_eq, not_or, not_le] at hskip
      obtain ⟨offered, hoffered, h⟩ := bind_eq_ok.1 h
      obtain ⟨others, hothers, h⟩ := bind_eq_ok.1 h
      cases h
      -- The first job has a choice, or the family of the other one is still new.
      by_cases hown : offered ≠ [] ∧ first.principal = job.principal ∧ first.order ≤ job.order
      · obtain ⟨hsome, hprincipal, horder⟩ := hown
        obtain ⟨choice, hmem⟩ := exists_mem_of_ne_nil _ hsome
        have hoffer := offers_offered hoffered hmem hfirst hskip.2
        exact ⟨choice, mem_append_left _ hmem, hprincipal ▸ hoffer.service_eq,
          hoffer.order_eq ▸ horder⟩
      · rcases mem_cons.1 hmem with rfl | hmem
        · exact absurd ⟨offers_ne_nil hoffered hplaceable, rfl, le_rfl⟩ hown
        · obtain ⟨choice, hmem, hchoice⟩ := ih hothers hrest hsorted hmem (by
            split_ifs with hempty
            · exact hnew
            · rw [mem_cons, not_or]
              refine ⟨fun hfamily => hown ⟨by simpa using hempty, ?_, hle job hmem⟩, hnew⟩
              exact (congrArg Prod.fst hfamily).symm)
          exact ⟨choice, mem_append_right _ hmem, hchoice⟩

/-- The head of a sorted list comes before all others in every coarser order. -/
theorem insertionSort_head {α : Type} {r R : α → α → Prop} [DecidableRel r]
    (hr : ∀ {a b}, (r a b → R a b) ∧ (¬r a b → R b a))
    (htrans : ∀ {a b c}, R a b → R b c → R a c) {l rest : List α} {a : α}
    (h : l.insertionSort r = a :: rest) : ∀ b ∈ l, R a b := by
  induction l generalizing a rest with
  | nil => nofun
  | cons first l ih =>
    have hrefl : R first first := (em (r first first)).elim hr.1 hr.2
    rw [insertionSort_cons] at h
    cases hsorted : l.insertionSort r with
    | nil =>
      obtain rfl : l = [] := by simpa [hsorted, eq_comm] using length_insertionSort r l
      cases h
      simpa using hrefl
    | cons best others =>
      rw [hsorted, orderedInsert] at h
      split_ifs at h with hbest
      · cases h
        exact forall_mem_cons.2 ⟨hrefl, fun b hb => htrans (hr.1 hbest) (ih hsorted b hb)⟩
      · cases h
        exact forall_mem_cons.2 ⟨hr.2 hbest, ih hsorted⟩

/-- The choices of a round: their best one is of the least service, and the earliest of its
principal, and without one no job is placeable. -/
theorem choices_spec (h : choices config core = .ok cs) :
    (cs = [] → ∀ job ∈ core.jobs.values, ¬Placeable config core job) ∧
      ∀ choice rest, cs = choice :: rest → ∃ job ∈ core.jobs.values,
        Offered config core job choice ∧ ∀ other ∈ core.jobs.values, Placeable config core other →
          core.service job.principal ≤ core.service other.principal ∧
            (other.principal = job.principal → job.order ≤ other.order) := by
  obtain ⟨unsorted, hunsorted, hcs⟩ := bind_eq_ok.1 h
  cases hcs
  have : Std.Total fun a b : Job => a.order ≤ b.order := ⟨fun a b => le_total _ _⟩
  have : IsTrans Job fun a b => a.order ≤ b.order := ⟨fun _ _ _ => le_trans⟩
  have hchoice {other : Job} (hother : other ∈ core.jobs.values)
      (hplaceable : Placeable config core other) : ∃ choice ∈ unsorted,
        choice.service = core.service other.principal ∧ choice.order ≤ other.order :=
    choicesFrom_of_placeable hunsorted (fun _ hjob => (mem_waiting.1 hjob).2)
      (pairwise_insertionSort _ _) (mem_waiting.2 ⟨hother, hplaceable.1⟩) hplaceable nofun
  constructor
  · intro hempty job hjob hplaceable
    obtain ⟨choice, hmem, -⟩ := hchoice hjob hplaceable
    rw [← mem_insertionSort fun a b : Choice => a.le b, hempty] at hmem
    cases hmem
  · intro choice rest hcs
    have hfirst : choice ∈ unsorted.insertionSort fun a b => a.le b := hcs ▸ mem_cons_self
    obtain ⟨job, hjob, hoffered⟩ := choices_offered h hfirst
    refine ⟨job, hjob, hoffered, fun other hother hplaceable => ?_⟩
    obtain ⟨choice', hmem, hservice, horder⟩ := hchoice hother hplaceable
    have hbest : choice.Before choice' :=
      insertionSort_head (R := Choice.Before) before_of_le before_trans hcs choice' hmem
    rw [Choice.Before, hservice, hoffered.service_eq, hoffered.order_eq] at hbest
    refine ⟨by omega, fun hsame => ?_⟩
    rw [hsame] at hbest
    omega

theorem place_frame {choice : Choice} {id : Text} (hid : choice.id ≠ id) :
    (place config now choice core).2.jobs.get? id = core.jobs.get? id := by
  unfold place
  split
  · rfl
  next lease numbered hserial =>
    obtain ⟨-, rfl, -⟩ := serial_eq_ok hserial
    split
    · dsimp only
      split
      · exact (get?_modify ..).trans (if_neg hid.symm)
      · rfl
    · rfl

/-- A job that no round chooses stays what it is. -/
theorem placements_frame {id : Text}
    (h : ∀ round ∈ rounds config now fuel core, ∀ choice, round.2 = some choice → choice.id ≠ id) :
    (placements config now fuel core).2.jobs.get? id = core.jobs.get? id := by
  induction fuel generalizing core with
  | zero => rfl
  | succ fuel ih =>
    simp only [placements, rounds] at h ⊢
    cases hchoices : choices config core.advanceFloor with
    | error e => simp
    | ok cs =>
      cases cs with
      | nil => simp
      | cons choice rest =>
        simp only [hchoices, forall_mem_cons] at h
        have hplaced : (place config now choice core.advanceFloor).2.jobs.get? id = _ :=
          place_frame (h.1 choice rfl)
        rw [core.advanceFloor_jobs] at hplaced
        dsimp only
        split
        next hplace =>
          rwa [hplace] at hplaced
        next hplace =>
          rw [hplace] at hplaced h
          exact (ih h.2).trans hplaced

/-- A loop that ends well ends because nothing can be placed. -/
theorem placements_done (hk : Keyed core) (hfuel : core.queued < fuel)
    (hok : (placements config now fuel core).1 = .ok ()) :
    choices config (placements config now fuel core).2 = .ok [] := by
  induction fuel generalizing core with
  | zero => cases hfuel
  | succ fuel ih =>
    simp only [placements] at hok ⊢
    cases hchoices : choices config core.advanceFloor with
    | error e => simp [hchoices] at hok
    | ok cs =>
      cases cs with
      | nil => exact hchoices
      | cons choice rest =>
        simp only [hchoices] at hok ⊢
        split at hok
        · cases hok
        next after hplace =>
          have hfewer := round_queued hk hchoices hplace
          exact ih (hk.round hchoices hplace)
            (lt_of_lt_of_le hfewer (le_of_lt_succ hfuel)) hok

/-- A call of `schedule` that ends well leaves no placeable job, if the service is not draining.
Each of its rounds places a placeable job of a principal of the least service among those with
one, and the earliest of that principal; other jobs stay as the expiry leaves them. -/
theorem schedule_conserves {sha : Wire.Digest} (h : Reachable sha config core) (now : Nat)
    (hdraining : core.draining = false) (hok : (schedule config now core).1 = .ok ()) :
    (∀ job ∈ (schedule config now core).2.jobs.values,
      ¬Placeable config (schedule config now core).2 job) ∧
    (∀ round ∈ scheduleRounds config now core, ∀ choice, round.2 = some choice →
      ∃ job ∈ round.1.jobs.values, Offered config round.1 job choice ∧
        ∀ other ∈ round.1.jobs.values, Placeable config round.1 other →
          round.1.service job.principal ≤ round.1.service other.principal ∧
            (other.principal = job.principal → job.order ≤ other.order)) ∧
    ∀ id, (∀ round ∈ scheduleRounds config now core, ∀ choice, round.2 = some choice →
        choice.id ≠ id) →
      (schedule config now core).2.jobs.get? id =
        (core.jobs.get? id).map fun job => (expireJob now job).1 := by
  have hopen : ¬(core.rewriteJobs (expireJob now)).draining = true := by
    rw [rewriteJobs_eq]
    simp [hdraining]
  simp only [schedule, scheduleRounds, if_neg hopen] at hok ⊢
  refine ⟨?_, fun round hmem choice hchoice => ?_, fun id hid => ?_⟩
  · refine (choices_spec (placements_done (h.keyed.expire now) ?_ hok)).1 rfl
    exact lt_succ_of_le count_le_length
  · obtain ⟨rest, hchoices⟩ := (rounds_spec (h.keyed.expire now) hmem).2 choice hchoice
    exact (choices_spec hchoices).2 choice rest rfl
  · rw [placements_frame hid, rewriteJobs_jobs, get?_map]

set_option maxRecDepth 8000 in
/-- The two jobs that wait after a restart are placed, and nothing else can be. -/
theorem schedule_conserves_small :
    (scheduleRounds pairConfig 1 restartedSmall).length = 3 ∧
      ∀ job ∈ (schedule pairConfig 1 restartedSmall).2.jobs.values,
        ¬Placeable pairConfig (schedule pairConfig 1 restartedSmall).2 job :=
  ⟨by decide, (schedule_conserves restartedSmall_reachable 1 (by decide) (by decide)).1⟩

end Order

end MiniDregg.Scheduler
