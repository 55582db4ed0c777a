import MiniDregg.Scheduler.Settlement
import MiniDregg.Store.WriteOnce

/-!
# What a save leaves

A save that goes through leaves exactly the settled pair of state and archive,
and it goes through exactly when that archive is within its limits. On the way
it passes through the old directory and through snapshots of the candidate with
a first part of its receipts, and a save that is refused ends in one of these.
-/

namespace MiniDregg.Scheduler

open Fallible Store OrderedMap List Service

/-- The counters of a service are those of its archive. -/
structure Exact (service : Service) : Prop where
  receipts : service.receipts = service.directory.receipts.entries.length
  receiptBytes : service.receiptBytes = receiptsBytes service.directory.receipts
  drained : service.drainedReceipts =
    service.directory.receipts.count fun job => job.state.isDrained

/-- An archive within the limits of a configuration. -/
def Fits (config : Config) (receipts : OrderedMap Text Job) : Prop :=
  receipts.entries.length ≤ config.maxTerminalReceipts ∧
    receiptsBytes receipts ≤ config.maxReceiptBytes

variable {config : Config} {receipts : OrderedMap Text Job}

section Extension
variable {receipts' : OrderedMap Text Job}

section
variable (h : ∀ id job, receipts.get? id = some job → receipts'.get? id = some job)
include h

/-- An archive with more receipts is no smaller. -/
theorem receiptsBytes_mono : receiptsBytes receipts ≤ receiptsBytes receipts' := by
  obtain ⟨l, hperm, hsub⟩ := entries_subperm h
  have hsum := (hsub.map fun e => e.2.bytes).sum_le_sum fun _ _ => Nat.zero_le _
  rw [(hperm.map _).sum_eq] at hsum
  simpa [receiptsBytes, values, Function.comp_def] using hsum

theorem Fits.mono (hfits : Fits config receipts') : Fits config receipts :=
  ⟨(entries_subperm h).length_le.trans hfits.1, (receiptsBytes_mono h).trans hfits.2⟩

/-- An archive with more receipts and the same number of them is the same. -/
theorem eq_of_extends (hlength : receipts'.entries.length ≤ receipts.entries.length) :
    receipts = receipts' := by
  have hperm := (entries_subperm h).perm_of_length_le hlength
  apply ext_get?
  intro id
  apply Option.ext
  intro job
  rw [get?_eq_some, get?_eq_some, hperm.mem_iff]

end

theorem count_insert_fresh {id : Text} {job : Job} (p : Job → Bool) (h : receipts.get? id = none) :
    (receipts.insert id job).count p = receipts.count p + if p job then 1 else 0 := by
  have hperm := (insert_perm (v := job) h).map Prod.snd
  rw [OrderedMap.count, values, hperm.countP_eq, map_cons, countP_cons]
  rfl

end Extension

variable {reason : String} {directory : Directory}

section Retire
variable {service service' : Service} {id : Text} {job : Job}
  {jobs : List (Text × Job)} {state state' : Core}

/-- What a receipt that is there or written leaves of a service. -/
structure Wrote (jobs : List (Text × Job)) (service service' : Service) : Prop where
  directory : service'.directory =
    ⟨service.directory.state, archived jobs service.directory.receipts⟩
  config : service'.config = service.config
  poisoned : service'.poisoned = service.poisoned
  exact : Exact service → Exact service'
  grows : service.directory.receipts.Grows service'.directory.receipts

theorem Wrote.refl (service : Service) : Wrote [] service service :=
  ⟨rfl, rfl, rfl, fun h => h, .refl _⟩

variable {e : Text × Job}

theorem Wrote.cons {middle : Service} (h : Wrote [e] service middle)
    (h' : Wrote jobs middle service') : Wrote (e :: jobs) service service' where
  directory := by
    rw [h'.directory, h.directory]
    rfl
  config := h'.config.trans h.config
  poisoned := h'.poisoned.trans h.poisoned
  exact hexact := h'.exact (h.exact hexact)
  grows := h.grows.trans h'.grows

/-- A receipt that reads back is in the archive. -/
theorem receipt_eq_ok {found : Option Job} (h : service.receipt id = .ok found) :
    service.directory.receipts.get? id = found := by
  unfold receipt at h
  split_ifs at h
  split at h
  · cases h
    assumption
  · split_ifs at h
    cases h
    assumption

theorem retire_wrote (h : service.retire id job = .ok service') :
    Wrote [(id, job)] service service' := by
  obtain ⟨found, hreceipt, h⟩ := bind_eq_ok.1 h
  have hget := receipt_eq_ok hreceipt
  cases found with
  | some saved =>
    simp only at h
    split_ifs at h with hsame
    cases h
    obtain rfl := not_not.1 hsame
    refine ⟨?_, rfl, rfl, fun h => h, .refl _⟩
    rw [archived_cons, insert_eq_self hget]
    rfl
  | none =>
    simp only [check_bind_eq_ok] at h
    cases h.2
    have hcreate := grows_create service.directory.receipts id job
    rw [create, OrderedMap.contains, hget] at hcreate
    refine ⟨rfl, rfl, rfl, fun hexact => ⟨?_, ?_, ?_⟩, hcreate⟩
    · have hlength := (insert_perm (v := job) hget).length_eq
      change service.receipts + 1 = _
      rw [hexact.receipts]
      exact hlength.symm
    · change service.receiptBytes + job.bytes = _
      rw [hexact.receiptBytes]
      exact (receiptsBytes_insert job hget).symm
    · change service.drainedReceipts + (if job.state.isDrained then 1 else 0) = _
      rw [hexact.drained]
      exact (count_insert_fresh _ hget).symm

/-- The state after its terminal jobs have left. -/
theorem retireAll_wrote (h : retireAll jobs service state = (.ok (), service', state')) :
    Wrote jobs service service' ∧
      state' = { state with jobs := jobs.foldl (fun jobs e => jobs.erase e.1) state.jobs } := by
  induction jobs generalizing service state with
  | nil =>
    cases h
    exact ⟨.refl _, rfl⟩
  | cons e jobs ih =>
    unfold retireAll at h
    split at h
    · cases h
    next middle hretire =>
      obtain ⟨hwrote, hstate⟩ := ih h
      exact ⟨(retire_wrote hretire).cons hwrote, hstate⟩

/-- A refused run of receipts has written a first part of them. -/
theorem retireAll_refused
    (h : retireAll jobs service state = (.error reason, service', state')) :
    ∃ first rest, jobs = first ++ rest ∧ Wrote first service service' := by
  induction jobs generalizing service state with
  | nil => cases h
  | cons e jobs ih =>
    unfold retireAll at h
    split at h
    · cases h
      exact ⟨[], e :: jobs, rfl, .refl _⟩
    next middle hretire =>
      obtain ⟨first, rest, rfl, hwrote⟩ := ih h
      exact ⟨e :: first, rest, rfl, (retire_wrote hretire).cons hwrote⟩

/-- The directories on the way hold a first part of the receipts. -/
theorem retireDirectories_wrote (h : directory ∈ retireDirectories jobs service) :
    ∃ first rest service', jobs = first ++ rest ∧ Wrote first service service' ∧
      directory = service'.directory := by
  induction jobs generalizing service with
  | nil => exact ⟨[], [], service, rfl, .refl _, mem_singleton.1 h⟩
  | cons e jobs ih =>
    rcases mem_cons.1 h with rfl | h
    · exact ⟨[], e :: jobs, service, rfl, .refl _, rfl⟩
    · split at h
      · cases h
      next middle hretire =>
        obtain ⟨first, rest, service', rfl, hwrote, hdirectory⟩ := ih h
        exact ⟨e :: first, rest, service', rfl, (retire_wrote hretire).cons hwrote, hdirectory⟩

/-- Jobs whose receipts a service can write, if there is room: terminal, within their bounds, and
in agreement with the archive. -/
structure Archivable (config : Config) (receipts : OrderedMap Text Job)
    (jobs : List (Text × Job)) : Prop where
  nodup : (jobs.map Prod.fst).Nodup
  keyed : ∀ e ∈ jobs, e.2.request.id = e.1
  terminal : ∀ e ∈ jobs, e.2.state.isTerminal = true
  bounds : ∀ e ∈ jobs, JobBounds config e.2
  agrees : ∀ e ∈ jobs, ∀ receipt, receipts.get? e.1 = some receipt → e.2 = receipt

theorem Archivable.extends (h : Archivable config receipts jobs) (id : Text) (job : Job)
    (hget : receipts.get? id = some job) : (archived jobs receipts).get? id = some job :=
  archived_extends h.nodup h.agrees hget

theorem Archivable.tail (h : Archivable config receipts (e :: jobs)) :
    Archivable config (receipts.insert e.1 e.2) jobs where
  nodup := (nodup_cons.1 h.nodup).2
  keyed d hd := h.keyed d (mem_cons_of_mem e hd)
  terminal d hd := h.terminal d (mem_cons_of_mem e hd)
  bounds d hd := h.bounds d (mem_cons_of_mem e hd)
  agrees := by
    intro d hd receipt hget
    have hne : d.1 ≠ e.1 := by
      intro heq
      apply (nodup_cons.1 h.nodup).1
      rw [← heq]
      exact mem_map_of_mem hd
    rw [get?_insert_ne hne] at hget
    exact h.agrees d (mem_cons_of_mem e hd) receipt hget

theorem Archivable.archive (h : Archivable config receipts jobs)
    (harchive : Archive config receipts) : Archive config (archived jobs receipts) := by
  induction jobs generalizing receipts with
  | nil => exact harchive
  | cons e jobs ih =>
    have hhead : e ∈ e :: jobs := mem_cons_self
    exact ih h.tail (harchive.insert (h.keyed e hhead) (h.terminal e hhead) (h.bounds e hhead))

theorem Archivable.left {first rest : List (Text × Job)}
    (h : Archivable config receipts (first ++ rest)) : Archivable config receipts first where
  nodup := by
    have hnodup := h.nodup
    rw [map_append] at hnodup
    exact hnodup.of_append_left
  keyed e he := h.keyed e (mem_append_left _ he)
  terminal e he := h.terminal e (mem_append_left _ he)
  bounds e he := h.bounds e (mem_append_left _ he)
  agrees e he := h.agrees e (mem_append_left _ he)

/-- One receipt is there or written, unless the archive is full. -/
theorem retire_ok_of_fits (hconfig : config.validate = .ok ()) (h : Tallied config service)
    (hjobs : Archivable config service.directory.receipts ((id, job) :: jobs))
    (hfits : Fits config (service.directory.receipts.insert id job)) :
    ∃ service', service.retire id job = .ok service' := by
  have hhead : (id, job) ∈ (id, job) :: jobs := mem_cons_self
  refine ⟨_, h.retire_eq hconfig (hjobs.keyed _ hhead) (hjobs.bounds _ hhead)
    (hjobs.terminal _ hhead) (hjobs.agrees _ hhead) fun hget => ?_⟩
  have hlength := (insert_perm (v := job) hget).length_eq
  rwa [Fits, hlength, length_cons, receiptsBytes_insert job hget] at hfits

theorem Tallied.wrote (h : Tallied config service) (hexact : Exact service)
    (hjobs : Archivable config service.directory.receipts jobs)
    (hwrote : Wrote jobs service service') : Tallied config service' where
  config_eq := hwrote.config.trans h.config_eq
  archive := by
    rw [hwrote.directory]
    exact hjobs.archive h.archive
  receipts := (hwrote.exact hexact).receipts
  receiptBytes := (hwrote.exact hexact).receiptBytes

/-- The receipts of jobs can be written when the archive with all of them is within its limits. -/
theorem retireAll_ok_of_fits (hconfig : config.validate = .ok ()) (h : Tallied config service)
    (hexact : Exact service) (hjobs : Archivable config service.directory.receipts jobs)
    (hfits : Fits config (archived jobs service.directory.receipts)) (state : Core) :
    ∃ service' state', retireAll jobs service state = (.ok (), service', state') := by
  induction jobs generalizing service state with
  | nil => exact ⟨service, state, rfl⟩
  | cons e jobs ih =>
    obtain ⟨id, job⟩ := e
    obtain ⟨middle, hretire⟩ := retire_ok_of_fits hconfig h hjobs
      (hfits.mono hjobs.tail.extends)
    have hwrote := retire_wrote hretire
    have hparts : Archivable config service.directory.receipts ([(id, job)] ++ jobs) := hjobs
    have hreceipts : middle.directory.receipts = service.directory.receipts.insert id job := by
      rw [hwrote.directory]
      rfl
    have htallied := h.wrote hexact hparts.left hwrote
    have htail := hjobs.tail
    rw [archived_cons] at hfits
    rw [← hreceipts] at htail hfits
    obtain ⟨service', state', hall⟩ := ih htallied (hwrote.exact hexact) htail hfits
      { state with jobs := state.jobs.erase id }
    refine ⟨service', state', ?_⟩
    unfold retireAll
    rw [hretire]
    exact hall

end Retire

section Save
variable {service service' : Service} {next core' : Core}

theorem get?_foldl_erase (jobs : List (Text × Job)) (m : OrderedMap Text Job) (id : Text) :
    (jobs.foldl (fun m e => m.erase e.1) m).get? id =
      if id ∈ jobs.map Prod.fst then none else m.get? id := by
  induction jobs generalizing m with
  | nil => simp
  | cons e jobs ih =>
    rw [foldl_cons, ih, get?_erase]
    by_cases heq : id = e.1
    · simp [heq]
    · simp only [map_cons, mem_cons, heq, false_or, if_false]

/-- The jobs that stay when the terminal ones leave. -/
theorem foldl_erase_terminal (core : Core) :
    (terminal core).foldl (fun m e => m.erase e.1) core.jobs =
      core.jobs.filter fun job => !job.state.isTerminal := by
  apply ext_get?
  intro id
  rw [get?_foldl_erase, get?_filter]
  cases hjob : core.jobs.get? id with
  | none => simp
  | some job =>
    cases hterminal : job.state.isTerminal with
    | true =>
      have hmem : (id, job) ∈ terminal core := mem_terminal_iff.2 ⟨hjob, hterminal⟩
      rw [if_pos (mem_map_of_mem hmem)]
      simp [Option.filter, hterminal]
    | false =>
      have hnot : id ∉ (terminal core).map Prod.fst :=
        not_mem_terminal fun job' hjob' => by
          cases hjob.symm.trans hjob'
          exact hterminal
      rw [if_neg hnot]
      simp [Option.filter, hterminal]

/-- What stays of a service when the candidate is written before its receipts. -/
theorem Exact.beforeReceipts (h : Exact service) (next : Core) :
    Exact (service.beforeReceipts next) := by
  unfold Service.beforeReceipts
  split
  · exact h
  · exact { h with }

theorem beforeReceipts_kept (service : Service) (next : Core) :
    (service.beforeReceipts next).config = service.config ∧
      (service.beforeReceipts next).poisoned = service.poisoned := by
  unfold Service.beforeReceipts
  split <;> exact ⟨rfl, rfl⟩

theorem beforeReceipts_state (h : terminal next ≠ []) :
    (service.beforeReceipts next).directory.state = some next := by
  unfold Service.beforeReceipts
  rw [if_neg]
  · rfl
  · simpa using h

/-- A save that goes through leaves the settled pair. -/
theorem save_eq_ok (h : service.save next = (.ok (), service', core')) (hexact : Exact service) :
    (core', service'.directory.receipts) = settled next service.directory.receipts ∧
      service'.directory.state = some core' ∧ Exact service' ∧
      service'.config = service.config ∧ service'.poisoned = service.poisoned := by
  unfold save at h
  split at h
  · cases h
  next written state hall =>
    obtain ⟨hwrote, hstate⟩ := retireAll_wrote hall
    have hwritten := hwrote.exact (hexact.beforeReceipts next)
    have hreceipts : written.directory.receipts =
        archived (terminal next) service.directory.receipts := by
      rw [hwrote.directory, beforeReceipts_receipts]
    obtain ⟨hconfig, hpoisoned⟩ := beforeReceipts_kept service next
    rw [← hwrote.config] at hconfig
    rw [← hwrote.poisoned] at hpoisoned
    cases h
    refine ⟨?_, rfl, { hwritten with }, hconfig,
      hpoisoned⟩
    change (_, written.directory.receipts) = _
    rw [settled, hwritten.receipts, hwritten.receiptBytes, hwritten.drained, hreceipts, hstate,
      foldl_erase_terminal]

/-- A save that is refused leaves the candidate with a first part of its receipts. -/
theorem save_refused (h : service.save next = (.error reason, service', core')) :
    ∃ first rest, terminal next = first ++ rest ∧
      service'.directory = ⟨some next, archived first service.directory.receipts⟩ := by
  unfold save at h
  split at h
  next written state hall =>
    cases h
    have hne : terminal next ≠ [] := by
      intro hempty
      rw [hempty] at hall
      cases hall
    obtain ⟨first, rest, hparts, hwrote⟩ := retireAll_refused hall
    refine ⟨first, rest, hparts, ?_⟩
    rw [hwrote.directory, beforeReceipts_state hne, beforeReceipts_receipts]
  · cases h

/-- The directories of a save: the old one, the candidate with a first part of its receipts, and
the settled pair. -/
theorem saveDirectories_cases (hexact : Exact service)
    (h : directory ∈ service.saveDirectories next) :
    directory = service.directory ∨
      (∃ first rest, terminal next = first ++ rest ∧
        directory = ⟨some next, archived first service.directory.receipts⟩) ∨
      directory = ⟨some (settled next service.directory.receipts).1,
        (settled next service.directory.receipts).2⟩ := by
  rcases mem_append.1 h with h | h
  · rcases mem_cons.1 h with rfl | h
    · exact .inl rfl
    · by_cases hempty : terminal next = []
      · rw [hempty, retireDirectories, mem_singleton, Service.beforeReceipts,
          if_pos (List.isEmpty_iff.2 hempty)] at h
        exact .inl h
      · obtain ⟨first, rest, service', hparts, hwrote, hdirectory⟩ := retireDirectories_wrote h
        rw [hwrote.directory, beforeReceipts_state hempty, beforeReceipts_receipts] at hdirectory
        exact .inr (.inl ⟨first, rest, hparts, hdirectory⟩)
  · rw [mem_singleton] at h
    subst h
    rcases hsave : service.save next with ⟨result, service', core'⟩
    cases result with
    | error reason => exact .inr (.inl (save_refused hsave))
    | ok =>
      obtain ⟨hsettled, hstate, -⟩ := save_eq_ok hsave hexact
      rw [← hsettled]
      right
      right
      change service'.directory = ⟨some core', service'.directory.receipts⟩
      rw [← hstate]

/-- The terminal jobs of a state that agrees with the archive can be archived. -/
theorem Matched.archivable {core : Core} (h : Matched config receipts core) :
    Archivable config receipts (terminal core) where
  nodup := terminal_nodup core
  keyed e he := h.keyed e.1 e.2 (mem_terminal_iff.1 he).1
  terminal _ he := (mem_terminal_iff.1 he).2
  bounds e he := h.bounded.jobs e.1 e.2 (mem_terminal_iff.1 he).1
  agrees _ he _ hreceipt := h.agrees (mem_terminal_iff.1 he).1 hreceipt

/-- A save goes through exactly when the settled archive is within its limits. -/
theorem save_ok_iff (h : Tallied config service) (hcounted : Counted config service)
    (hexact : Exact service) (hmatched : Matched config service.directory.receipts next) :
    (∃ service' core', service.save next = (.ok (), service', core')) ↔
      Fits config (settled next service.directory.receipts).2 := by
  constructor
  · rintro ⟨service', core', hsave⟩
    have hwithin := (hcounted.save next).within
    obtain ⟨hsettled, -⟩ := save_eq_ok hsave hexact
    rw [← hsettled]
    rw [hsave] at hwithin
    exact ⟨hwithin.count, hwithin.bytes⟩
  · intro hfits
    have hjobs := hmatched.archivable
    rw [settled_receipts] at hfits
    rw [← beforeReceipts_receipts service next] at hjobs hfits
    obtain ⟨service', state', hall⟩ := retireAll_ok_of_fits hcounted.valid (h.beforeReceipts next)
      (hexact.beforeReceipts next) hjobs hfits next
    simp only [save, hall]
    exact ⟨_, _, rfl⟩

end Save

end MiniDregg.Scheduler
