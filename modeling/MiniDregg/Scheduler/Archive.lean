import MiniDregg.Scheduler.Receipts

/-!
# The archive of receipts

A receipt is a terminal job under its identity. A service whose counters are
those of its archive reads a receipt back as it was written, and writes the
receipt of a terminal job unless a limit of the archive is reached.
-/

namespace MiniDregg.Scheduler

open Fallible Store OrderedMap List Service

/-- The bytes of receipts. -/
def receiptsBytes (receipts : OrderedMap Text Job) : Nat := (receipts.values.map Job.bytes).sum

/-- The receipts of an archive are terminal jobs under their identities, within bounds. -/
structure Archive (config : Config) (receipts : OrderedMap Text Job) : Prop where
  keyed : ∀ {id job}, receipts.get? id = some job → job.request.id = id
  terminal : ∀ {id job}, receipts.get? id = some job → job.state.isTerminal = true
  bounds : ∀ {id job}, receipts.get? id = some job → JobBounds config job

/-- A state agrees with an archive. -/
structure Matched (config : Config) (receipts : OrderedMap Text Job) (core : Core) : Prop where
  keyed : Keyed core
  bounded : Bounded config core
  agrees : ∀ {id job receipt}, core.jobs.get? id = some job → receipts.get? id = some receipt →
    job = receipt

variable {config : Config} {receipts : OrderedMap Text Job}

/-- A service on an archive, with its counters right. -/
structure Tallied (config : Config) (service : Service) : Prop where
  config_eq : service.config = config
  archive : Archive config service.directory.receipts
  receipts : service.receipts = service.directory.receipts.entries.length
  receiptBytes : service.receiptBytes = receiptsBytes service.directory.receipts

section Receipt
variable {service : Service} {id : Text} {job : Job}

theorem receiptId_of_checked {request : Request} (h : checkRequest request = .ok ()) :
    receiptId request.id = true := by
  simp only [checkRequest, check_bind_eq_ok, refuseIf_eq_ok, Bool.or_eq_false_iff,
    Bool.not_eq_false'] at h
  exact h.2.1.1.1.1.1.1.1

/-- Reading a receipt back finds what the archive holds. -/
theorem Tallied.receipt_eq (h : Tallied config service) (hconfig : config.validate = .ok ())
    (hid : receiptId id = true) :
    service.receipt id = .ok (service.directory.receipts.get? id) := by
  rw [receipt, hid]
  cases hget : service.directory.receipts.get? id with
  | none => rfl
  | some saved =>
    have hterminal := h.archive.terminal hget
    have hbytes := (h.archive.bounds hget).bytes_le hconfig hterminal
    simp [h.archive.keyed hget, hterminal, not_lt.2 hbytes]

theorem receiptsBytes_insert (job : Job) (h : receipts.get? id = none) :
    receiptsBytes (receipts.insert id job) = receiptsBytes receipts + job.bytes := by
  have hperm := (((insert_perm (v := job) h).map Prod.snd).map Job.bytes).sum_eq
  rw [receiptsBytes, OrderedMap.values, hperm, map_cons, map_cons, sum_cons,
    Nat.add_comm]
  rfl

theorem Archive.insert (h : Archive config receipts) (hid : job.request.id = id)
    (hterminal : job.state.isTerminal = true) (hbounds : JobBounds config job) :
    Archive config (receipts.insert id job) := by
  constructor <;> intro id' job' hget <;> obtain ⟨rfl, rfl⟩ | hold := of_get?_insert hget
  · exact hid
  · exact h.keyed hold
  · exact hterminal
  · exact h.terminal hold
  · exact hbounds
  · exact h.bounds hold

/-- The receipt of a terminal job is there, or is written into an archive with room for it. -/
theorem Tallied.retire_eq (h : Tallied config service) (hconfig : config.validate = .ok ())
    (hkey : job.request.id = id)
    (hbounds : JobBounds config job) (hterminal : job.state.isTerminal = true)
    (hagrees : ∀ saved, service.directory.receipts.get? id = some saved → job = saved)
    (hroom : service.directory.receipts.get? id = none →
      service.directory.receipts.entries.length + 1 ≤ config.maxTerminalReceipts ∧
        receiptsBytes service.directory.receipts + job.bytes ≤ config.maxReceiptBytes) :
    service.retire id job = .ok
      (if service.directory.receipts.get? id = none then service.writeReceipt id job
        else service) := by
  have hid : receiptId id = true := hkey ▸ receiptId_of_checked hbounds.checked
  have hbytes := hbounds.bytes_le hconfig hterminal
  unfold retire
  rw [h.receipt_eq hconfig hid, ok_bind]
  cases hget : service.directory.receipts.get? id with
  | some saved => simp [hagrees saved hget]
  | none =>
    have hfits := hroom hget
    have hsum : saturatingAdd service.receiptBytes job.bytes ≤
        receiptsBytes service.directory.receipts + job.bytes := by
      rw [h.receiptBytes]
      exact Nat.min_le_left _ _
    have hcheck : (decide (job.bytes > maxReceiptBytes) ||
        decide (service.receipts ≥ service.config.maxTerminalReceipts) ||
        decide (saturatingAdd service.receiptBytes job.bytes >
          service.config.maxReceiptBytes)) = false := by
      rw [h.receipts, h.config_eq]
      simp only [Bool.or_eq_false_iff, decide_eq_false_iff_not]
      omega
    simp only [hcheck, refuseIf_false, ok_bind, pure_eq_ok, if_true]

theorem Tallied.beforeReceipts (h : Tallied config service) (next : Core) :
    Tallied config (service.beforeReceipts next) := by
  unfold Service.beforeReceipts
  split
  · exact h
  · exact { h with }

theorem beforeReceipts_receipts (service : Service) (next : Core) :
    (service.beforeReceipts next).directory.receipts = service.directory.receipts := by
  unfold Service.beforeReceipts
  split <;> rfl

end Receipt

section Limits
variable {service service' : Service} {directory : Directory} {next : Core} {id : Text} {job : Job}

/-- An archive within its limits. -/
structure Within (config : Config) (receipts : OrderedMap Text Job) : Prop where
  each : ∀ {id job}, receipts.get? id = some job → job.bytes ≤ maxReceiptBytes
  count : receipts.entries.length ≤ config.maxTerminalReceipts
  bytes : receiptsBytes receipts ≤ config.maxReceiptBytes

/-- A service whose counters are those of an archive within its limits. -/
structure Counted (config : Config) (service : Service) : Prop where
  valid : config.validate = .ok ()
  config_eq : service.config = config
  within : Within config service.directory.receipts
  receipts : service.receipts = service.directory.receipts.entries.length
  receiptBytes : service.receiptBytes = receiptsBytes service.directory.receipts

theorem Config.receipts_le (h : config.validate = .ok ()) :
    config.maxTerminalReceipts ≤ 100000000 := by
  simp only [Config.validate, check_bind_eq_ok, refuseIf_decide, refuseIf_or, not_lt] at h
  exact h.1.1.1.1.1.1.1.1.2

/-- An archive is no larger than its receipts at the most. -/
theorem Within.bytes_le (h : Within config directory.receipts) :
    receiptsBytes directory.receipts ≤ directory.receipts.entries.length * maxReceiptBytes := by
  have heach : ∀ n ∈ directory.receipts.values.map Job.bytes, n ≤ maxReceiptBytes := by
    refine forall_mem_map.2 fun job hjob => ?_
    obtain ⟨id, hget⟩ := mem_values.1 hjob
    exact h.each hget
  have hsum := sum_le_card_nsmul _ _ heach
  rwa [length_map, values, length_map, smul_eq_mul] at hsum

section
variable (h : Counted config service)
include h

/-- A receipt is written only within the limits. -/
theorem Counted.retire (hretire : service.retire id job = .ok service') :
    Counted config service' := by
  obtain ⟨found, hreceipt, hretire⟩ := bind_eq_ok.1 hretire
  cases found with
  | some saved =>
    simp only at hretire
    split_ifs at hretire
    cases hretire
    exact h
  | none =>
    have hfresh : service.directory.receipts.get? id = none := by
      unfold receipt at hreceipt
      split_ifs at hreceipt
      split at hreceipt
      · assumption
      · split_ifs at hreceipt
        cases hreceipt
    simp only [check_bind_eq_ok, refuseIf_decide, refuseIf_or, not_lt, not_le] at hretire
    obtain ⟨⟨⟨heach, hcount⟩, hbytes⟩, hretire⟩ := hretire
    cases hretire
    rw [h.receipts, h.config_eq] at hcount
    rw [h.receiptBytes, h.config_eq] at hbytes
    have hlimit := Config.receipts_le h.valid
    have hall := h.within.bytes_le
    -- The sum of so few receipts of so few bytes does not saturate.
    have hexact : saturatingAdd (receiptsBytes service.directory.receipts) job.bytes =
        receiptsBytes service.directory.receipts + job.bytes := by
      refine min_eq_left ?_
      simp only [maxReceiptBytes] at hall heach
      omega
    rw [hexact] at hbytes
    have hlength := (insert_perm (v := job) hfresh).length_eq
    rw [length_cons] at hlength
    have hsum := receiptsBytes_insert job hfresh
    refine ⟨h.valid, h.config_eq, ⟨fun {id' job'} hget => ?_, ?_, ?_⟩, ?_, ?_⟩
    · obtain ⟨-, rfl⟩ | hget := of_get?_insert hget
      · exact heach
      · exact h.within.each hget
    · exact hlength.trans_le hcount
    · exact hsum.trans_le hbytes
    · change service.receipts + 1 = _
      rw [h.receipts]
      exact hlength.symm
    · change service.receiptBytes + job.bytes = _
      rw [h.receiptBytes]
      exact hsum.symm

theorem Counted.retireAll (l : List (Text × Job)) (state : Core) :
    Counted config (retireAll l service state).2.1 := by
  induction l generalizing service state with
  | nil => exact h
  | cons e rest ih =>
    unfold retireAll
    split
    · exact h
    next hretire =>
      exact ih (h.retire hretire) _

theorem Counted.saveSnapshot (state : Core) : Counted config (service.saveSnapshot state) :=
  { h with }

theorem Counted.beforeReceipts (state : Core) : Counted config (service.beforeReceipts state) := by
  unfold Service.beforeReceipts
  split
  · exact h
  · exact h.saveSnapshot state

/-- A save leaves the archive within its limits, also when it is refused. -/
theorem Counted.save (next : Core) : Counted config (service.save next).2.1 := by
  have hall := (h.beforeReceipts next).retireAll (terminal next) next
  unfold Service.save
  split
  next heq =>
    rwa [heq] at hall
  next heq =>
    rw [heq] at hall
    exact hall.saveSnapshot _

theorem Counted.retireDirectories {l : List (Text × Job)}
    (hmem : directory ∈ retireDirectories l service) :
    Within config directory.receipts := by
  induction l generalizing service with
  | nil => exact mem_singleton.1 hmem ▸ h.within
  | cons e rest ih =>
    obtain ⟨id, job⟩ := e
    rcases mem_cons.1 hmem with rfl | hmem
    · exact h.within
    · split at hmem
      · cases hmem
      next hretire =>
        exact ih (h.retire hretire) hmem

theorem Counted.saveDirectories (hmem : directory ∈ service.saveDirectories next) :
    Within config directory.receipts := by
  rcases mem_append.1 hmem with hmem | hmem
  · rcases mem_cons.1 hmem with rfl | hmem
    · exact h.within
    · exact (h.beforeReceipts next).retireDirectories hmem
  · exact mem_singleton.1 hmem ▸ (h.save next).within

end

end Limits

end MiniDregg.Scheduler
