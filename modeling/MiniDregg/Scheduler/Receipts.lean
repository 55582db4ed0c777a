import MiniDregg.Scheduler.Leases
import MiniDregg.Scheduler.Service
import Mathlib.Algebra.Group.Action.Defs

/-!
# The size of a receipt

What is known of a job in a scheduler bounds the text of its receipt: the
request fits a frame, the names are those of the configuration, and the guards
for superseded leases are at most 1024. Every terminal job therefore fits the
128 KiB that admission reserves for it.
-/

namespace MiniDregg.Scheduler

open Fallible Store OrderedMap List State Text

/-- The lease a state mentions, terminal states included. -/
def State.number : State → Option Nat
  | queued => none
  | placed lease _ _ _ _ _ => some lease
  | dispatched lease _ _ _ _ _ _ => some lease
  | uncertain lease _ _ _ _ _ => some lease
  | terminal _ lease => lease

/-- The bounds a job keeps from its admission on. -/
structure JobBounds (config : Config) (job : Job) : Prop where
  registered : ∃ registration, config.controllers.get? job.controller = some registration ∧
    job.principal = registration.principal ∧ job.pool = registration.pool
  checked : checkRequest job.request = .ok ()
  order : job.order < 2 ^ 64
  guards : job.supersededUnsent.entries.length ≤ maxUnsentLeaseGuards
  guardKeys : ∀ lease ∈ job.supersededUnsent.keys, lease < 2 ^ 64
  number : ∀ lease, job.state.number = some lease → lease < 2 ^ 64

section Length
variable {config : Config} {job : Job}

theorem Config.controller_texts {name : Text} {registration : Registration}
    (h : config.validate = .ok ()) (hget : config.controllers.get? name = some registration) :
    text name = true ∧ text registration.principal = true ∧ text registration.pool = true := by
  simp only [Config.validate, check_bind_eq_ok, forM_eq_ok] at h
  obtain ⟨-, -, hcontrollers, -⟩ := h
  have hentry := hcontrollers _ (get?_eq_some.1 hget)
  simp only [refuseIf_eq_ok, Bool.or_eq_false_iff, Bool.not_eq_false'] at hentry
  exact ⟨hentry.1.1, hentry.1.2, hentry.2⟩

/-- A name takes at most 514 bytes as a JSON string. -/
theorem utf8Length_name_le {value : Text} (h : text value = true) :
    (jsonText value).utf8Length ≤ 514 := by
  simp only [text, Bool.and_eq_true, Bool.not_eq_true', decide_eq_true_eq] at h
  have hjson := utf8Length_jsonText_le h.2
  omega

theorem request_json_le {request : Request} (h : checkRequest request = .ok ()) :
    request.json.utf8Length ≤ maxFrame := by
  simp only [checkRequest, check_bind_eq_ok, refuseIf_decide, not_lt] at h
  exact h.1

theorem outcome_name_le (outcome : Outcome) : (jsonText outcome.name).utf8Length ≤ 19 := by
  cases outcome <;> decide

theorem terminal_json_le {outcome : Outcome} {lease : Option Nat}
    (h : ∀ n, lease = some n → n < 2 ^ 64) :
    (terminal outcome lease).json.utf8Length ≤ 80 := by
  have hlease : (jsonOption lease).utf8Length ≤ 20 := by
    cases lease with
    | none => decide
    | some n => exact utf8Length_natText_le (h n rfl)
  have hname := outcome_name_le outcome
  have hkeys : (jsonText "state").utf8Length = 7 ∧
      (jsonText "outcome").utf8Length = 9 ∧
      (jsonText "lease").utf8Length = 7 ∧
      (jsonText "terminal").utf8Length = 10 := by decide
  refine (utf8Length_jsonObject_le _).trans ?_
  simp only [map_cons, map_nil, sum_cons, sum_nil, hkeys]
  omega

theorem guards_json_le (h : JobBounds config job) :
    (jsonArray (job.supersededUnsent.keys.map natText)).utf8Length ≤
      21 * maxUnsentLeaseGuards + 2 := by
  have hitem : ∀ n ∈ (job.supersededUnsent.keys.map natText).map
      (fun item => item.utf8Length + 1), n ≤ 21 :=
    forall_mem_map.2 (forall_mem_map.2 fun lease hlease =>
      Nat.succ_le_succ (utf8Length_natText_le (h.guardKeys lease hlease)))
  have hsum := sum_le_card_nsmul _ 21 hitem
  rw [length_map, length_map, OrderedMap.keys, length_map, smul_eq_mul] at hsum
  have hguards := Nat.mul_le_mul_right 21 h.guards
  refine (utf8Length_jsonArray_le _).trans ?_
  rw [OrderedMap.keys]
  omega

/-- The receipt of a job within its bounds fits what admission reserves. -/
theorem JobBounds.bytes_le (h : JobBounds config job) (hconfig : config.validate = .ok ())
    (hterminal : job.state.isTerminal = true) : job.bytes ≤ maxReceiptBytes := by
  obtain ⟨registration, hget, hprincipal, hpool⟩ := h.registered
  obtain ⟨hname, hp, hq⟩ := Config.controller_texts hconfig hget
  have hcontroller := utf8Length_name_le hname
  have hprincipal' := utf8Length_name_le (hprincipal ▸ hp)
  have hpool' := utf8Length_name_le (hpool ▸ hq)
  have horder := utf8Length_natText_le h.order
  have hrequest := request_json_le h.checked
  have hguards := guards_json_le h
  have hstate : job.state.json.utf8Length ≤ 80 := by
    cases hs : job.state with
    | terminal outcome lease =>
      refine terminal_json_le fun n hn => h.number n ?_
      rw [hs]
      exact hn
    | _ => simp [hs, isTerminal] at hterminal
  have hkeys : (jsonText "controller").utf8Length = 12 ∧
      (jsonText "principal").utf8Length = 11 ∧
      (jsonText "pool").utf8Length = 6 ∧
      (jsonText "order").utf8Length = 7 ∧
      (jsonText "request").utf8Length = 9 ∧
      (jsonText "state").utf8Length = 7 ∧
      (jsonText "superseded_unsent").utf8Length = 19 := by decide
  refine (utf8Length_jsonObject_le _).trans ?_
  simp only [map_cons, map_nil, sum_cons, sum_nil, hkeys]
  simp only [maxFrame, maxUnsentLeaseGuards, maxReceiptBytes] at *
  omega

end Length

section Steps
variable {config : Config} {powers : Powers} {core core' : Core} {id : Text} {job job' : Job}
  {state : State} {lease : Nat}

theorem State.number_of_placement {group : Text} (h : state.placement = some (lease, group)) :
    state.number = some lease := by
  cases state <;> simp [placement, number] at h ⊢
  exact h.1

theorem State.number_of_sent {group : Text} (h : state.sent = some (lease, group)) :
    state.number = some lease := by
  cases state <;> simp [sent, number] at h ⊢
  all_goals exact h.1

/-- A job whose state mentions a lease within the bounds. -/
theorem JobBounds.withState (h : JobBounds config job)
    (hnumber : ∀ lease, state.number = some lease → lease < 2 ^ 64) :
    JobBounds config (job.withState state) :=
  { h with number := hnumber }

/-- One more guard, where there is room for it. -/
theorem JobBounds.supersede (h : JobBounds config job) (hlease : lease < 2 ^ 64)
    (room : ¬(job.supersededUnsent.entries.length ≥ maxUnsentLeaseGuards ∧
      ¬job.supersededUnsent.contains lease)) :
    JobBounds config { job with
      state := .queued
      supersededUnsent := job.supersededUnsent.insert lease () } where
  registered := h.registered
  checked := h.checked
  order := h.order
  guards := by
    have hlength (m : OrderedMap Nat Unit) : m.count (fun _ => true) = m.entries.length := by
      rw [OrderedMap.count, countP_true, values, length_map]
    rw [← hlength]
    by_cases hmem : job.supersededUnsent.contains lease = true
    · refine le_trans (count_le_count fun k _ hk _ => ?_)
        ((hlength job.supersededUnsent).trans_le h.guards)
      rw [get?_insert] at hk
      split_ifs at hk with heq
      · exact ⟨(), heq ▸ (contains_iff.1 hmem).choose_spec, rfl⟩
      · exact ⟨(), hk, rfl⟩
    · have hfew : job.supersededUnsent.entries.length < maxUnsentLeaseGuards := by
        by_contra hmany
        exact room ⟨not_lt.1 hmany, hmem⟩
      refine count_insert_le.trans ?_
      rw [hlength]
      exact hfew
  guardKeys := by
    intro k hk
    obtain ⟨⟨k, u⟩, he, rfl⟩ := mem_map.1 hk
    rcases mem_insertEntry he with heq | he
    · cases heq
      exact hlease
    · exact h.guardKeys k (mem_map.2 ⟨(k, u), he, rfl⟩)
  number := fun _ hnumber => by cases hnumber

theorem Move.bounds (h : Move powers id job job') (hb : JobBounds config job) :
    JobBounds config job' := by
  cases h with
  | stay => exact hb
  | drop _ _ _ hlease =>
    refine hb.withState fun lease hnumber => hb.number lease ?_
    cases hplacement : job.state.placement with
    | none =>
      rw [hlease, hplacement] at hnumber
      cases hnumber
    | some found =>
      rw [hlease, hplacement] at hnumber
      cases hnumber
      exact number_of_placement hplacement
  | supersede h room => exact hb.supersede (hb.number _ (number_of_placement h)) room
  | mark h h' =>
    refine hb.withState fun lease hnumber => hb.number lease ?_
    exact (number_of_sent h).trans ((number_of_sent h').symm.trans hnumber)
  | send h h' =>
    refine hb.withState fun lease hnumber => hb.number lease ?_
    exact (number_of_placement h).trans ((number_of_sent h').symm.trans hnumber)
  | complete h =>
    exact hb.withState fun lease hnumber =>
      hb.number lease ((number_of_sent h).trans hnumber)

/-- A state whose counter and jobs are within the bounds. -/
structure Bounded (config : Config) (core : Core) : Prop where
  next : core.next < 2 ^ 64
  jobs : ∀ id job, core.jobs.get? id = some job → JobBounds config job

/-- Steps keep the bounds when the receipts they read back are within them. -/
theorem Step.bounded (h : Step config powers core core') (hb : Bounded config core)
    (hloads : ∀ job, powers.enters job → job.state.isTerminal = true → JobBounds config job) :
    Bounded config core' := by
  have hinsert {new : Job} (hjobs : core'.jobs = core.jobs.insert new.request.id new)
      (hnew : JobBounds config new) :
      ∀ id job, core'.jobs.get? id = some job → JobBounds config job := by
    intro id job hget
    obtain ⟨-, rfl⟩ | hget := of_get?_insert (hjobs ▸ hget)
    · exact hnew
    · exact hb.jobs id job hget
  cases h with
  | rewrite hnext h =>
    refine ⟨hnext ▸ hb.next, fun id job hget => ?_⟩
    obtain ⟨old, hold, hmove⟩ := h.source hget
    exact hmove.bounds (hb.jobs id old hold)
  | number _ hbound h => exact ⟨hbound, fun id job hget => hb.jobs id job (h ▸ hget)⟩
  | enter hnext h _ new =>
    refine ⟨hnext ▸ hb.next, hinsert h ⟨new.registered, new.checked,
      new.numbered.trans hb.next, ?_, ?_, ?_⟩⟩
    · rw [new.unguarded]
      exact Nat.zero_le _
    · rw [new.unguarded]
      exact fun _ hmem => by cases hmem
    · rw [new.queued]
      exact fun _ hnumber => by cases hnumber
  | place hnext hbound hlease h hjob _ placed =>
    refine ⟨hbound, fun id job hget => ?_⟩
    rw [h, get?_modify] at hget
    split_ifs at hget with heq
    · subst heq
      rw [hjob] at hget
      cases hget
      refine (hb.jobs _ _ hjob).withState fun lease hnumber => ?_
      cases (number_of_placement placed).symm.trans hnumber
      omega
    · exact hb.jobs id job hget
  | archive hnext h =>
    refine ⟨hnext ▸ hb.next, fun id job hget => ?_⟩
    rw [h, get?_erase] at hget
    split_ifs at hget
    exact hb.jobs id job hget
  | load hnext h _ terminal power =>
    exact ⟨hnext ▸ hb.next, hinsert h (hloads _ power terminal)⟩

theorem Steps.bounded (h : Steps config powers core core') (hb : Bounded config core)
    (hloads : ∀ job, powers.enters job → job.state.isTerminal = true → JobBounds config job) :
    Bounded config core' :=
  h.preserves (fun _ _ hstep hcore => hstep.bounded hcore hloads) hb

end Steps

end MiniDregg.Scheduler
