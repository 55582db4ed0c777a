import MiniDregg.AsyncDispatch.Custody

/-!
# At most one native exchange for a ticket

Over every interleaving of offers, fetches and worker sections, with crashes and failed
writes at any point and any number of restarts, a ticket is sent to the native target at
most once, with the body and in the class of the offers that were taken into custody,
and every reply returned for it is the same bytes.

## Implementation notes

The invariant says what everything seen so far left on file. Files are only added, so
each of these facts is kept by every later action; a step lemma has to look at what the
action itself shows, and at the workers. Two workers never hold one ticket, because the
class on file is the class of the worker that holds it.
-/

namespace MiniDregg.AsyncDispatch

open Fallible List Store.OrderedMap.Grows

variable {k : Nat} {s : Setup} {id : Id} {body : Bytes} {recovery : Capability}

/-- A ticket that was claimed for a worker of the class. -/
structure Marked (files : Files) (k : Nat) (id : Id) (body : Bytes) : Prop where
  class_lt : k < 3
  classFile : files.get? (path id "class") = some (classByte k)
  request : files.get? (path id "request") = some body
  dispatch : files.contains (path id "dispatch") = true

variable {files files' : Files} {k' : Nat} {q : Query} {o : Observation} {m : Memory}
  {killed : Bool} {w : World} {e : Event} {phase : Phase}

theorem Marked.grows (h : Marked files k id body) (hgrows : files.Grows files') :
    Marked files' k id body :=
  ⟨h.class_lt, hgrows _ _ h.classFile, hgrows _ _ h.request, hgrows.contains h.dispatch⟩

/-- Classes are told apart by their bytes. -/
theorem classByte_inj (hk : k < 3) (hk' : k' < 3) (h : classByte k = classByte k') : k = k' := by
  have hbyte := congrArg UInt8.toNat (List.cons.inj h).1
  rw [UInt8.toNat_ofNat', UInt8.toNat_ofNat'] at hbyte
  omega

/-- The files that a reply rests on. -/
def Answers (s : Setup) (files : Files) (q : Query) (v : Bytes) : Prop :=
  match q with
  | .offer k id body recovery =>
    Ticket s files k id body recovery ∧ files.get? (path id "reply") = some v
  | .fetch k id digest recovery =>
    (∃ body, Ticket s files k id body recovery ∧ s.sha256.digest body = digest) ∧
      files.get? (path id "reply") = some v

theorem Answers.grows {v : Bytes} (h : Answers s files q v) (hgrows : files.Grows files') :
    Answers s files' q v := by
  cases q with
  | offer k id body recovery => exact ⟨h.1.grows hgrows, hgrows _ _ h.2⟩
  | fetch k id digest recovery =>
    obtain ⟨⟨body, hticket, hdigest⟩, hreply⟩ := h
    exact ⟨⟨body, hticket.grows hgrows, hdigest⟩, hgrows _ _ hreply⟩

/-- What is on file for an observation. -/
def Justified (s : Setup) (files : Files) : Observation → Prop
  | .accepted k id body recovery => Ticket s files k id body recovery
  | .sent k id body => Marked files k id body
  | .answered q (.ready v) => Answers s files q v
  | .answered _ _ => True

theorem Justified.grows (h : Justified s files o) (hgrows : files.Grows files') :
    Justified s files' o := by
  match o, h with
  | .accepted _ _ _ _, h => exact Ticket.grows h hgrows
  | .sent _ _ _, h => exact Marked.grows h hgrows
  | .answered _ (.ready _), h => exact Answers.grows h hgrows
  | .answered _ .accepted, _ => trivial
  | .answered _ .uncertain, _ => trivial

/-- The ticket of a frame sent to the native target. -/
def sentId : Observation → Option Id
  | .sent _ id _ => some id
  | _ => none

/-- The tickets sent, in order. -/
def sentIds (seen : List Observation) : List Id := seen.filterMap sentId

/-- The run contains such an offer. -/
def Offered (events : List Event) (k : Nat) (id : Id) (body : Bytes) : Prop :=
  ∃ e ∈ events, ∃ recovery, e.request = .call (.offer k id body recovery)

/-- What holds at every point of a run: everything seen is on file, no ticket was sent twice, the
tickets in exchange were not sent, and every request on file comes from the start or an offer. -/
structure Inv (s : Setup) (start : Files) (events : List Event) (sys : System)
    (seen : List Observation) : Prop where
  justified : ∀ o ∈ seen, Justified s sys.files o
  once : (sentIds seen).Nodup
  exchanging : ∀ m, sys.process = some m → ∀ k id body, m.workers k = .exchanging id body →
    Marked sys.files k id body ∧ id ∉ sentIds seen
  origin : ∀ id body, sys.files.get? (path id "request") = some body →
    start.get? (path id "request") = some body ∨
      ∃ k, Offered events k id body ∧ k < 3 ∧ sys.files.get? (path id "class") = some (classByte k)

/-- The requests on file after an action: none is new but for one that was offered. -/
def NewRequests (events : List Event) (files files' : Files) : Prop :=
  ∀ id body, files'.get? (path id "request") = some body →
    files.get? (path id "request") = some body ∨
      ∃ k, Offered events k id body ∧ k < 3 ∧ files'.get? (path id "class") = some (classByte k)

variable {start : Files} {events : List Event} {sys : System} {seen : List Observation}

/-- The tickets that the workers exchange are marked and were not sent. -/
def Unsent (files : Files) (seen : List Observation) (m : Memory) : Prop :=
  ∀ k id body, m.workers k = .exchanging id body → Marked files k id body ∧ id ∉ sentIds seen

/-- An action that sends nothing keeps the invariant, if it justifies what it shows. -/
theorem Inv.quiet (h : Inv s start events sys seen) {process : Option Memory}
    {new : List Observation} (hgrows : sys.files.Grows files)
    (hrequests : NewRequests events sys.files files) (hnew : ∀ o ∈ new, Justified s files o)
    (hsent : sentIds new = [])
    (hprocess : ∀ m, process = some m → Unsent files seen m) :
    Inv s start events ⟨files, process⟩ (seen ++ new) := by
  have hids : sentIds (seen ++ new) = sentIds seen := by
    rw [sentIds, filterMap_append]
    change sentIds seen ++ sentIds new = _
    rw [hsent, append_nil]
  refine ⟨fun o ho => ?_, hids ▸ h.once, hids ▸ hprocess, fun id body hbody => ?_⟩
  · rcases mem_append.1 ho with ho | ho
    · exact (h.justified o ho).grows hgrows
    · exact hnew o ho
  · rcases hrequests id body hbody with hold | hnew
    · rcases h.origin id body hold with hstart | ⟨k, hoffered, hk, hclass⟩
      · exact .inl hstart
      · exact .inr ⟨k, hoffered, hk, hgrows _ _ hclass⟩
    · exact .inr hnew

variable {m' : Memory}

/-- Workers that stay as they are hold what they held. -/
theorem Inv.exchanging_grows (h : Inv s start events sys seen) (hm : sys.process = some m)
    (hgrows : sys.files.Grows files) (hworkers : m'.workers = m.workers) :
    Unsent files seen m' := by
  intro k id body hk
  rw [hworkers] at hk
  obtain ⟨hmarked, hunsent⟩ := h.exchanging m hm k id body hk
  exact ⟨hmarked.grows hgrows, hunsent⟩

/-- The memory of a process that survived an action is the one the action left. -/
theorem eq_of_survived {memory : Memory}
    (h : (if killed = true then none else some memory) = some m) : m = memory := by
  split_ifs at h
  exact (Option.some.inj h).symm

/-- An action that shows nothing keeps the invariant, whether the process survives it or not. -/
theorem Inv.silent (h : Inv s start events sys seen) (hgrows : sys.files.Grows files)
    (hrequests : NewRequests events sys.files files) (hm : Unsent files seen m) :
    Inv s start events ⟨files, if killed = true then none else some m⟩ (seen ++ []) := by
  refine h.quiet hgrows hrequests nofun rfl fun m' hm' => ?_
  rwa [eq_of_survived hm']

/-- Files that are not requests leave the requests alone. -/
theorem newRequests_of_adds {P : Text → Bytes → Prop} {w' : World} (h : Adds P w w')
    (hP : ∀ id body, ¬ P (path id "request") body) : NewRequests events w.files w'.files :=
  fun id body hbody => (h.origin _ _ hbody).imp (fun h => h) fun h => absurd h (hP id body)

theorem inv_start (h : Inv s start events sys seen) (hnone : sys.process = none) (e : Event)
    (he : e.request = .start) : Inv s start events (step s sys e).1 (seen ++ (step s sys e).2) := by
  obtain ⟨files, process⟩ := sys
  obtain ⟨request, fault, killed⟩ := e
  cases hnone
  cases he
  simp only [step]
  generalize hw : (⟨files, _, fault⟩ : World) = w
  have hfiles : w.files = files := by rw [← hw]
  obtain ⟨hgrows, horigin⟩ := openService_files (s := s) (w := w)
  have hrequests : NewRequests events w.files (openService s w).2.files := fun id body hbody =>
    (horigin _ _ hbody).imp (fun h => h) fun h => absurd h (path_ne_profile id "request")
  rw [hfiles] at hgrows hrequests
  split
  next w' hopen =>
    rw [hopen] at hgrows hrequests
    refine h.silent hgrows hrequests fun k id body hk => ?_
    rw [openService_workers hopen] at hk
    cases hk
  next err w' hopen =>
    rw [hopen] at hgrows hrequests
    exact h.quiet hgrows hrequests nofun rfl nofun

theorem adds_callWorld (q : Query) (w : World) : Adds (fun _ _ => True) w (callWorld s q w) := by
  cases q with
  | offer k id body recovery => exact (adds_offer s w).imp fun _ _ _ => trivial
  | fetch k id digest recovery => exact (adds_fetch w).imp fun _ _ h => h.elim

theorem newRequests_callWorld (he : e ∈ events) (hq : e.request = .call q) :
    NewRequests events w.files (callWorld s q w).files := by
  cases q with
  | offer k id body recovery =>
    intro other b hb
    change (offer s k id body recovery w).2.files.get? _ = _ at hb
    rw [offer_snd_files] at hb
    rcases takeCustody_requestsFrom other b hb with hold | ⟨rfl, rfl, hk, hclass⟩
    · exact .inl hold
    · refine .inr ⟨k, ⟨e, he, recovery, hq⟩, hk, ?_⟩
      change (offer s k other b recovery w).2.files.get? _ = _
      rw [offer_snd_files]
      exact hclass
  | fetch k id digest recovery =>
    exact newRequests_of_adds (adds_fetch w) fun _ _ h => h

/-- The answer that was returned, if one was. -/
theorem answered_of_mem {r : Result DispatchState}
    (h : o ∈ (match killed, r with | false, .ok state => [Observation.answered q state] | _, _ => []))
    : ∃ state, r = .ok state ∧ o = .answered q state := by
  split at h
  next state =>
    exact ⟨state, rfl, mem_singleton.1 h⟩
  · cases h

/-- What a call shows is on file after it. -/
theorem justified_call (h : o ∈ callObservations s killed q w) :
    Justified s (callWorld s q w).files o := by
  cases q with
  | offer k id body recovery =>
    rcases mem_append.1 h with h | h
    · split at h
      next a hcustody =>
        rw [mem_singleton.1 h]
        change Ticket s (offer s k id body recovery w).2.files k id body recovery
        rw [offer_snd_files]
        exact (takeCustody_eq_ok (Prod.ext hcustody rfl)).1
      · cases h
    · obtain ⟨state, hstate, rfl⟩ := answered_of_mem h
      cases state with
      | ready v => exact offer_eq_ready (Prod.ext hstate rfl)
      | accepted | uncertain => trivial
  | fetch k id digest recovery =>
    obtain ⟨state, hstate, rfl⟩ := answered_of_mem h
    cases state with
    | ready v => exact fetch_eq_ready (Prod.ext hstate rfl)
    | accepted | uncertain => trivial

/-- A call sends nothing. -/
theorem sentIds_call : sentIds (callObservations s killed q w) = [] := by
  refine filterMap_eq_nil_iff.2 fun o ho => ?_
  cases q with
  | offer k id body recovery =>
    rcases mem_append.1 ho with h | h
    · split at h
      · rw [mem_singleton.1 h]
        rfl
      · cases h
    · obtain ⟨state, -, rfl⟩ := answered_of_mem h
      rfl
  | fetch k id digest recovery =>
    obtain ⟨state, -, rfl⟩ := answered_of_mem ho
    rfl

theorem inv_call (h : Inv s start events sys seen) (hm : sys.process = some m) (he : e ∈ events)
    (hq : e.request = .call q) :
    Inv s start events (step s sys e).1 (seen ++ (step s sys e).2) := by
  simp only [step, hm, hq]
  have hadds := adds_callWorld (s := s) q ⟨sys.files, m, e.fault⟩
  refine h.quiet hadds.grows (newRequests_callWorld he hq) (fun o ho => justified_call ho)
    sentIds_call fun m' hm' => ?_
  rw [eq_of_survived hm']
  exact h.exchanging_grows hm hadds.grows hadds.workers

/-- The worker of another class is not changed. -/
theorem withWorker_eq (h : k' ≠ k) : (m.withWorker k phase).workers k' = m.workers k' :=
  Function.update_of_ne h _ _

@[simp] theorem withWorker_self : (m.withWorker k phase).workers k = phase :=
  Function.update_self _ _ _

theorem mem_sentIds : id ∈ sentIds seen ↔ ∃ k body, Observation.sent k id body ∈ seen := by
  constructor
  · intro h
    obtain ⟨o, ho, hid⟩ := mem_filterMap.1 h
    cases o with
    | sent k other body =>
      cases hid
      exact ⟨k, body, ho⟩
    | accepted | answered => cases hid
  · rintro ⟨k, body, ho⟩
    exact mem_filterMap.2 ⟨_, ho, rfl⟩

section
variable (h : Inv s start events sys seen)
include h

/-- A ticket without a dispatch marker was not sent. -/
theorem Inv.unsent (hfree : sys.files.get? (path id "dispatch") = none) : id ∉ sentIds seen := by
  intro hid
  obtain ⟨k, body, ho⟩ := mem_sentIds.1 hid
  have hmarked : Marked sys.files k id body := h.justified _ ho
  have hdispatch := hmarked.dispatch
  rw [Store.OrderedMap.contains_eq_false.2 hfree] at hdispatch
  cases hdispatch

/-- Workers after an action that moved one of them to a phase outside an exchange. -/
theorem Inv.exchanging_withWorker (hm : sys.process = some m) (hgrows : sys.files.Grows files)
    (hworkers : m'.workers = m.workers) (hphase : ∀ id body, phase ≠ .exchanging id body) :
    Unsent files seen (m'.withWorker k phase) := by
  intro k' id body hk'
  by_cases hsame : k' = k
  · subst hsame
    rw [withWorker_self] at hk'
    exact absurd hk' (hphase id body)
  · rw [withWorker_eq hsame] at hk'
    exact h.exchanging_grows hm hgrows hworkers k' id body hk'

theorem inv_scan (hm : sys.process = some m) (he : e.request = .scan k) :
    Inv s start events (step s sys e).1 (seen ++ (step s sys e).2) := by
  simp only [step, hm, he]
  split_ifs with hready
  · have hadds := adds_scan s (k := k) ⟨sys.files, m, e.fault⟩
    have hrequests : NewRequests events sys.files (scan s k ⟨sys.files, m, e.fault⟩).2.files := by
      refine newRequests_of_adds hadds fun id body hP => ?_
      obtain ⟨other, hname⟩ := hP
      exact absurd (path_inj hname).2 (by decide)
    split
    next id body w' hscan =>
      rw [hscan] at hadds hrequests
      refine h.silent hadds.grows hrequests fun k' id' body' hk' => ?_
      by_cases hsame : k' = k
      · subst hsame
        rw [withWorker_self] at hk'
        cases hk'
        obtain ⟨hclass, hrequest, hfree, hmarked⟩ := claimFirst_eq_ok hscan
        exact ⟨⟨hready.1, hadds.grows _ _ hclass, hadds.grows _ _ hrequest, hmarked⟩,
          h.unsent hfree⟩
      · rw [withWorker_eq hsame] at hk'
        exact h.exchanging_grows hm hadds.grows hadds.workers k' id' body' hk'
    next w' hscan =>
      rw [hscan] at hadds hrequests
      exact h.silent hadds.grows hrequests (h.exchanging_grows hm hadds.grows hadds.workers)
    next err w' hscan =>
      rw [hscan] at hadds hrequests
      apply h.silent hadds.grows hrequests
      exact h.exchanging_withWorker hm hadds.grows hadds.workers fun _ _ => by simp
  · simpa using h

end

variable {body' : Bytes}

/-- Two workers never hold one ticket. -/
theorem Marked.class_eq (h : Marked files k id body) (h' : Marked files k' id body') : k = k' :=
  classByte_inj h.class_lt h'.class_lt (Option.some.inj (h.classFile.symm.trans h'.classFile))

section
variable (h : Inv s start events sys seen)
include h

theorem inv_exchange (hm : sys.process = some m)
    {answer : Result Bytes} (he : e.request = .exchange k answer) :
    Inv s start events (step s sys e).1 (seen ++ (step s sys e).2) := by
  simp only [step, hm, he]
  split
  next id body hk =>
    obtain ⟨hmarked, hunsent⟩ := h.exchanging m hm k id body hk
    have hphase : ∀ i b, Phase.finishing id (exchangeResult s body answer) ≠ .exchanging i b :=
      fun _ _ => by simp
    have hworkers := h.exchanging_withWorker (k := k) hm (refl _) rfl hphase
    split
    · -- the frame is sent: the ticket was not sent before, and no other worker holds it
      have hids : sentIds (seen ++ [.sent k id body]) = sentIds seen ++ [id] := by
        rw [sentIds, filterMap_append]
        rfl
      refine ⟨fun o ho => ?_, ?_, fun m' hm' k' id' body' hk' => ?_, h.origin⟩
      · rcases mem_append.1 ho with ho | ho
        · exact h.justified o ho
        · rw [mem_singleton.1 ho]
          exact hmarked
      · rw [hids]
        exact nodup_append_comm.1 (nodup_cons.2 ⟨hunsent, h.once⟩)
      · rw [eq_of_survived hm'] at hk'
        obtain ⟨hmarked', hunsent'⟩ := hworkers k' id' body' hk'
        refine ⟨hmarked', ?_⟩
        rw [hids, mem_append, mem_singleton, not_or]
        refine ⟨hunsent', fun hsame => ?_⟩
        subst hsame
        have hclass : k' = k := hmarked'.class_eq hmarked
        subst hclass
        rw [withWorker_self] at hk'
        exact hphase _ _ hk'
    · exact h.silent (refl _) (fun _ _ hb => .inl hb) hworkers
  · simpa using h

theorem inv_finish (hm : sys.process = some m) (he : e.request = .finish k) :
    Inv s start events (step s sys e).1 (seen ++ (step s sys e).2) := by
  simp only [step, hm, he]
  split
  next id result hk =>
    have hkeeps : Action.Keeps (Adds fun name _ => name = path id "reply")
      (finishReply id result) :=
      adds_persist rfl
    have hadds := hkeeps ⟨sys.files, m, e.fault⟩
    apply h.silent hadds.grows
    · exact newRequests_of_adds hadds fun _ _ hname => absurd (path_inj hname).2 (by decide)
    · refine h.exchanging_withWorker hm hadds.grows hadds.workers fun _ _ => ?_
      split
      · simp
      · simp
  · simpa using h

/-- Every action keeps the invariant. -/
theorem inv_step (he : e ∈ events) :
    Inv s start events (step s sys e).1 (seen ++ (step s sys e).2) := by
  cases hprocess : sys.process with
  | none =>
    cases hrequest : e.request with
    | start => exact inv_start h hprocess e hrequest
    | call | scan | exchange | finish => simpa [step, hprocess, hrequest] using h
  | some m =>
    cases hrequest : e.request with
    | start => simpa [step, hprocess, hrequest] using h
    | call q => exact inv_call h hprocess he hrequest
    | scan k => exact inv_scan h hprocess hrequest
    | exchange k answer => exact inv_exchange h hprocess hrequest
    | finish k => exact inv_finish h hprocess hrequest

/-- The invariant holds after every run. -/
theorem inv_run {rest : List Event} (hrest : rest ⊆ events) :
    Inv s start events (run s sys rest).1 (seen ++ (run s sys rest).2) := by
  induction rest generalizing sys seen with
  | nil => simpa [run] using h
  | cons e rest ih =>
    have hstep := inv_step h (hrest mem_cons_self)
    have htail := ih hstep fun x hx => hrest (mem_cons_of_mem e hx)
    simpa [run] using htail

end

/-- A run starts without a process, on any directory. -/
theorem inv_init (s : Setup) (files : Files) (events : List Event) :
    Inv s files events ⟨files, none⟩ [] := by
  constructor
  · intro o ho
    cases ho
  · exact nodup_nil
  · intro m hm
    cases hm
  · intro id body hbody
    exact .inl hbody

/-- Everything seen of a run that starts on a directory. -/
def observations (s : Setup) (files : Files) (events : List Event) : List Observation :=
  (run s ⟨files, none⟩ events).2

/-- One capability, or two with the same tag. -/
def SameAccess (s : Setup) (r r' : Capability) : Prop :=
  r = r' ∨ (r ≠ r' ∧ s.accessTag r.1 = s.accessTag r'.1)

theorem sameAccess_of_tag {r r' : Capability} (h : s.accessTag r.1 = s.accessTag r'.1) :
    SameAccess s r r' := by
  by_cases hsame : r = r'
  · exact .inl hsame
  · exact .inr ⟨hsame, h⟩

/-- Two tickets on file under one name agree. -/
theorem Ticket.agree {recovery' : Capability}
    (h : Ticket s files k id body recovery) (h' : Ticket s files k' id body' recovery') :
    k = k' ∧ body = body' ∧ SameAccess s recovery recovery' := by
  obtain ⟨key, hkey, htag⟩ := h.access
  obtain ⟨key', hkey', htag'⟩ := h'.access
  have hk : key = key' := Option.some.inj (hkey.symm.trans hkey')
  subst hk
  refine ⟨?_, Option.some.inj (h.request.symm.trans h'.request),
    sameAccess_of_tag (htag.symm.trans htag')⟩
  exact classByte_inj h.class_lt h'.class_lt (Option.some.inj (h.classFile.symm.trans h'.classFile))

/-- The ticket behind an answer with a reply. -/
theorem Answers.ticket {v : Bytes} (h : Answers s files q v) :
    ∃ body, Ticket s files q.klass q.id body q.recovery ∧ q.Names s body ∧
      files.get? (path q.id "reply") = some v := by
  cases q with
  | offer k id body recovery => exact ⟨body, h.1, rfl, h.2⟩
  | fetch k id digest recovery =>
    obtain ⟨⟨body, hticket, hdigest⟩, hreply⟩ := h
    exact ⟨body, hticket, hdigest.symm, hreply⟩

/-- A ticket is sent to the native target at most once. What is sent is the body of every offer
that was taken into custody under the ticket, in its class, and it was offered in the run unless
its request was on file before. All replies returned for a ticket are the same bytes, and only
calls that agree on body, class and recovery capability with each other and with every offer in
custody are answered with one. -/
theorem one_exchange (s : Setup) (files : Files) (events : List Event) :
    (∀ id, (sentIds (observations s files events)).count id ≤ 1) ∧
    (∀ k id body, .sent k id body ∈ observations s files events →
      (∀ k' body' r, .accepted k' id body' r ∈ observations s files events →
        body' = body ∧ k' = k) ∧
      (files.get? (path id "request") = some body ∨ Offered events k id body)) ∧
    (∀ q v q' v', .answered q (.ready v) ∈ observations s files events →
      .answered q' (.ready v') ∈ observations s files events → q.id = q'.id →
        v = v' ∧ q.klass = q'.klass ∧ SameAccess s q.recovery q'.recovery ∧
          ∃ body, q.Names s body ∧ q'.Names s body) ∧
    ∀ k id body r q v, .accepted k id body r ∈ observations s files events →
      .answered q (.ready v) ∈ observations s files events → q.id = id →
        q.klass = k ∧ q.Names s body ∧ SameAccess s q.recovery r := by
  have hinv : Inv s files events (run s ⟨files, none⟩ events).1 (observations s files events) := by
    have hrun := inv_run (inv_init s files events) (List.Subset.refl events)
    simpa [observations] using hrun
  refine ⟨fun id => nodup_iff_count_le_one.1 hinv.once id, ?_, ?_, ?_⟩
  · intro k id body hsent
    have hmarked : Marked _ k id body := hinv.justified _ hsent
    constructor
    · intro k' body' r haccepted
      have hticket : Ticket s _ k' id body' r := hinv.justified _ haccepted
      refine ⟨Option.some.inj (hticket.request.symm.trans hmarked.request), ?_⟩
      exact classByte_inj hticket.class_lt hmarked.class_lt
        (Option.some.inj (hticket.classFile.symm.trans hmarked.classFile))
    · rcases hinv.origin id body hmarked.request with hstart | ⟨k', hoffered, hk', hclass⟩
      · exact .inl hstart
      · have hsame : k' = k := classByte_inj hk' hmarked.class_lt
          (Option.some.inj (hclass.symm.trans hmarked.classFile))
        exact .inr (hsame ▸ hoffered)
  · intro q v q' v' hq hq' hid
    have hanswers : Answers s _ q v := hinv.justified _ hq
    have hanswers' : Answers s _ q' v' := hinv.justified _ hq'
    obtain ⟨body, hticket, hnames, hreply⟩ := hanswers.ticket
    obtain ⟨body', hticket', hnames', hreply'⟩ := hanswers'.ticket
    rw [hid] at hticket hreply
    obtain ⟨hclass, hbody, haccess⟩ := hticket.agree hticket'
    subst hbody
    exact ⟨Option.some.inj (hreply.symm.trans hreply'), hclass, haccess, body, hnames, hnames'⟩
  · intro k id body r q v haccepted hq hid
    have hanswers : Answers s _ q v := hinv.justified _ hq
    have hticket : Ticket s _ k id body r := hinv.justified _ haccepted
    obtain ⟨body', hticket', hnames, -⟩ := hanswers.ticket
    rw [hid] at hticket'
    obtain ⟨hclass, hbody, haccess⟩ := hticket'.agree hticket
    exact ⟨hclass, hbody ▸ hnames, haccess⟩

end MiniDregg.AsyncDispatch
