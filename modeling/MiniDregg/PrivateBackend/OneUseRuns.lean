import MiniDregg.PrivateBackend.OneUseSteps

/-!
# One use over every schedule

Every move of a world of disciplined calls is a change of its view that keeps
`Sound`. The reservation property of whole schedules follows.
-/

namespace MiniDregg.PrivateBackend

open Fallible TransitionJournal Call List View Function Anchor

variable {sha : Wire.Digest}

/-- The view of a world under a published journal, the packets that may still
be applied and the owners of the rows. -/
def World.view (w : World sha) (j : Journal) (pending : List (Nat × Bytes))
    (owner : Correlation → Option Call) : View :=
  ⟨w.disk, w.holder, w.clients, w.returned, j, pending, owner⟩

/-- The journal an anchor has published and the packets that may still be
applied: those in the queue and, after an uncertain write, the one it wrote. -/
inductive Standing (a : Anchor sha) (queue : List (Nat × Bytes)) :
    Journal → List (Nat × Bytes) → Prop
  | settled {j : Journal} (backed : a.Backed j none) : Standing a queue j queue
  | uncertain {j j' : Journal} {i : Nat} {b : Bytes} {ids g p} (backed : a.Backed j (some j'))
      (asks : Anchor.Asks b ids g p) (hj : j.reserveBatch ids g p = .ok j') :
      Standing a queue j ((i, b) :: queue)

variable {j : Journal} {a : Anchor sha}

theorem Standing.enqueue {queue pending : List (Nat × Bytes)}
    (h : Standing a queue j pending) (x : Nat × Bytes) :
    Standing a (queue ++ [x]) j (pending ++ [x]) := by
  cases h with
  | settled backed => exact .settled backed
  | uncertain backed asks hj => exact .uncertain backed asks hj

/-- A world of disciplined calls. -/
def World.Good (calls : Set Call) (w : World sha) : Prop :=
  ∃ j pending owner, (w.view j pending owner).Sound calls ∧ Standing w.anchor w.queue j pending

variable {calls : Set Call} {c : Call} {w : World sha}

namespace World.Good

theorem initial (disk : Path → Option Bytes) : World.Good calls (World.initial disk : World sha) :=
  ⟨_, _, _, sound_initial calls disk, .settled backed_fresh⟩

variable (h : w.Good calls)
include h

theorem begin (hD : Disciplined calls) (hc : c ∈ calls)
    (hfree : w.holder c.lockPath = none) : (w.begin c).Good calls := by
  obtain ⟨j, pending, owner, hs, hst⟩ := h
  exact ⟨j, pending, owner, hs.begin hD hc hfree, hst⟩

theorem endCall (i : Nat) : (w.endCall i).Good calls := by
  obtain ⟨j, pending, owner, hs, hst⟩ := h
  exact ⟨j, pending, owner, hs.endCall i, hst⟩

theorem lose (k : Nat) :
    World.Good calls { w with queue := w.queue.eraseIdx k } := by
  obtain ⟨j, pending, owner, hs, hst⟩ := h
  cases hst with
  | settled backed =>
    exact ⟨j, _, owner, hs.drop (eraseIdx_sublist _ _), .settled backed⟩
  | uncertain backed asks hj =>
    exact ⟨j, _, owner, hs.drop ((eraseIdx_sublist _ _).cons_cons _),
      .uncertain backed asks hj⟩

end World.Good

variable {v : View} {i : Nat} {b f : Bytes}

/-- The reservation packet of a view belongs to a call with its batch. -/
theorem View.Sound.sender (h : v.Sound calls)
    (hD : Disciplined calls) (hb : (i, b) ∈ v.pending)
    {ids : List Correlation} {g : Generation} {p : Purpose} (asks : Anchor.Asks b ids g p) :
    ∃ cl, v.clients[i]? = some cl ∧ b = cl.call.request ∧ ids = cl.call.ids ∧
      g = cl.call.generation ∧ p = cl.call.purpose := by
  obtain ⟨cl, hcl, hkind, -⟩ := h.packets i b hb
  rcases hkind with rfl | rfl
  · rcases asks.head with hh | hh <;> simp at hh
  · exact ⟨cl, hcl, rfl, asks.unique (hD.asks _ (h.mem_of_client hcl))⟩

theorem World.Good.restart (h : w.Good calls) (hD : Disciplined calls)
    (hopen : openAnchor w.anchor.file = (f, .ok a)) :
    World.Good calls { w with anchor := a, queue := [] } := by
  obtain ⟨j, pending, owner, hs, hst⟩ := h
  cases hst with
  | settled backed =>
    obtain ⟨f', a', hopen', hback⟩ := backed.reopen
    rw [hopen] at hopen'
    cases hopen'
    rcases hback with hback | ⟨_, hnone, -⟩
    · exact ⟨j, [], owner, hs.drop (nil_sublist _), .settled hback⟩
    · cases hnone
  | @uncertain j' i b ids g p backed asks hj =>
    obtain ⟨f', a', hopen', hback⟩ := backed.reopen
    rw [hopen] at hopen'
    cases hopen'
    rcases hback with hback | ⟨_, heq, hback⟩
    · exact ⟨j, [], owner, hs.drop (nil_sublist _), .settled hback⟩
    · obtain rfl := Option.some.inj heq
      obtain ⟨cl, hcl, rfl, rfl, rfl, rfl⟩ := hs.sender hD (mem_cons_self ..) asks
      have hcall : (w.view j ((i, cl.call.request) :: w.queue) owner).call i = some cl.call := by
        simp only [call, hcl, Option.map_some]
      have hgrant := hs.grant hD rfl hcall hj
      exact ⟨j', [], _, hgrant.drop (nil_sublist _), .settled hback⟩

variable {cl : Client}

theorem View.setPhase_self (hi : v.clients[i]? = some cl) : v.setPhase i cl.phase = v := by
  have hmodify : v.clients.modify i (fun cl' => { cl' with phase := cl.phase }) = v.clients := by
    refine ext_getElem? fun k => ?_
    rw [getElem?_modify]
    by_cases hik : i = k
    · subst hik
      simp [hi]
    · simp [hik]
  simp only [setPhase, hmodify]

variable {rest : List (Nat × Bytes)}

namespace View.Sound

variable
  {phase : Phase}

/-- What a call knows once it has read the journal: a survey sees no rival left
under way, and an audit changes nothing. -/
theorem phase_of_read (h : v.Sound calls) (hD : Disciplined calls)
    (hpend : v.pending = (i, [0]) :: rest) (hi : v.clients[i]? = some cl) (ho : cl.phase ≠ .ended)
    (hr : cl.phase.receive v.journal.encode = .ok phase) :
    PhaseSound calls { v with pending := rest } i cl.call phase := by
  have hsub : rest.Sublist v.pending := hpend ▸ sublist_cons_self _ _
  have hold := h.phases i cl hi
  have hnew := (h.drop hsub).phases i cl hi
  obtain ⟨cl', hi', -, hwait⟩ := h.packets i [0] (by simp [hpend])
  rw [hi] at hi'
  obtain rfl := Option.some.inj hi'
  have hwait := hwait ho
  cases hp : cl.phase with
  | surveying retained =>
    simp only [hp, Phase.receive, bind_eq_ok, pure_inj] at hr hold hnew
    obtain ⟨before, hdec, rfl⟩ := hr
    obtain rfl := Journal.decode_encode_eq hdec
    refine ⟨h.canonical, ?_, fun hr => (hnew.2 hr).1, fun hh hr => (hnew.2 hr).2.2 hh, ?_⟩
    · intro k d hk
      have hahead := hold.1
      rw [Ahead, hpend] at hahead
      exact (pairwise_cons.1 hahead).1 _ hk.2 rfl d hk.1 rfl
    · intro hh hholds
      exact absurd hholds (by simp [Holds, hh])
  | sending before =>
    rw [hp] at hwait
    have hask := (hD.asks _ (h.mem_of_client hi)).head
    rw [Option.some.inj hwait] at hask
    simp at hask
  | auditing known =>
    simp only [hp, Phase.receive, bind_eq_ok, pure_inj] at hr hnew
    obtain ⟨latest, -, rfl⟩ := hr
    exact hnew
  | locked | surveyed | intended | confirmed | recorded | audited | ended =>
    rw [hp] at hwait
    cases hwait

/-- What a call knows once its own reservation was applied. -/
theorem phase_of_applied (h : v.Sound calls) (hD : Disciplined calls)
    (hpend : v.pending = (i, cl.call.request) :: rest) (hi : v.clients[i]? = some cl)
    (ho : cl.phase ≠ .ended) (hr : cl.phase.receive j.encode = .ok phase) :
    (v.grant cl.call j rest).PhaseSound calls i cl.call phase := by
  have hc := h.mem_of_client hi
  obtain ⟨cl', hi', -, hwait⟩ := h.packets i cl.call.request (by simp [hpend])
  rw [hi] at hi'
  obtain rfl := Option.some.inj hi'
  have hwait := hwait ho
  have hread : cl.call.request ≠ [0] := by
    intro heq
    have hask := (hD.asks _ hc).head
    simp [heq] at hask
  cases hp : cl.phase with
  | sending before =>
    simp only [hp, Phase.receive, bind_eq_ok, pure_inj] at hr
    obtain ⟨confirmed, -, rfl⟩ := hr
    exact owned_grant_of_same hD hc hc ⟨rfl, rfl⟩
  | surveying | auditing =>
    rw [hp] at hwait
    exact absurd (Option.some.inj hwait).symm hread
  | locked | surveyed | intended | confirmed | recorded | audited | ended =>
    rw [hp] at hwait
    cases hwait

end View.Sound

variable {w' : World sha}

namespace World.Good

/-- A reply reaches a call that is over, or moves it to its next phase. -/
theorem deliver {owner : Correlation → Option Call}
    (hs : (w.view j rest owner).Sound calls) (hback : a.Backed j none) (hfree : ∀ b, (i, b) ∉ rest)
    (hphase : ∀ cl phase, w.clients[i]? = some cl → cl.phase ≠ .ended →
      cl.phase.receive j.encode = .ok phase →
        (w.view j rest owner).PhaseSound calls i cl.call phase) :
    World.Good calls ({ w with anchor := a, queue := rest }.deliver i j.encode) := by
  have hgood : World.Good calls { w with anchor := a, queue := rest } :=
    ⟨j, rest, owner, hs, .settled hback⟩
  unfold World.deliver
  cases hi : w.clients[i]? with
  | none => exact hgood
  | some cl =>
    simp only
    split
    · exact hgood.endCall i
    · cases hr : cl.phase.receive j.encode with
      | error e => exact hgood.endCall i
      | ok phase =>
        have hs' : ((w.view j rest owner).setPhase i phase).Sound calls := by
          by_cases ho : cl.phase = .ended
          · rw [ho] at hr
            obtain rfl := Except.ok.inj hr
            rw [← ho, setPhase_self hi]
            exact hs
          · exact hs.setPhase hi ho (hphase cl phase hi ho hr) hfree
        exact ⟨j, rest, owner, hs', .settled hback⟩

theorem serve (h : w.Good calls) (hD : Disciplined calls) (hq : w.queue = (i, b) :: rest)
    {fault : Option WriteFault} (hstep : w.step (.serve fault) = some w') :
    w'.Good calls := by
  obtain ⟨j, pending, owner, hs, hst⟩ := h
  simp only [World.step, hq] at hstep
  cases hst with
  | uncertain backed asks hj =>
    rw [handle_uncertain backed] at hstep
    obtain rfl := Option.some.inj hstep
    rw [hq] at hs
    have hgood : World.Good calls { w with queue := rest } :=
      ⟨j, _, owner, hs.drop ((sublist_cons_self (i, b) rest).cons_cons _),
        .uncertain backed asks hj⟩
    exact hgood.endCall i
  | settled backed =>
    rw [hq] at hs
    have hsub := sublist_cons_self (i, b) rest
    have hfree (b' : Bytes) : (i, b') ∉ rest :=
      fun hmem => (nodup_cons.1 hs.single).1 (mem_map.2 ⟨(i, b'), hmem, rfl⟩)
    have hhandled := handle_handled backed b fault
    generalize handle w.anchor b fault = out at hhandled hstep
    cases hhandled with
    | refused e =>
      obtain rfl := Option.some.inj hstep
      have hgood : World.Good calls { w with queue := rest } :=
        ⟨j, rest, owner, hs.drop hsub, .settled backed⟩
      exact hgood.endCall i
    | @uncertain a' j' ids g p e asks hj hback =>
      obtain rfl := Option.some.inj hstep
      have hgood : World.Good calls { w with anchor := a', queue := rest } :=
        ⟨j, _, owner, hs, .uncertain hback asks hj⟩
      exact hgood.endCall i
    | read hb =>
      obtain rfl := Option.some.inj hstep
      subst hb
      exact deliver (hs.drop hsub) backed hfree fun cl phase hi ho hr =>
        hs.phase_of_read hD rfl hi ho hr
    | @applied a' j' ids g p asks hj hback =>
      obtain rfl := Option.some.inj hstep
      obtain ⟨cl, hcl, rfl, rfl, rfl, rfl⟩ := hs.sender hD (mem_cons_self ..) asks
      have hcall : (w.view j ((i, cl.call.request) :: rest) owner).call i = some cl.call := by
        simp only [call, hcl, Option.map_some]
      have hgrant := hs.grant hD rfl hcall hj
      refine deliver hgrant hback hfree fun cl' phase hi ho hr => ?_
      obtain rfl := Option.some.inj (hcl.symm.trans hi)
      exact hs.phase_of_applied hD rfl hcl ho hr

end World.Good

/-! ## The code between two waits -/

/-- A call that keeps its intent on disk knows that no rival does. -/
theorem Disciplined.clear_of_intent (hD : Disciplined calls) (hc : c ∈ calls)
    (hdisk : v.disk c.intentPath = some c.intent) : v.Clear calls c := by
  intro d hd hr hfile
  rw [(hD.onePath d hd c hc hr).2, hdisk] at hfile
  exact hD.same_of_intent hd hc (Option.some.inj hfile).symm

section
variable (h : v.Sound calls) (hD : Disciplined calls) (hi : v.clients[i]? = some cl)
include h hD hi

/-- The intent of a surveyed call whose batch is not held may be written. -/
theorem View.Sound.writeIntent (ho : cl.phase ≠ .ended) (hun : v.Unrivalled cl.call)
    (hholds : ¬ v.Holds cl.call) :
    View.Sound calls { v with
      disk := update v.disk cl.call.intentPath (some cl.call.intent)
      holder := update v.holder cl.call.intentPath none } := by
  have hc := h.mem_of_client hi
  refine h.write (fun d hd => (hD.lockApart d hd _ hc).2) fun d hd _ hintent => ?_
  have hsame := hD.same_of_intent hd hc hintent
  obtain ⟨hids, hg, hp⟩ := hD.batch_of_same hd hc hsame
  refine ⟨?_, ?_, ?_⟩
  · simpa only [Holds, Call.held, hids, hg, hp] using hholds
  · intro k e hk hr
    exact hun k e hk (hD.rival_of_same hd hc hsame hr).symm
  · intro k cl' hk ho' hr
    obtain rfl := h.eq_of_rival hD hi hk ho ho' (hD.rival_of_same hd hc hsame hr)
    obtain rfl := Option.some.inj (hi.symm.trans hk)
    exact hsame

/-- A receipt may be written at any time. -/
theorem View.Sound.writeReceipt (j : Journal) :
    View.Sound calls { v with
      disk := update v.disk cl.call.localPath (some (cl.call.receiptFor j))
      holder := update v.holder cl.call.localPath none } := by
  have hc := h.mem_of_client hi
  refine h.write (fun d hd => (hD.lockApart d hd _ hc).1) fun d hd _ hintent => ?_
  exact absurd hintent.symm (hD.receiptFor_ne_intent hc hd j)

/-- A call that has just read its intent file starts its survey. -/
theorem View.Sound.survey (hp : cl.phase = .locked) {retained : Option Bytes}
    (hread : retained = v.disk cl.call.intentPath ∨ retained = none) :
    (v.post i [0] (.surveying retained)).Sound calls := by
  have hc := h.mem_of_client hi
  have ho : cl.phase ≠ .ended := by simp [hp]
  have hidle : awaits cl.call cl.phase = none := by rw [hp]; rfl
  have hnone := h.not_pending hi ho hidle
  refine h.post hD hi ho hidle rfl (.inl rfl) ⟨?_, fun hr => ?_⟩
  · refine ahead_post ?_ fun b hb => absurd hb (hnone b)
    refine List.Pairwise.imp_of_mem ?_ (pairwise_of_forall (R := fun _ _ => True) (by simp))
    rintro ⟨k, b⟩ y hx _ _ rfl
    exact absurd hx (hnone b)
  · have hdisk : v.disk cl.call.intentPath = some cl.call.intent := by
      rcases hread with hread | hread
      · rw [← hread, hr]
      · cases hread.symm.trans hr
    refine ⟨hD.clear_of_intent hc hdisk, ?_, h.retained _ hc hdisk⟩
    intro k d hk hrival
    rcases reserves_post.1 hk with hk | ⟨rfl, hreq, hd⟩
    · exact (h.flying k d hk _ hc hrival.symm hdisk).symm
    · have hask := (hD.asks d (h.members _ d hd)).head
      rw [hreq] at hask
      simp at hask

end

/-- A preflight that succeeds shows the batch was not held. -/
theorem Call.held_of_preflight {before after : Journal} (hcan : before.Canonical)
    (h : before.reserveBatch c.ids c.generation c.purpose = .ok after) : c.held before = false := by
  obtain ⟨hne, -, -, hfresh, -, -⟩ := Journal.reserveBatch_eq_ok.1 h
  rw [Bool.eq_false_iff]
  intro hheld
  obtain ⟨-, -, hrows⟩ := hcan.holdsBatch_iff.1 hheld
  obtain ⟨id, rest, hids⟩ := exists_cons_of_ne_nil hne
  have hid : id ∈ c.ids := by simp [hids]
  exact hfresh id hid (hcan.spent_of_allocatedTo (hrows id hid))

namespace World.Good

section
variable (h : w.Good calls) (hD : Disciplined calls)
include h hD

theorem advance (hi : w.clients[i]? = some cl) (ho : cl.phase ≠ .ended) {readable : Bool}
    {e : Effect} (he : cl.call.advance w.disk readable cl.phase = .ok e) :
    (w.perform i cl.call e).Good calls := by
  obtain ⟨j, pending, owner, hs, hst⟩ := h
  have hphase := hs.phases i cl hi
  have hidle := hs.not_pending hi ho
  have hc := hs.mem_of_client hi
  cases hp : cl.phase with
  | locked =>
    rw [hp] at he
    obtain rfl := Except.ok.inj he
    refine ⟨j, _, owner, hs.survey hD hi hp ?_, hst.enqueue _⟩
    cases readable
    · exact .inr rfl
    · exact .inl rfl
  | surveyed retained before =>
    rw [hp] at he hphase hidle
    obtain ⟨hcan, hun, hclear, howned, hholds⟩ := hphase
    simp only [Call.advance] at he
    split at he
    next hrec =>
      obtain rfl := Except.ok.inj he
      simp only [Bool.and_eq_true, decide_eq_true_eq] at hrec
      exact ⟨j, pending, owner, hs.setPhase hi ho (howned hrec.1 hrec.2) (hidle rfl), hst⟩
    · obtain rfl := Except.ok.inj he
      by_cases hw : (!cl.call.held before && decide (retained ≠ some cl.call.intent)) = true
      · simp only [hw, if_true, World.perform]
        simp only [Bool.and_eq_true, Bool.not_eq_true', decide_eq_true_eq] at hw
        have hs' := hs.writeIntent hD hi ho hun (hholds hw.1)
        exact ⟨j, pending, owner, hs'.setPhase hi ho
          ⟨hcan, fun _ => hD.clear_of_intent hc (update_self _ _ _)⟩ (hidle rfl), hst⟩
      · simp only [hw, World.perform]
        refine ⟨j, pending, owner, hs.setPhase hi ho ⟨hcan, fun hh => hclear ?_⟩ (hidle rfl), hst⟩
        simpa [hh] using hw
  | intended before =>
    rw [hp] at he hphase hidle
    simp only [Call.advance, bind_eq_ok, refuseIf_eq_ok, pure_inj] at he
    obtain ⟨after, hpre, -, -, rfl⟩ := he
    have hclear := hphase.2 (Call.held_of_preflight hphase.1 hpre)
    exact ⟨j, _, owner, hs.post hD hi ho (by rw [hp]; rfl) rfl (.inr ⟨rfl, hclear⟩) trivial,
      hst.enqueue _⟩
  | confirmed before confirmed =>
    rw [hp] at he hphase hidle
    simp only [Call.advance, bind_eq_ok, pure_inj] at he
    obtain ⟨-, -, rfl⟩ := he
    have hs' := hs.writeReceipt hD hi confirmed
    exact ⟨j, pending, owner, hs'.setPhase hi ho hphase (hidle rfl), hst⟩
  | recorded confirmed =>
    rw [hp] at he hphase hidle
    simp only [Call.advance, bind_eq_ok, refuseIf_eq_ok, pure_inj] at he
    obtain ⟨-, -, rfl⟩ := he
    exact ⟨j, _, owner, hs.post hD hi ho (by rw [hp]; rfl) rfl (.inl rfl) hphase,
      hst.enqueue _⟩
  | audited confirmed latest =>
    rw [hp] at he hphase
    simp only [Call.advance, bind_eq_ok, refuseIf_eq_ok, pure_inj] at he
    obtain ⟨-, -, rfl⟩ := he
    have hs' := hs.endCall i
    refine ⟨j, pending, owner, ?_, hst⟩
    exact { hs' with returned := forall_mem_cons.2 ⟨⟨hc, hphase⟩, hs'.returned⟩ }
  | surveying | sending | auditing =>
    rw [hp] at he
    cases he
  | ended => exact absurd hp ho

/-- Every move keeps a world of disciplined calls good. -/
theorem step {a : Action} (hcalls : ∀ c, a = .start c → c ∈ calls) (hstep : w.step a = some w') :
    w'.Good calls := by
  cases a with
  | start c =>
    simp only [World.step] at hstep
    split at hstep
    · obtain rfl := Option.some.inj hstep
      exact h
    next hfree =>
      obtain rfl := Option.some.inj hstep
      exact h.begin hD (hcalls c rfl) (by simpa using hfree)
  | advance i readable =>
    simp only [World.step] at hstep
    split at hstep
    · cases hstep
    next cl hi =>
      split at hstep
      · cases hstep
      next hended =>
        have ho : cl.phase ≠ .ended := by
          intro hp
          exact hended (by rw [hp]; rfl)
        split at hstep
        · obtain rfl := Option.some.inj hstep
          exact h.endCall i
        next e he =>
          obtain rfl := Option.some.inj hstep
          exact h.advance hD hi ho he
  | serve fault =>
    cases hq : w.queue with
    | nil => simp [World.step, hq] at hstep
    | cons packet rest => exact h.serve hD hq hstep
  | lose k =>
    obtain rfl := Option.some.inj hstep
    exact h.lose k
  | restart =>
    simp only [World.step] at hstep
    split at hstep
    · cases hstep
    next f a hopen =>
      obtain rfl := Option.some.inj hstep
      exact h.restart hD hopen
  | crash i =>
    obtain rfl := Option.some.inj hstep
    exact h.endCall i

theorem run {actions : List Action} (hcalls : ∀ c, .start c ∈ actions → c ∈ calls)
    (hrun : w.run actions = some w') : w'.Good calls := by
  induction actions generalizing w with
  | nil =>
    obtain rfl := Option.some.inj hrun
    exact h
  | cons a rest ih =>
    simp only [World.run] at hrun
    split at hrun
    · cases hrun
    next w₁ hstep =>
      have h₁ := h.step hD (fun c hc => hcalls c (by simp [hc])) hstep
      exact ih h₁ (fun c hc => hcalls c (by simp [hc])) hrun

end

end World.Good

/-- Over every schedule of a disciplined set of calls against one anchor, with
lost packets, lost replies, write faults, restarts and crashes anywhere, all
calls that return `Ok` for a common row carried the same receipt prefix and the
same request. -/
theorem reservation_oneUse {calls : Set Call} (hD : Disciplined calls) (disk : Path → Option Bytes)
    {actions : List Action} (hcalls : ∀ c, .start c ∈ actions → c ∈ calls) {w : World sha}
    (hrun : (World.initial disk : World sha).run actions = some w) {r r' : Returned}
    (hr : r ∈ w.returned) (hr' : r' ∈ w.returned) (hmeet : ∃ id ∈ r.call.ids, id ∈ r'.call.ids) :
    r.call.receipt = r'.call.receipt ∧ r.call.request = r'.call.request := by
  obtain ⟨j, pending, owner, hs, -⟩ := (World.Good.initial disk).run hD hcalls hrun
  obtain ⟨id, hid, hid'⟩ := hmeet
  obtain ⟨o, ho, hsame⟩ := (hs.returned r hr).2 id hid
  obtain ⟨o', ho', hsame'⟩ := (hs.returned r' hr').2 id hid'
  rw [ho] at ho'
  obtain rfl := Option.some.inj ho'
  exact hsame.symm.trans hsame'

end MiniDregg.PrivateBackend
