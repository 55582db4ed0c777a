import MiniDregg.RoomKeys.ReleaseRuns

/-!
# Starting a release after a crash

A draft is staged in its own directory, the manifest last. Every release that is started
loads all directories, whatever their room, and gives up at the first that does not load. A
directory whose manifest was never stored does not load, so a death between the two blocks
every later release. All other directories load, and then a new release is drafted.
-/

namespace MiniDregg.RoomKeys

open Fallible Store Durable OrderedMap List
open Durable (Succeeds)

variable {c : Crypto} {w : World} {d : Draft} {op : Digest} {event : Event}

/-- Every stored manifest loads, and every directory is named by an operation. -/
structure WellKept (c : Crypto) (w : World) : Prop where
  loads : ∀ op d m, w.draft? op = some d → d.manifest = some m → d.load c op = .ok m
  named : ∀ name d, w.drafts.get? name = some d → ∃ op, directoryName op = name

theorem WellKept.empty : WellKept c .empty where
  loads := fun op d m hd => by cases hd
  named := fun name d hd => by cases hd

section
variable (h : WellKept c w)
include h

variable {f : Draft → Draft}

theorem WellKept.changeDraft
    (hload : ∀ d m, w.draft? op = some d → (f d).manifest = some m → (f d).load c op = .ok m) :
    WellKept c (w.changeDraft op f) where
  loads := fun op' d m hd hm => by
    rw [draft?_changeDraft] at hd
    split_ifs at hd with hsame
    · obtain ⟨d', hd', rfl⟩ := Option.map_eq_some_iff.1 hd
      subst hsame
      exact hload d' m hd' hm
    · exact h.loads op' d m hd hm
  named := fun name d hd => by
    simp only [World.changeDraft, get?_modify] at hd
    split_ifs at hd with hname
    · exact ⟨op, hname.symm⟩
    · exact h.named name d hd

/-- A change of the markers. -/
theorem WellKept.mark (hmanifest : ∀ d, (f d).manifest = d.manifest)
    (hcache : ∀ d, (f d).cache = d.cache) : WellKept c (w.changeDraft op f) := by
  apply h.changeDraft
  intro d m hd hm
  simp only [Draft.load, hmanifest, hcache]
  exact h.loads op d m hd ((hmanifest d).symm.trans hm)

theorem WellKept.note : WellKept c (w.note event) where
  loads := h.loads
  named := h.named

theorem WellKept.step {t : World} {settled : Prop} (hstep : Step c settled w t) : WellKept c t := by
  cases hstep with
  | @made op hfree =>
    constructor
    · intro op' d m hd hm
      rw [draft?_setDraft] at hd
      split_ifs at hd with hsame
      · cases hd
        cases hm
      · exact h.loads op' d m hd hm
    · intro name d hd
      simp only [World.setDraft, get?_insert] at hd
      split_ifs at hd with hname
      · exact ⟨op, hname.symm⟩
      · exact h.named name d hd
  | cached encrypted hd hopen =>
    apply h.changeDraft
    intro d' m hd' hm
    cases hd.symm.trans hd'
    cases hopen.symm.trans hm
  | staged hd hload =>
    apply h.changeDraft
    intro d' m' hd' hm'
    cases hd.symm.trans hd'
    cases hm'
    exact hload
  | accepted op => exact h.note
  | applied | disclosed => exact h.mark (fun _ => rfl) fun _ => rfl
  | handed happlied hdead => exact h.note
  | died reason hexists hevent =>
    apply WellKept.note
    exact h.mark (fun _ => rfl) fun _ => rfl

theorem WellKept.steps {t : World} {settled : Prop} (hsteps : Steps c settled w t) :
    WellKept c t := by
  induction hsteps with
  | refl => exact h
  | tail _ hstep ih => exact ih.step hstep

end

section Scan
variable {entries : List (Wire.Octets × Draft)}

theorem loadAll_isOk (h : ∀ e ∈ entries, ∃ op m, directoryName op = e.1 ∧ e.2.load c op = .ok m) :
    ∃ ms, loadAll c entries = .ok ms := by
  induction entries with
  | nil => exact ⟨[], rfl⟩
  | cons e rest ih =>
    obtain ⟨⟨name, hlength⟩, m, rfl, hm⟩ := h _ mem_cons_self
    obtain ⟨ms, hms⟩ := ih fun e he => h e (mem_cons_of_mem _ he)
    refine ⟨m :: ms, ?_⟩
    simp only [loadAll] at hm ⊢
    rw [dif_pos hlength, hm, ok_bind, hms]
    rfl

theorem loadAll_isError (hmem : (directoryName op, d) ∈ entries) (hmissing : d.manifest = none) :
    ∃ e, loadAll c entries = .error e := by
  induction entries with
  | nil => cases hmem
  | cons e rest ih =>
    obtain ⟨name, d'⟩ := e
    simp only [loadAll]
    rcases mem_cons.1 hmem with hhere | hlater
    · cases hhere
      have hlength : length (directoryName op) = 32 := op.2
      rw [dif_pos hlength]
      exact ⟨_, by simp only [Draft.load, hmissing, error_bind]; rfl⟩
    · obtain ⟨e, he⟩ := ih hlater
      split_ifs with hlength
      · cases hload : d'.load c ⟨name, hlength⟩ with
        | error e' => exact ⟨e', by rw [error_bind]⟩
        | ok m => exact ⟨e, by rw [ok_bind, he, error_bind]⟩
      · exact ⟨e, he⟩

end Scan

variable {k : KeyCustody} {call : Call} {spec : ReleaseSpec}

section FaultFree
variable {operation fresh : Digest}

theorem succeeds_load {f : Option Manifest → Durable World Manifest} {Q : Manifest → World → Prop}
    (hfree : w.draft? operation = none) (h : Succeeds (f none) w Q) :
    Succeeds (load c operation >>= f) w Q := by
  apply succeeds_bind
  apply succeeds_operation_bind
  simp only [id_eq, hfree]
  exact succeeds_pure h

/-- A release that is neither disclosed nor dead is killed, and no directory appears. -/
theorem succeeds_kill {reason : String} (hd : w.draft? operation = some d)
    (hstate : d.state = .drafted ∨ d.state = .applied) (hfree : w.draft? fresh = none) :
    Succeeds (kill operation reason event) w fun _ t => t.draft? fresh = none := by
  have hdead : d.dead = none := by
    cases hcase : d.dead with
    | none => rfl
    | some why => simp [Draft.state, hcase] at hstate
  have hpublish : Succeeds (publish operation "dead.json" (·.dead) reason fun w =>
      (w.changeDraft operation fun d => { d with dead := some reason }).note event) w
      fun _ t => t.draft? fresh = none := by
    apply succeeds_operation_bind
    simp only [id_eq, hd, Option.bind_some, hdead]
    apply succeeds_operation
    rw [draft?_note, draft?_changeDraft]
    split_ifs
    · rw [hfree, Option.map_none]
    · exact hfree
  apply succeeds_operation_bind
  simp only [id_eq, hd, Option.getD_some]
  rcases hstate with hstate | hstate
  · rw [hstate]
    exact hpublish
  · rw [hstate]
    exact hpublish

variable {proposal : String}

theorem succeeds_supersedeOne {m : Manifest}
    (hexists : ∃ d, w.draft? m.operation = some d) (hfree : w.draft? fresh = none) :
    Succeeds (supersedeOne proposal m) w fun _ t => t.draft? fresh = none := by
  obtain ⟨d, hd⟩ := hexists
  apply succeeds_operation_bind
  simp only [id_eq, hd, Option.getD_some]
  cases hstate : d.state with
  | dead | disclosed => exact succeeds_pure hfree
  | drafted => exact succeeds_kill hd (.inl hstate) hfree
  | applied => exact succeeds_kill hd (.inr hstate) hfree

theorem succeeds_supersede (c : Crypto) {ms : List Manifest}
    (hexists : ∀ m ∈ ms, ∃ d, w.draft? m.operation = some d) (hfree : w.draft? fresh = none) :
    Succeeds (supersede proposal ms) w fun _ t => t.draft? fresh = none := by
  induction ms generalizing w with
  | nil => exact succeeds_pure hfree
  | cons m rest ih =>
    apply succeeds_bind
    have hhere := hexists m mem_cons_self
    obtain ⟨a, t, hrun, ht⟩ : Succeeds (supersedeOne proposal m) w fun _ t =>
      t.draft? fresh = none := succeeds_supersedeOne hhere hfree
    have hends : Durable.Ends (supersedeOne proposal m) w fun _ t => Settles c False w t :=
      ends_supersedeOne hhere False.elim
    have hsteps := (hends []).1
    rw [hrun] at hsteps
    exact ⟨a, t, hrun, ih (fun m' hm' =>
      Steps.exists_draft hsteps (hexists m' (mem_cons_of_mem m hm'))) ht⟩

theorem succeeds_stageKey (hmade : w.draft? operation = some .made) :
    Succeeds (stageKey c k operation call spec (spec.manifest operation call.proposal)) w
      fun m t => Storable c operation m t ∧ (t.draft? operation).bind (·.manifest) = none := by
  have hsucceeds : Succeeds
      (stageKey c k operation call spec (spec.manifest operation call.proposal)) w
      fun _ t => (t.draft? operation).bind (·.manifest) = none := by
    unfold stageKey
    cases spec.key with
    | none => exact succeeds_pure (by rw [hmade]; rfl)
    | some key =>
      apply succeeds_operation_bind
      apply succeeds_operation_bind
      simp only [id_eq, draft?_changeDraft, if_pos, hmade, Option.map_some, Option.bind_some,
        okOr_some]
      exact succeeds_lift_bind rfl (succeeds_pure (by simp [draft?_changeDraft, hmade, Draft.made]))
  obtain ⟨m, t, hrun, hopen⟩ := hsucceeds
  have hends : Durable.Ends
      (stageKey c k operation call spec (spec.manifest operation call.proposal)) w
      fun r t => Steps c False w t ∧ ∀ m, r = .ok m → Storable c operation m t :=
        ends_stageKey hmade
  have hstorable := (hends []).2
  rw [hrun] at hstorable
  exact ⟨m, t, hrun, hstorable m rfl, hopen⟩

/-- A valid release is staged where no directory is. -/
theorem succeeds_stage (hspec : spec.check c = .ok ()) (hfree : w.draft? operation = none) :
    Succeeds (stage c k operation call spec) w fun _ _ => True := by
  unfold stage
  apply succeeds_lift_bind hspec
  apply succeeds_operation_bind
  apply succeeds_load hfree
  apply succeeds_lift_bind rfl
  apply succeeds_operation_bind
  apply succeeds_bind
  refine succeeds_mono (succeeds_stageKey (by rw [draft?_setDraft, if_pos rfl])) ?_
  rintro m t ⟨⟨d, hd, hload⟩, hopen⟩
  apply succeeds_bind
  apply succeeds_operation_bind
  simp only [id_eq, hopen]
  apply succeeds_operation
  apply succeeds_bind
  apply succeeds_operation_bind
  simp only [id_eq, draft?_changeDraft, if_pos, hd, Option.map_some, hload]
  apply succeeds_lift_bind rfl
  exact succeeds_pure (succeeds_pure trivial)

end FaultFree

section Drafting
variable
  {operation : Digest}

/-- Without faults a valid new release is drafted when every directory has its manifest. -/
theorem draftFor_succeeds (h : WellKept c w) (hbuild : call.build = .ok spec)
    (hroom : spec.room = call.room) (hspec : spec.check c = .ok ())
    (hfree : w.draft? operation = none)
    (hcomplete : ∀ op d, w.draft? op = some d → d.manifest.isSome = true) :
    Succeeds (draftFor c k operation call) w fun _ _ => True := by
  obtain ⟨all, hall⟩ : ∃ all, loadAll c w.drafts.entries = .ok all := by
    apply loadAll_isOk
    intro e he
    have hget := get?_eq_some.2 he
    obtain ⟨op, hop⟩ := h.named e.1 e.2 hget
    have hd : w.draft? op = some e.2 := by rw [World.draft?, hop, hget]
    obtain ⟨m, hm⟩ := Option.isSome_iff_exists.1 (hcomplete op e.2 hd)
    exact ⟨op, m, hop, h.loads op e.2 m hd hm⟩
  unfold draftFor
  apply succeeds_load hfree
  apply succeeds_lift_bind hbuild
  apply succeeds_lift_bind (a := ()) (refuseIf_eq_ok.2 (by simp [hroom]))
  apply succeeds_bind
  apply succeeds_operation_bind
  apply succeeds_lift_bind hall
  apply succeeds_pure
  apply succeeds_bind
  refine succeeds_mono (succeeds_supersede c (fun m hm => ?_) hfree) ?_
  · obtain ⟨d, hd⟩ := mem_loadAll hall (mem_of_mem_filter hm)
    exact ⟨d, get?_eq_some.2 hd.1⟩
  · exact fun _ t ht => succeeds_stage hspec ht

/-- A directory without its manifest refuses every new release. -/
theorem draftFor_refuses (hbuild : call.build = .ok spec) (hroom : spec.room = call.room)
    (hfree : w.draft? operation = none) (hd : w.draft? op = some d) (hmissing : d.manifest = none) :
    Durable.Refuses (draftFor c k operation call) w := by
  obtain ⟨e, he⟩ : ∃ e, loadAll c w.drafts.entries = .error e :=
    loadAll_isError (get?_eq_some.1 hd) hmissing
  unfold draftFor
  apply refuses_bind
  refine succeeds_operation_bind ?_
  simp only [id_eq, hfree]
  apply succeeds_pure
  apply refuses_bind
  refine ⟨spec, w, by rw [hbuild]; rfl, ?_⟩
  apply refuses_bind
  refine ⟨(), w, by simp [Durable.refuseIf, hroom]; rfl, ?_⟩
  apply refuses_bind_left
  apply refuses_bind
  refine succeeds_operation ?_
  apply refuses_bind_left
  simp only [id_eq, he]
  exact refuses_lift_error

/-- After any history, a new release with a valid spec gets past drafting exactly when every
draft directory has its manifest. -/
theorem drafting_iff (c : Crypto) (k : KeyCustody) (calls : List (Call × List Fate)) (call : Call)
    (spec : ReleaseSpec) (hbuild : call.build = .ok spec) (hroom : spec.room = call.room)
    (hspec : spec.check c = .ok ())
    (hfresh : (history c k .empty calls).draft? (operationOf c call.room call.proposal) = none) :
    (∃ m, (draftFor c k (operationOf c call.room call.proposal) call
        (history c k .empty calls) []).1 = .ok m) ↔
      ∀ op d, (history c k .empty calls).draft? op = some d → d.manifest.isSome = true := by
  constructor
  · rintro ⟨m, hm⟩ op d hd
    by_contra hmissing
    exact draftFor_refuses hbuild hroom hfresh hd (by simpa using hmissing) m hm
  · intro hcomplete
    have hkept : WellKept c (history c k .empty calls) := 
      WellKept.empty.steps (steps_history False.elim)
    obtain ⟨m, t, hrun, -⟩ := draftFor_succeeds (k := k) hkept hbuild hroom hspec hfresh hcomplete
    exact ⟨m, by rw [hrun]⟩

/-- What every release of the founding call is drafted from. -/
def foundingSpec : ReleaseSpec where
  room := 1
  keys := 2
  keysRef := "keys"
  purpose := "found"
  headBefore := none
  key := none
  deliveries := [⟨firstWrap, boundRelease⟩]

/-- After a release that was run to its end a second one is drafted. -/
theorem drafting_after_founding :
    ∃ m, (draftFor lastByteCrypto plainCustody (operationOf lastByteCrypto 1 "b")
      (foundingCall "b")
      (history lastByteCrypto plainCustody .empty [(foundingCall "a", [])]) []).1 = .ok m := by
  refine (drafting_iff lastByteCrypto plainCustody [(foundingCall "a", [])] (foundingCall "b")
    foundingSpec rfl rfl (by decide +kernel) (by decide +kernel)).2 ?_
  have hall : (history lastByteCrypto plainCustody .empty
    [(foundingCall "a", [])]).drafts.entries.all
      (fun e => e.2.manifest.isSome) = true := by decide +kernel
  intro op d hd
  exact all_eq_true.1 hall _ (get?_eq_some.1 hd)

/-- A process that dies before it stores the manifest. -/
def diedStaging : List (Call × List Fate) :=
  [(foundingCall "a", List.replicate 6 .done ++ [.killed false])]

/-- After that a new release with a valid spec is refused for the directory that is left. -/
theorem diedStaging_refuses :
    foundingSpec.check lastByteCrypto = .ok () ∧
    (history lastByteCrypto plainCustody .empty diedStaging).draft?
      (operationOf lastByteCrypto 1 "b") = none ∧
    (runRelease lastByteCrypto plainCustody (foundingCall "b")
      (history lastByteCrypto plainCustody .empty diedStaging) []).1 =
      .error "room release draft is incomplete; it is never disclosed (start a new operation)" := by
  refine ⟨?_, ?_, ?_⟩
  · decide +kernel
  · decide +kernel
  · decide +kernel

end Drafting

end MiniDregg.RoomKeys
