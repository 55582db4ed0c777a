import MiniDregg.RoomKeys.Release

/-!
# The steps of a release

Every call, however it ends, changes the drafts of a client by single steps: a directory is
made, a file of it is published, wraps are handed over. A step says what the program knew when
it was taken. What all histories have in common is proved of one step.
-/

namespace MiniDregg.RoomKeys

open Fallible Store Durable List OrderedMap
open Durable (Ends)
open Relation (ReflTransGen)

variable {w t : World} {operation : Digest} {d : Draft} {event : Event} {c : Crypto}
  {settled : Prop}

section Worlds
variable {other : Digest} {f : Draft → Draft}

theorem directoryName_inj {a b : Digest} : directoryName a = directoryName b ↔ a = b :=
  ⟨fun h => Subtype.ext h, fun h => congrArg directoryName h⟩

theorem draft?_setDraft :
    (w.setDraft operation d).draft? other =
      if other = operation then some d else w.draft? other := by
  simp only [World.setDraft, World.draft?, get?_insert, directoryName_inj]

theorem draft?_changeDraft :
    (w.changeDraft operation f).draft? other =
      if other = operation then (w.draft? other).map f else w.draft? other := by
  simp only [World.changeDraft, World.draft?, get?_modify, directoryName_inj]

@[simp] theorem draft?_note : (w.note event).draft? other = w.draft? other := rfl

@[simp] theorem log_changeDraft : (w.changeDraft operation f).log = w.log := rfl

@[simp] theorem log_note : (w.note event).log = w.log ++ [event] := rfl

/-- The release of an operation is marked as dead. -/
def World.Dead (w : World) (operation : Digest) : Prop :=
  ∃ d, w.draft? operation = some d ∧ d.dead.isSome = true

def World.Applied (w : World) (operation : Digest) : Prop :=
  ∃ d, w.draft? operation = some d ∧ d.applied.isSome = true

/-- If the wraps of a release were handed over, then its disclosure is stored. -/
def World.Settled (w : World) (operation : Digest) : Prop :=
  .handed operation ∈ w.log → ∀ d, w.draft? operation = some d → d.disclosed.isSome = true

/-- A death does not unsettle a release. -/
theorem World.Settled.die {reason : String} (h : w.Settled other)
    (hevent : event ≠ .handed other) :
    ((w.changeDraft operation fun d => { d with dead := some reason }).note event).Settled
      other := by
  intro hhanded d hd
  have hhanded' : .handed other ∈ w.log := by simpa [hevent.symm] using hhanded
  rw [draft?_note, draft?_changeDraft] at hd
  split_ifs at hd
  · obtain ⟨old, hold, rfl⟩ := Option.map_eq_some_iff.1 hd
    exact h hhanded' old hold
  · exact h hhanded' d hd

/-- One change of the drafts. Under the assumption `settled` no release is superseded after its
wraps were handed over. -/
inductive Step (c : Crypto) (settled : Prop) : World → World → Prop
  | made {w : World} {op : Digest} (hfree : w.draft? op = none) : Step c settled w
    (w.setDraft op .made)
  | cached {w : World} {op : Digest} {d : Draft} (encrypted : Bytes)
      (hd : w.draft? op = some d) (hopen : d.manifest = none) :
      Step c settled w (w.changeDraft op fun d => { d with cache := some encrypted })
  | staged {w : World} {op : Digest} {d : Draft} {m : Manifest} (hd : w.draft? op = some d)
      (hload : { d with manifest := some m }.load c op = .ok m) :
      Step c settled w (w.changeDraft op fun d => { d with manifest := some m })
  | accepted {w : World} (op : Digest) : Step c settled w (w.note (.accepted op))
  | applied {w : World} {op : Digest} (releases : List Nat) (haccepted : .accepted op ∈ w.log) :
      Step c settled w (w.changeDraft op fun d => { d with applied := some releases })
  | handed {w : World} {op : Digest} (happlied : w.Applied op) (hdead : ¬ w.Dead op) :
      Step c settled w (w.note (.handed op))
  | disclosed {w : World} (op : Digest) :
      Step c settled w (w.changeDraft op fun d => { d with disclosed := some () })
  /-- A release dies of what the event tells. -/
  | died {w : World} {op : Digest} {event : Event} (reason : String)
      (hexists : ∃ d, w.draft? op = some d)
      (hevent : event = .superseded op ∧ (settled → .handed op ∉ w.log) ∨
        event = .refused op ∧ ¬ w.Applied op) :
      Step c settled w ((w.changeDraft op fun d => { d with dead := some reason }).note event)

/-- The steps of a call or of a history. -/
abbrev Steps (c : Crypto) (settled : Prop) : World → World → Prop :=
  ReflTransGen (Step c settled)

theorem steps_stop {α : Type} (h : Steps c settled w t) :
    Stops (fun (_ : Ending α) t => Steps c settled w t) t := ⟨fun _ => h, h⟩

theorem Step.exists_draft (h : Step c settled w t) (hexists : ∃ d, w.draft? operation = some d) :
    ∃ d, t.draft? operation = some d := by
  obtain ⟨d, hd⟩ := hexists
  have hchange : ∀ op f, ∃ d, (w.changeDraft op f).draft? operation = some d := by
    intro op f
    rw [draft?_changeDraft]
    split_ifs
    · exact ⟨f d, by rw [hd, Option.map_some]⟩
    · exact ⟨d, hd⟩
  cases h with
  | made hfree =>
    rw [draft?_setDraft]
    split_ifs
    · exact ⟨_, rfl⟩
    · exact ⟨d, hd⟩
  | cached | staged | applied | disclosed | died => exact hchange _ _
  | accepted | handed => exact ⟨d, hd⟩

/-- No directory disappears. -/
theorem Steps.exists_draft (h : Steps c settled w t) (hexists : ∃ d, w.draft? operation = some d) :
    ∃ d, t.draft? operation = some d := by
  induction h with
  | refl => exact hexists
  | tail _ hstep ih => exact hstep.exists_draft ih

end Worlds

variable {k : KeyCustody} {m : Manifest} {call : Call}

section Files
variable {β : Type}

theorem Draft.load_eq_ok (h : d.load c operation = .ok m) :
    d.manifest = some m ∧ m.operation = operation := by
  unfold Draft.load at h
  cases hm : d.manifest with
  | none => simp [hm] at h
  | some m' =>
    simp only [hm] at h
    obtain ⟨hop, h⟩ := check_bind_eq_ok.1 h
    have hsame : m' = m := by
      split_ifs at h
      · obtain ⟨_, -, h⟩ := bind_eq_ok.1 h
        obtain ⟨_, -, h⟩ := bind_eq_ok.1 h
        exact Except.ok.inj (check_bind_eq_ok.1 h).2
      · exact Except.ok.inj h
    subst hsame
    exact ⟨rfl, by simpa using hop⟩

variable {Q : Ending β → World → Prop}

theorem ends_load_bind {f : Option Manifest → Durable World β}
    (hnone : w.draft? operation = none → Ends (f none) w Q)
    (hsome : ∀ d m, w.draft? operation = some d → d.load c operation = .ok m →
      Ends (f (some m)) w Q)
    (hstop : Stops Q w) :
    Ends (load c operation >>= f) w Q := by
  apply ends_bind
  refine ends_read_bind ?_ hstop
  cases hd : w.draft? operation with
  | none => exact ends_pure (hnone hd)
  | some d =>
    refine ends_lift_bind (fun m hm => ?_) fun e _ => hstop.1 e
    exact ends_pure (hsome d m hd hm)

theorem ends_publish {α : Type} [DecidableEq α] {name : String} {file : Draft → Option α}
    {value : α} {effect : World → World} {Q : Ending Unit → World → Prop}
    (hheld : (w.draft? operation).bind file = some value → Q (.ok ()) w)
    (hok : (w.draft? operation).bind file = none → Q (.ok ()) (effect w))
    (hstored : (w.draft? operation).bind file = none → Q .killed (effect w))
    (hstop : Stops Q w) :
    Ends (publish operation name file value effect) w Q := by
  refine ends_read_bind ?_ hstop
  cases hprior : (w.draft? operation).bind file with
  | some prior =>
    refine ends_refuseIf (fun hsame => ?_) fun _ => hstop.1 _
    have hsame : prior = value := by simpa using hsame
    exact hheld (hsame ▸ hprior)
  | none => exact ends_operation (hok hprior) hstop (hstored hprior)

/-- Steps after which no release is less settled. -/
def Settles (c : Crypto) (settled : Prop) (w t : World) : Prop :=
  Steps c settled w t ∧ ∀ op, w.Settled op → t.Settled op

theorem Settles.refl : Settles c settled w w := ⟨.refl, fun _ h => h⟩

theorem settles_stop {α : Type} (h : Settles c settled w t) :
    Stops (fun (_ : Ending α) t => Settles c settled w t) t := ⟨fun _ => h, h⟩

/-- A release dies with the event that it dies of. -/
theorem ends_kill {reason : String} (hexists : ∃ d, w.draft? operation = some d)
    (hevent : event = .superseded operation ∧ (settled → .handed operation ∉ w.log) ∨
      event = .refused operation ∧ ¬ w.Applied operation) :
    Ends (kill operation reason event) w fun _ t => Settles c settled w t := by
  have hdead : Ends (publish operation "dead.json" (·.dead) reason fun w =>
      (w.changeDraft operation fun d => { d with dead := some reason }).note event) w
      fun _ t => Settles c settled w t := by
    have hdied : Settles c settled w
        ((w.changeDraft operation fun d => { d with dead := some reason }).note event) := by
      refine ⟨.single (.died reason hexists hevent), fun op hop => hop.die ?_⟩
      rcases hevent with ⟨rfl, -⟩ | ⟨rfl, -⟩ <;> simp
    exact ends_publish (fun _ => .refl) (fun _ => hdied) (fun _ => hdied) (settles_stop .refl)
  refine ends_read_bind ?_ (settles_stop .refl)
  cases ((w.draft? operation).getD .made).state with
  | dead why => exact ends_pure .refl
  | disclosed => exact ends_lift_error .refl
  | drafted | applied => exact hdead

variable {ms : List Manifest}

theorem mem_loadAll {entries : List (Wire.Octets × Draft)} (h : loadAll c entries = .ok ms)
    (hm : m ∈ ms) : ∃ d, (directoryName m.operation, d) ∈ entries ∧ d.manifest = some m := by
  induction entries generalizing ms with
  | nil =>
    cases h
    cases hm
  | cons e rest ih =>
    obtain ⟨name, d⟩ := e
    simp only [loadAll] at h
    split_ifs at h with hlength
    · obtain ⟨m', hm', h⟩ := bind_eq_ok.1 h
      obtain ⟨others, hothers, h⟩ := bind_eq_ok.1 h
      cases h
      rcases mem_cons.1 hm with rfl | hm
      · obtain ⟨hmanifest, hop⟩ := Draft.load_eq_ok hm'
        exact ⟨d, by simp [hop, directoryName], hmanifest⟩
      · exact (ih hothers hm).imp fun _ hd => ⟨mem_cons_of_mem _ hd.1, hd.2⟩
    · exact (ih h hm).imp fun _ hd => ⟨mem_cons_of_mem _ hd.1, hd.2⟩

/-- The releases of a room are listed without a change, and each has its directory. -/
theorem ends_draftsOfRoom_bind {room : UInt64} {f : List Manifest → Durable World β}
    (hok : ∀ ms, (∀ m ∈ ms, m.room = room ∧
      ∃ d, w.draft? m.operation = some d ∧ d.manifest = some m) → Ends (f ms) w Q)
    (hstop : Stops Q w) :
    Ends (draftsOfRoom c room >>= f) w Q := by
  apply ends_bind
  refine ends_read_bind ?_ hstop
  refine ends_lift_bind (fun all hall => ?_) fun e _ => hstop.1 e
  refine ends_pure (hok _ fun m hm => ?_)
  obtain ⟨hmem, hroom⟩ := mem_filter.1 hm
  obtain ⟨d, hd, hmanifest⟩ := mem_loadAll hall hmem
  exact ⟨by simpa using hroom, d, get?_eq_some.2 hd, hmanifest⟩

variable {proposal : String}

/-- A release that is neither disclosed nor dead has no disclosure. -/
theorem not_disclosed_of_state (hstate : d.state = .drafted ∨ d.state = .applied) :
    d.disclosed.isSome = false := by
  cases hdisclosed : d.disclosed with
  | none => rfl
  | some u => cases hdead : d.dead <;> simp [Draft.state, hdead, hdisclosed] at hstate

theorem ends_supersedeOne (hexists : ∃ d, w.draft? m.operation = some d)
    (hsettled : settled → w.Settled m.operation) :
    Ends (supersedeOne proposal m) w fun _ t => Settles c settled w t := by
  obtain ⟨d, hd⟩ := hexists
  refine ends_read_bind ?_ (settles_stop .refl)
  rw [hd, Option.getD_some]
  have hkill (hstate : d.state = .drafted ∨ d.state = .applied) :
      Ends (kill m.operation s!"superseded by release {proposal}" (.superseded m.operation)) w
        fun _ t => Settles c settled w t := by
    refine ends_kill ⟨d, hd⟩ (.inl ⟨rfl, fun h hhanded => ?_⟩)
    have hdisclosed := hsettled h hhanded d hd
    rw [not_disclosed_of_state hstate] at hdisclosed
    cases hdisclosed
  cases hstate : d.state with
  | dead | disclosed => exact ends_pure .refl
  | drafted => exact hkill (.inl hstate)
  | applied => exact hkill (.inr hstate)

theorem ends_supersede (hexists : ∀ m ∈ ms, ∃ d, w.draft? m.operation = some d)
    (hsettled : settled → ∀ m ∈ ms, w.Settled m.operation) :
    Ends (supersede proposal ms) w fun _ t => Steps c settled w t := by
  induction ms generalizing w with
  | nil => exact ends_pure .refl
  | cons m rest ih =>
    refine ends_bind_of (ends_supersedeOne (c := c) (hexists m mem_cons_self)
      fun h => hsettled h m mem_cons_self) (fun _ _ ht => steps_stop ht.1) fun _ t ht => ?_
    refine ends_mono (ih (fun m' hm' => ?_) fun h m' hm' => ?_) fun _ _ hu => ht.1.trans hu
    · exact Steps.exists_draft ht.1 (hexists m' (mem_cons_of_mem m hm'))
    · exact ht.2 _ (hsettled h m' (mem_cons_of_mem m hm'))

/-- The manifest can be stored: its directory is open and will load. -/
def Storable (c : Crypto) (operation : Digest) (m : Manifest) (t : World) : Prop :=
  ∃ d, t.draft? operation = some d ∧ { d with manifest := some m }.load c operation = .ok m

variable {spec : ReleaseSpec}

theorem ends_stageKey (hmade : w.draft? operation = some .made) :
    Ends (stageKey c k operation call spec (spec.manifest operation call.proposal)) w
      fun r t => Steps c settled w t ∧ ∀ m, r = .ok m → Storable c operation m t := by
  unfold stageKey
  cases hkey : spec.key with
  | none =>
    refine ends_pure ⟨.refl, fun m hm => ?_⟩
    cases hm
    exact ⟨.made, hmade, by simp [Draft.load, ReleaseSpec.manifest, hkey]⟩
  | some key =>
    have hcached : Steps c settled w (w.changeDraft operation fun d =>
        { d with cache := some (k.saveCache call.passphrase spec.room key call.nonce) }) :=
      .single (.cached _ hmade rfl)
    have hheld : (w.changeDraft operation fun d =>
        { d with cache := some (k.saveCache call.passphrase spec.room key call.nonce) }).draft?
        operation = some { Draft.made with
          cache := some (k.saveCache call.passphrase spec.room key call.nonce) } := by
      rw [draft?_changeDraft, if_pos rfl, hmade, Option.map_some]
    refine ends_operation_bind ?_ ⟨fun _ => ⟨.refl, nofun⟩, .refl, nofun⟩ ⟨hcached, nofun⟩
    refine ends_read_bind ?_ ⟨fun _ => ⟨hcached, nofun⟩, hcached, nofun⟩
    refine ends_lift_bind (fun encrypted hencrypted => ?_) fun _ _ => ⟨hcached, by simp⟩
    refine ends_pure ⟨hcached, fun m hm => ?_⟩
    cases hm
    refine ⟨_, hheld, ?_⟩
    simp only [hheld, okOr_eq_ok, Option.bind_some, Option.some.injEq] at hencrypted
    simp [Draft.load, ReleaseSpec.manifest, hkey, hencrypted]

/-- What is asked of drafting: when it succeeds, the release has its directory. -/
def Drafts (c : Crypto) (settled : Prop) (operation : Digest) (w : World) (r : Ending Manifest)
    (t : World) : Prop :=
  Steps c settled w t ∧ ∀ m, r = .ok m → ∃ d, t.draft? operation = some d

theorem drafts_stop (h : Steps c settled w t) : Stops (Drafts c settled operation w) t :=
  ⟨fun _ => ⟨h, nofun⟩, h, nofun⟩

theorem ends_reload (h : Steps c settled w t) :
    Ends (do
      let staged ← load c operation
      lift (okOr staged "retained room release draft disappeared"))
      t (Drafts c settled operation w) := by
  refine ends_load_bind (fun _ => ?_) (fun d m hd _ => ?_) (drafts_stop h)
  · exact ends_lift_error ((drafts_stop h).1 _)
  · exact ends_pure ⟨h, fun _ _ => ⟨d, hd⟩⟩

theorem ends_stage (h : Steps c settled w t) :
    Ends (stage c k operation call spec) t (Drafts c settled operation w) := by
  unfold stage
  refine ends_lift_bind (fun _ _ => ?_) fun e _ => (drafts_stop h).1 e
  refine ends_steady_bind steady_elsewhere (fun _ => ?_) (drafts_stop h)
  refine ends_load_bind (fun hfree => ?_) (fun d m _ _ => ?_) (drafts_stop h)
  · have hmade : Steps c settled w (t.setDraft operation .made) := h.tail (.made hfree)
    refine ends_steady_bind (steady_refuseIf _ _) (fun _ => ?_) (drafts_stop h)
    refine ends_operation_bind ?_ (drafts_stop h)
      ((drafts_stop hmade).2)
    refine ends_bind_of (ends_stageKey (by rw [draft?_setDraft, if_pos rfl]))
      (fun _ _ hu => drafts_stop (hmade.trans hu.1)) ?_
    rintro m u ⟨hu, hstorable⟩
    have hu' : Steps c settled w u := hmade.trans hu
    obtain ⟨d, hd, hload⟩ := hstorable m rfl
    have hstaged : Steps c settled w (u.changeDraft operation fun d => { d with manifest := some m }) :=
      hu'.tail (.staged hd hload)
    apply ends_bind
    exact ends_publish (fun _ => ends_reload hu') (fun _ => ends_reload hstaged)
      (fun _ => (drafts_stop hstaged).2) (drafts_stop hu')
  · apply ends_bind
    exact ends_refuseIf (fun hfalse => by simp at hfalse) fun _ => (drafts_stop h).1 _

/-- The releases beside which a call may start one of its own: those of its room are settled. -/
def Call.Beside (call : Call) (operation : Digest) (w : World) : Prop :=
  w.draft? operation = none → ∀ op d m, w.draft? op = some d → d.manifest = some m →
    m.room = call.room → w.Settled op

theorem ends_draftFor (hbeside : settled → call.Beside operation w) :
    Ends (draftFor c k operation call) w (Drafts c settled operation w) := by
  unfold draftFor
  refine ends_load_bind (fun hfree => ?_) (fun d m hd _ => ?_) (drafts_stop .refl)
  · refine ends_lift_bind (fun spec _ => ?_) fun e _ => (drafts_stop .refl).1 e
    refine ends_steady_bind (steady_refuseIf _ _) (fun _ => ?_)
      (drafts_stop .refl)
    refine ends_draftsOfRoom_bind (fun ms hms => ?_) (drafts_stop .refl)
    refine ends_bind_of (ends_supersede (c := c) (fun m hm => ?_) fun h m hm => ?_)
      (fun _ _ => drafts_stop) fun _ _ => ends_stage
    · obtain ⟨-, d, hd, -⟩ := hms m hm
      exact ⟨d, hd⟩
    · obtain ⟨hroom, d, hd, hmanifest⟩ := hms m hm
      exact hbeside h hfree _ d m hd hmanifest hroom
  · exact ends_pure ⟨.refl, fun _ _ => ⟨d, hd⟩⟩

end Files

section Run
variable {deliveries : List Delivery}

/-- What is asked of the first turn: when it succeeds, the release is applied. -/
def Binds (c : Crypto) (settled : Prop) (operation : Digest) (w : World) (r : Ending Unit)
    (t : World) : Prop :=
  Steps c settled w t ∧ (r = .ok () → t.Applied operation)

theorem binds_stop (h : Steps c settled w t) : Stops (Binds c settled operation w) t :=
  ⟨fun _ => ⟨h, nofun⟩, h, nofun⟩

theorem ends_bindRelease (hexists : ∃ d, w.draft? operation = some d)
    (hnot : ¬ w.Applied operation) :
    Ends (bindRelease c operation call m deliveries) w (Binds c settled operation w) := by
  unfold bindRelease
  refine ends_lift_bind (fun _ _ => ?_) fun e _ => (binds_stop .refl).1 e
  iterate 3
    refine ends_steady_bind steady_elsewhere (fun _ => ?_) (binds_stop .refl)
  cases checkReadback c m deliveries call.founder call.me call.view call.members with
  | error why =>
    exact ends_bind_of (ends_kill (c := c) hexists (.inr ⟨rfl, hnot⟩))
      (fun _ _ ht => binds_stop ht.1) fun _ _ ht => ends_lift_error ((binds_stop ht.1).1 _)
  | ok _ =>
    have haccepted : Steps c settled w (w.note (.accepted operation)) :=
      .single (.accepted operation)
    have happlied : Steps c settled w ((w.note (.accepted operation)).changeDraft operation fun d =>
        { d with applied := some (deliveries.map (·.release.address)) }) :=
      haccepted.tail (.applied _ (by simp))
    apply ends_bind
    refine ends_remember ?_
    refine ends_publish (fun hheld => ?_) (fun _ => ?_) (fun _ => (binds_stop happlied).2)
      (binds_stop haccepted)
    · refine ⟨haccepted, fun _ => ?_⟩
      obtain ⟨d, hd, hfile⟩ := Option.bind_eq_some_iff.1 hheld
      exact ⟨d, hd, by rw [hfile]; rfl⟩
    · refine ⟨happlied, fun _ => ?_⟩
      obtain ⟨d, hd⟩ := hexists
      exact ⟨_, by rw [draft?_changeDraft, if_pos rfl, draft?_note, hd, Option.map_some], rfl⟩

theorem steady_releasedKey {passphrase : Bytes} :
    Durable.Steady (releasedKey c k operation passphrase m) := by
  unfold releasedKey
  cases m.keyEpoch with
  | none => exact steady_pure _
  | some epoch =>
    refine steady_bind (steady_read _) fun held => ?_
    refine steady_bind (steady_lift _) fun encrypted => ?_
    refine steady_bind (steady_lift _) fun ring => ?_
    refine steady_bind (steady_refuseIf _ _) fun _ => ?_
    refine steady_bind (steady_lift _) fun key => ?_
    refine steady_bind (steady_lift _) fun deliveries => ?_
    refine steady_bind (steady_lift _) fun _ => ?_
    exact steady_pure _

theorem steady_released : Durable.Steady (released c k operation call m deliveries) :=
  steady_bind steady_releasedKey fun _ => steady_pure _

theorem ends_released (h : Steps c settled w t) :
    Ends (released c k operation call m deliveries) t fun _ u => Steps c settled w u :=
  ends_mono (steady_released t) fun _ _ hu => hu ▸ h

theorem not_dead_of_state (hstate : ∀ why, ((w.draft? operation).getD .made).state ≠ .dead why) :
    ¬ w.Dead operation := by
  rintro ⟨d, hd, hdead⟩
  obtain ⟨reason, hreason⟩ := Option.isSome_iff_exists.1 hdead
  apply hstate reason
  rw [hd, Option.getD_some, Draft.state, hreason]

/-- The second turn of an applied release. -/
theorem ends_disclose (h : Steps c settled w t) (happlied : t.Applied operation) :
    Ends (disclose c k operation call m deliveries) t fun _ u => Steps c settled w u := by
  unfold disclose
  refine ends_read_bind ?_ (steps_stop h)
  have hturn : ¬ t.Dead operation → Ends (do
      lift (contentRequest deliveries.length)
      write (·.note (.handed operation))
      elsewhere
      publish operation "disclosed.json" (·.disclosed) () fun w =>
        w.changeDraft operation fun d => { d with disclosed := some () }
      released c k operation call m deliveries) t fun _ u => Steps c settled w u := by
    intro hdead
    have hhanded : Steps c settled w (t.note (.handed operation)) := h.tail (.handed happlied hdead)
    have hdisclosed : Steps c settled w ((t.note (.handed operation)).changeDraft operation fun d =>
        { d with disclosed := some () }) := hhanded.tail (.disclosed operation)
    refine ends_lift_bind (fun _ _ => ?_) fun e _ => h
    refine ends_operation_bind ?_ (steps_stop h) hhanded
    refine ends_steady_bind steady_elsewhere (fun _ => ?_) (steps_stop hhanded)
    apply ends_bind
    exact ends_publish (fun _ => ends_released hhanded) (fun _ => ends_released hdisclosed)
      (fun _ => hdisclosed) ⟨fun _ => hhanded, hhanded⟩
  cases hstate : ((t.draft? operation).getD .made).state with
  | dead why => exact ends_lift_error h
  | drafted | applied | disclosed => exact hturn (not_dead_of_state (by simp [hstate]))

theorem applied_of_state (hd : w.draft? operation = some d) (hstate : d.state = .applied) :
    w.Applied operation := by
  refine ⟨d, hd, ?_⟩
  unfold Draft.state at hstate
  split at hstate
  · cases hstate
  · split_ifs at hstate with hdisclosed happlied
    exact happlied

theorem not_applied_of_state (hd : w.draft? operation = some d) (hstate : d.state = .drafted) :
    ¬ w.Applied operation := by
  rintro ⟨d', hd', happlied⟩
  cases hd.symm.trans hd'
  unfold Draft.state at hstate
  split at hstate
  · cases hstate
  · split_ifs at hstate with hdisclosed

/-- A call takes steps, whatever befalls it. -/
theorem ends_runRelease
    (hbeside : settled → call.Beside (operationOf c call.room call.proposal) w) :
    Ends (runRelease c k call) w fun _ t => Steps c settled w t := by
  unfold runRelease
  refine ends_lift_bind (fun _ _ => ?_) fun e _ => .refl
  refine ends_bind_of (ends_draftFor hbeside) (fun _ _ ht => steps_stop ht.1) ?_
  rintro m t ⟨ht, hdrafted⟩
  obtain ⟨d, hd⟩ := hdrafted m rfl
  refine ends_lift_bind (fun deliveries _ => ?_) fun e _ => ht
  refine ends_read_bind ?_ (steps_stop ht)
  rw [hd, Option.getD_some]
  cases hstate : d.state with
  | dead why => exact ends_lift_error ht
  | disclosed => exact ends_released ht
  | applied => exact ends_disclose ht (applied_of_state hd hstate)
  | drafted =>
    refine ends_bind_of (ends_bindRelease ⟨d, hd⟩ (not_applied_of_state hd hstate))
      (fun _ _ hu => steps_stop (ht.trans hu.1)) ?_
    rintro _ u ⟨hu, happlied⟩
    exact ends_disclose (ht.trans hu) (happlied rfl)

/-- No call of a history starts a release while another one of its room was handed over and is
not disclosed. -/
def SettledThroughout (c : Crypto) (k : KeyCustody) (w : World) :
    List (Call × List Fate) → Prop
  | [] => True
  | (call, fates) :: rest => call.Beside (operationOf c call.room call.proposal) w ∧
      SettledThroughout c k (runRelease c k call w fates).2.1 rest

theorem steps_history {calls : List (Call × List Fate)}
    (h : settled → SettledThroughout c k w calls) : Steps c settled w (history c k w calls) := by
  induction calls generalizing w with
  | nil => exact .refl
  | cons call rest ih =>
    exact (ends_runRelease (fun hs => (h hs).1) call.2).trans (ih fun hs => (h hs).2)

end Run

end MiniDregg.RoomKeys
