import MiniDregg.RoomKeys.FounderKeys
import MiniDregg.RoomKeys.ReleaseSteps

/-!
# What a history of releases hands over

Over any history of calls, with any faults and deaths, the wraps of a release are handed to
the Host only after its readback was accepted. A release that died by a refused readback never
had its wraps handed over. One that was superseded may have: its wraps turn is handed before
the marker of the disclosure is stored, and a call that fails in between leaves a release that
the next release of the room kills. As long as no release is started beside such a one, no dead
release had its wraps handed over.
-/

namespace MiniDregg.RoomKeys

open Fallible List

section Order
variable {w : World} {operation : Digest} {f : Draft → Draft} {event : Event}

@[simp] theorem dead_note : (w.note event).Dead operation ↔ w.Dead operation :=
  Iff.rfl

/-- An event of the log that stands after others. -/
theorem append_singleton_eq {α : Type} {l before after : List α} {a b : α}
    (h : l ++ [b] = before ++ a :: after) :
    (before = l ∧ a = b) ∨ ∃ rest, l = before ++ a :: rest := by
  rcases eq_nil_or_concat after with rfl | ⟨rest, c, rfl⟩
  · left
    obtain ⟨hl, hab⟩ := append_inj' h rfl
    exact ⟨hl.symm, (singleton_inj.1 hab).symm⟩
  · right
    rw [concat_eq_append, ← cons_append, ← append_assoc] at h
    exact ⟨rest, (append_inj' h rfl).1⟩

/-- What holds of the drafts and the log in every history, and what holds besides when no release
is superseded after its wraps were handed over. -/
structure Ordered (settled : Prop) (w : World) : Prop where
  accepted_of_applied : ∀ op, w.Applied op → .accepted op ∈ w.log
  dead_iff : ∀ op, w.Dead op ↔ .superseded op ∈ w.log ∨ .refused op ∈ w.log
  applied_of_handed : ∀ op, .handed op ∈ w.log → w.Applied op
  not_handed : ∀ op, .refused op ∈ w.log ∨ settled ∧ .superseded op ∈ w.log →
    .handed op ∉ w.log
  accepted_before : ∀ before op after, w.log = before ++ .handed op :: after →
    .accepted op ∈ before

variable {settled : Prop}

theorem Ordered.empty : Ordered settled .empty where
  accepted_of_applied := fun op ⟨d, hd, _⟩ => by cases hd
  dead_iff := fun op => by
    constructor
    · rintro ⟨d, hd, -⟩
      cases hd
    · rintro (h | h) <;> cases h
  applied_of_handed := fun op h => by cases h
  not_handed := fun op _ hhanded => by cases hhanded
  accepted_before := fun before op after h => by simp [World.empty] at h

section
variable (h : Ordered settled w)
include h

variable {t : World}

/-- The markers of one world are those of another. -/
theorem Ordered.congr (hlog : t.log = w.log)
    (happlied : ∀ op, t.Applied op ↔ w.Applied op) (hdead : ∀ op, t.Dead op ↔ w.Dead op) :
    Ordered settled t where
  accepted_of_applied := fun op hop => hlog ▸ h.accepted_of_applied op ((happlied op).1 hop)
  dead_iff := fun op => by rw [hdead op, hlog, h.dead_iff op]
  applied_of_handed := fun op hop => (happlied op).2 (h.applied_of_handed op (hlog ▸ hop))
  not_handed := fun op => hlog ▸ h.not_handed op
  accepted_before := hlog ▸ h.accepted_before

theorem Ordered.setDraft (hfree : w.draft? operation = none) :
    Ordered settled (w.setDraft operation .made) := by
  refine h.congr rfl ?_ ?_
  · intro op
    simp only [World.Applied, draft?_setDraft]
    split_ifs with hop
    · subst hop
      simp [hfree, Draft.made]
    · rfl
  · intro op
    simp only [World.Dead, draft?_setDraft]
    split_ifs with hop
    · subst hop
      simp [hfree, Draft.made]
    · rfl

/-- Files other than the markers of an applied and of a dead release do not matter. -/
theorem Ordered.changeDraft (happlied : ∀ d, (f d).applied = d.applied)
    (hdead : ∀ d, (f d).dead = d.dead) : Ordered settled (w.changeDraft operation f) := by
  refine h.congr rfl ?_ ?_
  · intro op
    simp only [World.Applied, draft?_changeDraft]
    split_ifs with hop
    · simp [happlied]
    · rfl
  · intro op
    simp only [World.Dead, draft?_changeDraft]
    split_ifs with hop
    · simp [hdead]
    · rfl

theorem Ordered.note_accepted : Ordered settled (w.note (.accepted operation)) where
  accepted_of_applied := fun op hop => by
    exact mem_append_left _ (h.accepted_of_applied op hop)
  dead_iff := fun op => by
    simpa using h.dead_iff op
  applied_of_handed := fun op hop => h.applied_of_handed op (by simpa using hop)
  not_handed := fun op hop => by
    simpa using h.not_handed op (by simpa using hop)
  accepted_before := fun before op after hlog => by
    rcases append_singleton_eq hlog with ⟨-, hevent⟩ | ⟨rest, hrest⟩
    · cases hevent
    · exact h.accepted_before before op rest hrest

theorem Ordered.apply (haccepted : .accepted operation ∈ w.log)
    (hsome : ∀ d, (f d).applied.isSome = true) (hdead : ∀ d, (f d).dead = d.dead) :
    Ordered settled (w.changeDraft operation f) where
  accepted_of_applied := fun op hop => by
    simp only [World.Applied, draft?_changeDraft] at hop
    split_ifs at hop with hsame
    · exact hsame ▸ haccepted
    · exact h.accepted_of_applied op hop
  dead_iff := fun op => by
    rw [log_changeDraft, ← h.dead_iff op]
    simp only [World.Dead, draft?_changeDraft]
    split_ifs with hop
    · simp [hdead]
    · rfl
  applied_of_handed := fun op hop => by
    obtain ⟨d, hd, happlied⟩ := h.applied_of_handed op hop
    simp only [World.Applied, draft?_changeDraft]
    split_ifs with hsame
    · exact ⟨f d, by rw [hd, Option.map_some], hsome d⟩
    · exact ⟨d, hd, happlied⟩
  not_handed := h.not_handed
  accepted_before := h.accepted_before

/-- A death is recorded with the event that it comes from. -/
theorem Ordered.die {reason : String} (hexists : ∃ d, w.draft? operation = some d)
    (hevent : event = .superseded operation ∧ (settled → .handed operation ∉ w.log) ∨
      event = .refused operation ∧ ¬ w.Applied operation) :
    Ordered settled ((w.changeDraft operation fun d => { d with dead := some reason }).note event) where
  accepted_of_applied := fun op hop => by
    have hop' : w.Applied op := by
      simp only [World.Applied, draft?_note, draft?_changeDraft] at hop
      split_ifs at hop with hsame
      · simpa [World.Applied] using hop
      · exact hop
    exact mem_append_left _ (h.accepted_of_applied op hop')
  dead_iff := fun op => by
    by_cases hsame : op = operation
    · subst hsame
      obtain ⟨d, hd⟩ := hexists
      constructor
      · intro _
        rcases hevent with ⟨rfl, -⟩ | ⟨rfl, -⟩ <;> simp
      · intro _
        exact ⟨_, by rw [draft?_note, draft?_changeDraft, if_pos rfl, hd, Option.map_some], rfl⟩
    · have hne : ∀ e, e = .superseded op ∨ e = .refused op → e ≠ event := by
        rintro e he rfl
        rcases hevent with ⟨rfl, -⟩ | ⟨rfl, -⟩ <;> simp_all
      have hsuperseded := hne (.superseded op) (.inl rfl)
      have hrefused := hne (.refused op) (.inr rfl)
      simp only [World.Dead, draft?_note, draft?_changeDraft, if_neg hsame, log_note,
        log_changeDraft, mem_append, mem_singleton, hsuperseded, hrefused, or_false]
      exact h.dead_iff op
  applied_of_handed := fun op hop => by
    have hop' : .handed op ∈ w.log := by
      rcases hevent with ⟨rfl, -⟩ | ⟨rfl, -⟩ <;> simpa using hop
    obtain ⟨d, hd, happlied⟩ := h.applied_of_handed op hop'
    simp only [World.Applied, draft?_note, draft?_changeDraft]
    split_ifs with hsame
    · exact ⟨{ d with dead := some reason }, by rw [hd, Option.map_some], happlied⟩
    · exact ⟨d, hd, happlied⟩
  not_handed := fun op hop hhanded => by
    have hhanded' : .handed op ∈ w.log := by
      rcases hevent with ⟨rfl, -⟩ | ⟨rfl, -⟩ <;> simpa using hhanded
    apply h.not_handed op _ hhanded'
    simp only [log_note, log_changeDraft, mem_append, mem_singleton] at hop
    rcases hop with (hold | rfl) | ⟨hs, hold | rfl⟩
    · exact .inl hold
    · obtain ⟨hevent, -⟩ | ⟨hevent, hnot⟩ := hevent
      · cases hevent
      · cases hevent
        exact absurd (h.applied_of_handed _ hhanded') hnot
    · exact .inr ⟨hs, hold⟩
    · obtain ⟨hevent, hnot⟩ | ⟨hevent, -⟩ := hevent
      · cases hevent
        exact absurd hhanded' (hnot hs)
      · cases hevent
  accepted_before := fun before op after hlog => by
    rcases append_singleton_eq hlog with ⟨-, hsame⟩ | ⟨rest, hrest⟩
    · rcases hevent with ⟨hevent, -⟩ | ⟨hevent, -⟩ <;> rw [← hsame] at hevent <;> cases hevent
    · exact h.accepted_before before op rest hrest

/-- Wraps are handed over for a release that is applied and not dead. -/
theorem Ordered.hand (happlied : w.Applied operation) (hdead : ¬ w.Dead operation) :
    Ordered settled (w.note (.handed operation)) := by
  constructor
  · intro op hop
    exact mem_append_left _ (h.accepted_of_applied op hop)
  · intro op
    simpa using h.dead_iff op
  · intro op hop
    rcases mem_append.1 hop with hop | hop
    · exact h.applied_of_handed op hop
    · rw [mem_singleton] at hop
      cases hop
      exact happlied
  · intro op hop hhanded
    have hop' : .refused op ∈ w.log ∨ settled ∧ .superseded op ∈ w.log := by simpa using hop
    rcases mem_append.1 hhanded with hhanded | hhanded
    · exact h.not_handed op hop' hhanded
    · rw [mem_singleton] at hhanded
      cases hhanded
      exact hdead ((h.dead_iff operation).2 (hop'.symm.imp_left And.right))
  · intro before op after hlog
    rcases append_singleton_eq hlog with ⟨rfl, hsame⟩ | ⟨rest, hrest⟩
    · cases hsame
      exact h.accepted_of_applied operation happlied
    · exact h.accepted_before before op rest hrest

/-- What one step keeps. -/
theorem Ordered.step {c : Crypto} (hstep : Step c settled w t) : Ordered settled t := by
  cases hstep with
  | made hfree => exact h.setDraft hfree
  | cached | staged | disclosed => exact h.changeDraft (fun _ => rfl) fun _ => rfl
  | accepted op => exact h.note_accepted
  | applied releases haccepted => exact h.apply haccepted (fun _ => rfl) fun _ => rfl
  | handed happlied hdead => exact h.hand happlied hdead
  | died reason hexists hevent => exact h.die hexists hevent

theorem Ordered.steps {c : Crypto} (hsteps : Steps c settled w t) : Ordered settled t := by
  induction hsteps with
  | refl => exact h
  | tail _ hstep ih => exact ih.step hstep

end

/-- In every history the wraps of a release are handed over only after its readback was
accepted. If no call starts a release while another one of its room was handed over and is not
disclosed, then no dead release had its wraps handed over. -/
theorem deadRelease_not_handed (c : Crypto) (k : KeyCustody) (calls : List (Call × List Fate)) :
    (∀ before op after, (history c k .empty calls).log = before ++ .handed op :: after →
      .accepted op ∈ before) ∧
    (SettledThroughout c k .empty calls →
      ∀ op, (history c k .empty calls).Dead op → .handed op ∉ (history c k .empty calls).log) := by
  constructor
  · have h : Ordered False (history c k .empty calls) :=
      Ordered.empty.steps (steps_history False.elim)
    exact h.accepted_before
  · intro hsettled op hdead
    have h : Ordered True (history c k .empty calls) :=
      Ordered.empty.steps (steps_history fun _ => hsettled)
    apply h.not_handed op
    exact ((h.dead_iff op).1 hdead).symm.imp_right fun hsuperseded => ⟨trivial, hsuperseded⟩

end Order

/-- A digest that shows the last byte. -/
def lastByteCrypto : Crypto where
  cshake := fun bytes => ⟨List.replicate 31 0 ++ [bytes.getLastD 0], by simp⟩
  isKey := fun _ => true
  verifyStrict := fun _ _ _ => true

def plainCustody : KeyCustody where
  saveCache := fun _ _ key _ => key.secret.1
  loadCache := fun _ _ => .error "key cache does not open: wrong passphrase or altered file"

/-- The release record of the founder's own wrap. -/
def boundRelease : ReleaseStatement :=
  { firstRelease with
    certificate := firstCertificate.identity lastByteCrypto
    commitment := lineageDigest lastByteCrypto [firstWrap.payload] }

/-- A release of the first epoch to its founder, in a room whose cell shows its record. -/
def foundingCall (proposal : String) : Call where
  room := 1
  proposal := proposal
  founder := repeatedByte 1
  me := 7
  passphrase := []
  nonce := 0
  build := .ok
    { room := 1, keys := 2, keysRef := "keys", purpose := "found", headBefore := none, key := none
      deliveries := [⟨firstWrap, boundRelease⟩] }
  view := { preHybrid := false, wraps := [], releases := [boundRelease], transitions := [],
            records := [] }
  members := []

/-- The reply to the wraps turn of a first release is lost, and a second release is run. -/
def lostReplyCalls : List (Call × List Fate) :=
  [(foundingCall "a", List.replicate 16 .done ++ [.failed "the reply was lost"]),
    (foundingCall "b", [])]

/-- The first release is dead, and its wraps were handed to the Host. -/
theorem lostReply_superseded :
    (history lastByteCrypto plainCustody .empty lostReplyCalls).Dead
      (operationOf lastByteCrypto 1 "a") ∧
    .handed (operationOf lastByteCrypto 1 "a") ∈
      (history lastByteCrypto plainCustody .empty lostReplyCalls).log := by
  have hdead : ((history lastByteCrypto plainCustody .empty lostReplyCalls).draft?
      (operationOf lastByteCrypto 1 "a")).bind (·.dead) = some "superseded by release b" := by
    decide +kernel
  obtain ⟨d, hd, hreason⟩ := Option.bind_eq_some_iff.1 hdead
  exact ⟨⟨d, hd, by rw [hreason]; rfl⟩, by decide +kernel⟩

end MiniDregg.RoomKeys
