import MiniDregg.PrivateBackend.Anchor

/-!
# One-time allocation over whole runs of the anchor

A run of the anchor is a list of packets, each with the outcome of its writes,
and of restarts. The rows of the reservations it has answered with success are
pairwise distinct, whatever was refused, repeated or lost in between, and the
journal it publishes is read back by the strict decoder.
-/

namespace MiniDregg.PrivateBackend.Anchor

open Fallible TransitionJournal Journal

variable {sha : Wire.Digest}

/-- One event in the life of an anchor. -/
inductive Action
  | packet (b : Bytes) (fault : Option WriteFault)
  | restart

/-- One event, with the packet it answers and the answer. -/
def act (a : Anchor sha) : Action → Result (Anchor sha × List (Bytes × Result Bytes))
  | .packet b fault => .ok ((handle a b fault).1, [(b, (handle a b fault).2)])
  | .restart => do
    let a' ← (openAnchor a.file).2
    pure (a', [])

/-- The anchor after a list of events, and the packets it has answered. -/
def run (a : Anchor sha) (actions : List Action) :
    Result (Anchor sha × List (Bytes × Result Bytes)) :=
  collect act a actions

/-- The rows a packet asks to reserve, as `handle` reads it. -/
def asked : Bytes → List Correlation
  | 1 :: b =>
    match parseRequest b with
    | .ok (id, _, _) => [id]
    | .error _ => []
  | 2 :: b =>
    match parseBatchRequest b with
    | .ok (ids, _, _) => ids
    | .error _ => []
  | _ => []

/-- The rows an answered packet has reserved. -/
def granted : Bytes × Result Bytes → List Correlation
  | (b, .ok _) => asked b
  | (_, .error _) => []

variable {b : Bytes} {ids : List Correlation} {g : Generation} {p : Purpose}

theorem asked_of_asks (h : Asks b ids g p) : asked b = ids ∨ asked b = [] := by
  cases h with
  | single id g p =>
    cases hparse : parseRequest (request id g p) with
    | error e => exact .inr (by simp only [asked, hparse])
    | ok r =>
      obtain ⟨id', g', p'⟩ := r
      obtain ⟨rfl, -, -⟩ := request_injective (parseRequest_eq_ok hparse)
      exact .inl (by simp only [asked, hparse])
  | batch ids g p =>
    cases hparse : parseBatchRequest (batchRequest ids g p) with
    | error e => exact .inr (by simp only [asked, hparse])
    | ok r =>
      obtain ⟨ids', g', p'⟩ := r
      obtain ⟨rfl, -, -⟩ := batchRequest_injective (parseBatchRequest_eq_ok hparse)
      exact .inl (by simp only [asked, hparse])

/-- Reading reserves nothing. -/
theorem asked_read : asked [0] = [] := rfl

/-! ## What a refusal leaves behind -/

variable {fault : Option WriteFault} {e : String} {event out : Bytes}

private theorem append_error {M : Type} [Machine M] {j j' : TransitionJournal.Journal M}
    (h : j.append sha event fault = (j', .error e)) :
    j'.state = j.state ∧ (j' = j ∨ j'.poisoned = true) := by
  unfold TransitionJournal.Journal.append at h
  split at h
  · cases h
    exact ⟨rfl, .inl rfl⟩
  · split at h
    · cases h
      exact ⟨rfl, .inl rfl⟩
    · simp only at h
      split at h
      · cases h
        exact ⟨rfl, .inl rfl⟩
      · cases fault with
        | none => cases h
        | some f =>
          cases h
          exact ⟨rfl, .inr rfl⟩

variable {a a' : Anchor sha}

private theorem reserveBatch_error (h : reserveBatch a ids g p fault = (a', .error e)) :
    journal a' = journal a ∧ (a' = a ∨ a'.poisoned = true) := by
  unfold reserveBatch at h
  cases happ : a.append sha (batchRequest ids g p) fault with
  | mk a₁ r =>
    rw [happ] at h
    cases r with
    | ok out => cases h
    | error e' =>
      cases h
      obtain ⟨hstate, hkept⟩ := append_error happ
      exact ⟨congrArg AnchorMachine.journal hstate, hkept⟩

/-- A refused packet leaves the journal as it was; only a failed write leaves more than
the same anchor behind, and that anchor is poisoned. -/
theorem handle_error (h : handle a b fault = (a', .error e)) :
    journal a' = journal a ∧ (a' = a ∨ a'.poisoned = true) := by
  unfold handle at h
  split at h
  · cases h
    exact ⟨rfl, .inl rfl⟩
  · split at h
    · cases h
    · split at h
      · cases h
        exact ⟨rfl, .inl rfl⟩
      · exact reserveBatch_error h
    · split at h
      · cases h
        exact ⟨rfl, .inl rfl⟩
      · exact reserveBatch_error h
    · cases h
      exact ⟨rfl, .inl rfl⟩

/-! ## The invariant of a run -/

/-- The journal is reachable and every row granted so far is spent in it. -/
structure Kept (j : Journal) (log : List (Bytes × Result Bytes)) : Prop where
  canonical : j.Canonical
  fits : j.encode.length ≤ MAX
  spent : ∀ id ∈ log.flatMap granted, id ∈ j.spent
  once : (log.flatMap granted).Nodup

theorem kept_empty : Kept empty [] where
  canonical := canonical_empty
  fits := by decide
  spent := by simp
  once := by simp

variable {log : List (Bytes × Result Bytes)}

section Kept
variable {j j' : Journal}

variable (h : Kept j log)
include h

/-- A reservation nobody was told about keeps the rows granted so far. -/
theorem Kept.reserve (hj : j.reserveBatch ids g p = .ok j') : Kept j' log := by
  have hcanonical := h.canonical.reserveBatch hj
  obtain ⟨-, -, -, -, hfit, rfl⟩ := reserveBatch_eq_ok.1 hj
  refine ⟨hcanonical, hfit, ?_, h.once⟩
  intro id hid
  exact List.mem_append_right _ (h.spent id hid)

/-- An answer that grants nothing keeps the invariant. -/
theorem Kept.answer {x : Bytes × Result Bytes} (hx : granted x = []) :
    Kept j (log ++ [x]) := by
  have hsame : (log ++ [x]).flatMap granted = log.flatMap granted := by simp [hx]
  exact ⟨h.canonical, h.fits, hsame ▸ h.spent, hsame ▸ h.once⟩

/-- The rows of a granted reservation were not granted before. -/
theorem Kept.grant (hj : j.reserveBatch ids g p = .ok j')
    (asks : Asks b ids g p) : Kept j' (log ++ [(b, .ok out)]) := by
  have hkept := h.reserve hj
  rcases asked_of_asks asks with hids | hnone
  · obtain ⟨-, -, hnd, hfresh, -, rfl⟩ := reserveBatch_eq_ok.1 hj
    have hlog : (log ++ [(b, Except.ok out)]).flatMap granted = log.flatMap granted ++ ids := by
      simp [granted, hids]
    refine ⟨hkept.canonical, hkept.fits, ?_, ?_⟩
    · intro id hid
      rw [hlog] at hid
      rcases List.mem_append.1 hid with hid | hid
      · exact hkept.spent id hid
      · exact List.mem_append_left _ (List.mem_reverse.2 hid)
    · rw [hlog]
      apply List.Nodup.append h.once hnd
      intro id hold hnew
      exact hfresh id hnew (h.spent id hold)
  · exact hkept.answer hnone

end Kept

theorem Backed.next_reserved {j j' : Journal} (h : Backed a j (some j')) :
    ∃ ids g p, j.reserveBatch ids g p = .ok j' := by
  cases h with
  | uncertain replays happly hfit file poisoned =>
    obtain ⟨ids, g, p, -, hj⟩ := apply_eq_ok happly
    exact ⟨ids, g, p, hj⟩

/-- An anchor of a run: what backs it, and what it has granted. -/
def Sound (a : Anchor sha) (log : List (Bytes × Result Bytes)) : Prop :=
  ∃ next, Backed a (journal a) next ∧ Kept (journal a) log

theorem sound_fresh : Sound (fresh : Anchor sha) [] := ⟨none, backed_fresh, kept_empty⟩

theorem Sound.handle (h : Sound a log) (b : Bytes) (fault : Option WriteFault) :
    Sound (Anchor.handle a b fault).1 (log ++ [(b, (Anchor.handle a b fault).2)]) := by
  obtain ⟨next, hback, hkept⟩ := h
  cases next with
  | some j' =>
    rw [handle_uncertain hback b fault]
    exact ⟨some j', hback, hkept.answer rfl⟩
  | none =>
    have hhandled := handle_handled hback b fault
    have herror {e : String} {a' : Anchor sha} := @handle_error sha b fault e a a'
    generalize Anchor.handle a b fault = r at hhandled herror
    cases hhandled with
    | refused e => exact ⟨none, hback, hkept.answer rfl⟩
    | read hb =>
      subst hb
      exact ⟨none, hback, hkept.answer asked_read⟩
    | @applied a' j' ids g p asks hj backed =>
      have hstate : journal a' = j' := by
        cases backed with
        | settled _ state => exact state
      subst hstate
      exact ⟨none, backed, hkept.grant hj asks⟩
    | @uncertain a' j' ids g p e asks hj backed =>
      have hstate : journal a' = journal a := (herror rfl).1
      refine ⟨some j', ?_, ?_⟩
      · rw [hstate]
        exact backed
      · rw [hstate]
        exact hkept.answer rfl

/-- A restart succeeds and keeps the journal, or finds the reservation whose write failed. -/
theorem Sound.restart (h : Sound a log) :
    ∃ (f : Bytes) (a' : Anchor sha), openAnchor a.file = (f, .ok a') ∧ Sound a' log ∧
      (a.poisoned = false → journal a' = journal a) := by
  obtain ⟨next, hback, hkept⟩ := h
  obtain ⟨f, a', hopen, hback'⟩ := hback.reopen
  refine ⟨f, a', hopen, ?_⟩
  rcases hback' with hback' | ⟨j', rfl, hback'⟩
  · have hstate : journal a' = journal a := by
      generalize journal a = j at hback'
      cases hback' with
      | settled _ state => exact state
    refine ⟨⟨none, ?_, ?_⟩, fun _ => hstate⟩
    · rw [hstate]
      exact hback'
    · rw [hstate]
      exact hkept
  · have hstate : journal a' = j' := by
      cases hback' with
      | settled _ state => exact state
    obtain ⟨ids, g, p, hj⟩ := hback.next_reserved
    subst hstate
    refine ⟨⟨none, hback', hkept.reserve hj⟩, ?_⟩
    intro husable
    cases hback with
    | uncertain _ _ _ _ poisoned =>
      cases poisoned.symm.trans husable

theorem Sound.act (h : Sound a log) (x : Action) :
    ∃ a' out, Anchor.act a x = .ok (a', out) ∧ Sound a' (log ++ out) := by
  cases x with
  | packet b fault => exact ⟨_, _, rfl, h.handle b fault⟩
  | restart =>
    obtain ⟨f, a', hopen, hsound, -⟩ := h.restart
    refine ⟨a', [], ?_, by simpa using hsound⟩
    simp only [Anchor.act, hopen, ok_bind, pure_eq_ok]

/-- Over every run of packets, failed writes and restarts, the reservations answered with
success name pairwise distinct rows and the journal decodes to itself. At every such
point a refused packet leaves the journal unchanged (without a failed write the whole
anchor), and a restart succeeds and reads the last journal back. -/
theorem one_time_allocation (actions : List Action) :
    ∃ (a : Anchor sha) (log : List (Bytes × Result Bytes)),
      run fresh actions = .ok (a, log) ∧
      (log.flatMap granted).Nodup ∧
      decode (journal a).encode = .ok (journal a) ∧
      (∀ b fault a' e, handle a b fault = (a', .error e) →
        journal a' = journal a ∧ (a' = a ∨ a'.poisoned = true)) ∧
      (∃ (f : Bytes) (a' : Anchor sha), openAnchor a.file = (f, .ok a') ∧
        (a.poisoned = false → journal a' = journal a)) := by
  have hround (s : Anchor sha) (before : List (Bytes × Result Bytes)) (x : Action)
      (hs : Sound s before) := hs.act x
  obtain ⟨a, log, hrun, hsound⟩ := collect_total hround actions sound_fresh
  obtain ⟨f, a', hopen, -, hsame⟩ := hsound.restart
  obtain ⟨next, -, hkept⟩ := hsound
  refine ⟨a, log, hrun, by simpa using hkept.once, ?_, fun b fault a' e => handle_error,
    f, a', hopen, hsame⟩
  exact hkept.canonical.decode_encode hkept.fits

end MiniDregg.PrivateBackend.Anchor
