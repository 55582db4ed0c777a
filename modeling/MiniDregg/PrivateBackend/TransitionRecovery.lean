import MiniDregg.PrivateBackend.TransitionFrames

/-!
# Crash recovery of the transition WAL

A published log is a list of events with the outboxes their application
produced. A file that holds such a log, cut anywhere or left with an unwritten
final body, is opened as the longest prefix of its fully written frames.
-/

namespace MiniDregg.PrivateBackend.TransitionJournal

open Fallible Wire List TransitionJournal.Journal Machine

variable {M : Type} [Machine M]

/-- Events with the outboxes they produced, oldest first. -/
abbrev Log := List (Bytes × Bytes)

/-- A log whose outboxes are those of a replay and whose records fit a frame. -/
inductive Replays : M → Log → M → Prop
  | nil {m} : Replays m [] m
  | cons {m m' m'' e out log} (happly : apply m e = .ok (m', out))
      (hfit : (record e out).length ≤ MAX) (tail : Replays m' log m'') :
      Replays m ((e, out) :: log) m''

variable {log : Log} {m m' : M} {log' log₁ log₂ : Log} {m'' m₁ m₂ : M}

theorem Replays.append (h : Replays m log m') (h' : Replays m' log' m'') :
    Replays m (log ++ log') m'' := by
  induction h with
  | nil => exact h'
  | cons happly hfit _ ih => exact .cons happly hfit (ih h')

theorem Replays.split (h : Replays m (log ++ log') m'') :
    ∃ m', Replays m log m' ∧ Replays m' log' m'' := by
  induction log generalizing m with
  | nil => exact ⟨m, .nil, h⟩
  | cons p log ih =>
    cases h with
    | cons happly hfit tail =>
      obtain ⟨m', h₁, h₂⟩ := ih tail
      exact ⟨m', .cons happly hfit h₁, h₂⟩

theorem Replays.take (h : Replays m log m') (k : Nat) : ∃ m₁, Replays m (log.take k) m₁ := by
  rw [← take_append_drop k log] at h
  obtain ⟨m₁, h₁, -⟩ := h.split
  exact ⟨m₁, h₁⟩

/-- The events of a replayed log reproduce its outboxes and its final state. -/
theorem Replays.replay_eq (h : Replays m log m') :
    replay m (log.map Prod.fst) = .ok (m', log.map Prod.snd) := by
  induction h with
  | nil => rfl
  | cons happly _ _ ih => simp [replay, happly, ih]

theorem Replays.fits (h : Replays m log m') : ∀ p ∈ log, (record p.1 p.2).length ≤ MAX := by
  induction h with
  | nil => simp
  | cons _ hfit _ ih => simpa using ⟨hfit, fun a b hab => ih (a, b) hab⟩

section Files
variable (sha : Digest)

/-- The frames of a log. -/
def frames (log : Log) : Bytes := log.flatMap fun p => frame sha (record p.1 p.2)

@[simp] theorem frames_nil : frames sha [] = [] := rfl

@[simp] theorem frames_cons (p : Bytes × Bytes) (log : Log) :
    frames sha (p :: log) = frame sha (record p.1 p.2) ++ frames sha log := by
  simp [frames]

theorem frames_append (log log' : Log) :
    frames sha (log ++ log') = frames sha log ++ frames sha log' := by
  simp [frames]

/-- The file of a published log. -/
def walOf (identity : Bytes) (log : Log) : Bytes := header sha identity ++ frames sha log

theorem walOf_append (identity : Bytes) (log log' : Log) :
    walOf sha identity (log ++ log') = walOf sha identity log ++ frames sha log' := by
  simp [walOf, frames_append]

/-- A cut of a run of frames keeps whole frames and at most a proper prefix of
the next one. -/
theorem take_frames (log : Log) (c : Nat) :
    ∃ k t, k ≤ log.length ∧ (frames sha log).take c = frames sha (log.take k) ++ t ∧
      (frames sha (log.take k)).length + t.length = min c (frames sha log).length ∧
      (t = [] ∨ ∃ p q, log[k]? = some p ∧ q ≠ [] ∧ frame sha (record p.1 p.2) = t ++ q) := by
  induction log generalizing c with
  | nil => exact ⟨0, [], by simp⟩
  | cons p log ih =>
    by_cases hc : c < (frame sha (record p.1 p.2)).length
    · refine ⟨0, (frame sha (record p.1 p.2)).take c, by simp, ?_, ?_, ?_⟩
      · simp only [frames_cons, take_zero, frames_nil, nil_append]
        exact take_append_of_le_length (by omega)
      · simp only [frames_cons, take_zero, frames_nil, length_nil, length_take,
          length_append]
        omega
      · refine Or.inr ⟨p, (frame sha (record p.1 p.2)).drop c, rfl, ?_,
          (take_append_drop c _).symm⟩
        intro h
        have := congrArg List.length h
        rw [length_drop, length_nil] at this
        omega
    · obtain ⟨k, t, hk, htake, hlen, htail⟩ := ih (c - (frame sha (record p.1 p.2)).length)
      refine ⟨k + 1, t, by simpa using hk, ?_, ?_, by simpa using htail⟩
      · simp only [frames_cons, take_succ_cons, append_assoc, ← htake]
        rw [take_append, take_of_length_le (by omega)]
      · simp only [frames_cons, take_succ_cons, length_append]
        omega

end Files

variable {identity out : Bytes}

section Scan
variable (sha : Digest) {i : Nat} {all : Bytes} {m : M} {ob : List Bytes} {m' : M}

theorem scan_finished (h : readFrame sha all = .ok .finished) :
    scan sha i all m ob = .ok ⟨m, ob, none⟩ := by
  rw [scan]
  split <;> simp_all

theorem scan_torn (h : readFrame sha all = .ok .torn) :
    scan sha i all m ob = .ok ⟨m, ob, some ⟨i, all⟩⟩ := by
  rw [scan]
  split <;> simp_all

theorem scan_error {e : String} (h : readFrame sha all = .error e) :
    scan sha i all m ob = .error e := by
  rw [scan]
  split <;> simp_all

theorem scan_record {e rest : Bytes} (h : readFrame sha all = .ok (.record e out rest))
    (ha : apply m e = .ok (m', out)) :
    scan sha i all m ob =
      scan sha (i + (all.length - rest.length)) rest m' (ob ++ [out]) := by
  rw [scan]
  split <;> simp_all

/-- Scanning over the frames of a log replays it. -/
theorem scan_frames (h : Replays m log m') (i : Nat) (t : Bytes) (ob : List Bytes) :
    scan sha i (frames sha log ++ t) m ob =
      scan sha (i + (frames sha log).length) t m' (ob ++ log.map Prod.snd) := by
  induction h generalizing i ob with
  | nil => simp
  | cons happly hfit _ ih =>
    rw [frames_cons, append_assoc,
      scan_record sha (readFrame_frame sha hfit _) happly, ih]
    congr 1
    · simp only [length_append, length_frame]
      omega
    · simp

section
variable (hid : identity.length ≤ MAX)
include hid

/-- Behind a whole header the opening is the scan of what follows it. -/
theorem openJournal_eq_scan (t : Bytes) (m : M) :
    openJournal sha (header sha identity ++ t) identity m =
      settle (header sha identity ++ t) (scan sha (header sha identity).length t m []) := by
  have hid' : ¬ identity.length > MAX := by omega
  have hpos : 0 < (header sha identity).length := by
    simp [header, sha.length_digest]
  have hlen : (header sha identity ++ t).length = (header sha identity).length + t.length :=
    length_append
  have hne : ¬ (header sha identity ++ t).length = 0 := by omega
  have hshort : ¬ ((header sha identity ++ t).length < (header sha identity).length ∧
      header sha identity ++ t <+: header sha identity) := by omega
  have hpre : header sha identity <+: header sha identity ++ t := prefix_append _ _
  simp only [openJournal, if_neg hid', if_neg hne, if_neg hshort, hpre, not_true_eq_false,
    if_false, drop_left]

/-- A log followed by a tear opens as the log, with the tear reported. -/
theorem openJournal_walOf (h : Replays m log m') (t : Bytes)
    (ht : t = [] ∨ readFrame sha t = .ok .torn) :
    openJournal sha (walOf sha identity log ++ t) identity m =
      (walOf sha identity log,
        .ok ⟨walOf sha identity log,
          if t = [] then none else some ⟨(walOf sha identity log).length, t⟩,
          m', log.map Prod.snd, false⟩) := by
  have hoff : (header sha identity).length + (frames sha log).length =
      (walOf sha identity log).length := by simp [walOf]
  rw [walOf, append_assoc, openJournal_eq_scan sha hid, scan_frames sha h, hoff]
  rcases ht with rfl | ht
  · simp [scan_finished sha (readFrame_nil sha), settle]
  · have htne : t ≠ [] := by
      rintro rfl
      simp at ht
    rw [scan_torn sha ht, ← append_assoc, ← walOf]
    simp [settle, htne]

end

/-- A tear inside the header leaves a fresh journal behind a rewritten header. -/
theorem openJournal_header (identity p : Bytes) (hid : identity.length ≤ MAX) (m : M)
    (hp : p <+: header sha identity) (hlt : p.length < (header sha identity).length) :
    openJournal sha p identity m =
      (header sha identity, .ok ⟨header sha identity, none, m, [], false⟩) := by
  have hid' : ¬ identity.length > MAX := by omega
  have hself : header sha identity <+: header sha identity := prefix_rfl
  have hall : (if (if p.length = 0 then header sha identity else p).length <
      (header sha identity).length ∧
      (if p.length = 0 then header sha identity else p) <+: header sha identity
      then header sha identity
      else if p.length = 0 then header sha identity else p) = header sha identity := by
    by_cases h0 : p.length = 0
    · simp [h0]
    · simp [h0, hlt, hp]
  simp only [openJournal, if_neg hid', hall, hself, not_true_eq_false, if_false,
    drop_length, scan_finished sha (readFrame_nil sha), settle]

end Scan

section Runs
variable (sha : Digest)

/-- A usable journal whose file, state and outboxes are those of one log. -/
structure Journal.Holds (identity : Bytes) (initial : M) (log : Log) (j : Journal M) : Prop where
  file : j.file = walOf sha identity log
  replays : Replays initial log j.state
  outbox : j.outbox = log.map Prod.snd
  usable : j.poisoned = false

variable {sha} {initial : M} {j j' : Journal M} {events : List Bytes} {f₀ : Bytes} {j₀ : Journal M}

/-- What one append of an intact journal can do. -/
theorem Journal.Holds.append_cases (holds : j.Holds sha identity initial log) (event : Bytes)
    (fault : Option WriteFault) :
    (∃ e, j.append sha event fault = (j, .error e)) ∨
      ∃ m out, apply j.state event = .ok (m, out) ∧ (record event out).length ≤ MAX ∧
        ((∃ j', j.append sha event fault = (j', .ok out) ∧ j'.state = m ∧
            j'.Holds sha identity initial (log ++ [(event, out)])) ∨
          ∃ j' e n, j.append sha event fault = (j', .error e) ∧ j'.state = j.state ∧
            j'.poisoned = true ∧
            j'.file = walOf sha identity log ++ (frame sha (record event out)).take n) := by
  unfold append
  rw [if_neg (by simp [holds.usable])]
  cases hm : apply j.state event with
  | error err => exact .inl ⟨err, rfl⟩
  | ok r =>
    obtain ⟨m, out⟩ := r
    simp only
    split
    · exact .inl ⟨_, rfl⟩
    next hfit =>
      have hfit' : (record event out).length ≤ MAX := by omega
      refine .inr ⟨m, out, rfl, hfit', ?_⟩
      cases fault with
      | none =>
        have hreplays := holds.replays.append (.cons hm hfit' .nil)
        refine .inl ⟨_, rfl, rfl, ⟨?_, hreplays, ?_, holds.usable⟩⟩
        · simp [holds.file, walOf_append, frames]
        · simp [holds.outbox]
      | some f => exact .inr ⟨_, _, _, rfl, rfl, rfl, congrArg (· ++ _) holds.file⟩

theorem Journal.Holds.append {e : Bytes} (h : j.Holds sha identity initial log)
    (happ : j.append sha e none = (j', .ok out)) :
    j'.Holds sha identity initial (log ++ [(e, out)]) := by
  obtain ⟨_, heq⟩ | ⟨_, _, -, -, ⟨_, heq, -, hholds⟩ | ⟨_, _, _, heq, -⟩⟩ := h.append_cases e none
  · cases happ.symm.trans heq
  · cases happ.symm.trans heq
    exact hholds
  · cases happ.symm.trans heq

theorem Journal.Holds.appendAll (h : j.Holds sha identity initial log)
    (happ : j.appendAll sha events = .ok j') :
    ∃ log', log'.map Prod.fst = events ∧ j'.Holds sha identity initial (log ++ log') := by
  induction events generalizing j log with
  | nil =>
    cases happ
    exact ⟨[], rfl, by simpa using h⟩
  | cons e rest ih =>
    unfold appendAll at happ
    cases hstep : j.append sha e none with
    | mk j₁ r =>
      cases r with
      | error err => simp [hstep] at happ
      | ok out =>
        simp only [hstep] at happ
        obtain ⟨log', hlog, hj⟩ := ih (h.append hstep) happ
        exact ⟨(e, out) :: log', by simp [hlog], by simpa using hj⟩

theorem Journal.appendAll_append {es fs : List Bytes} (h : j.appendAll sha (es ++ fs) = .ok j') :
    ∃ j₁, j.appendAll sha es = .ok j₁ ∧ j₁.appendAll sha fs = .ok j' := by
  induction es generalizing j with
  | nil => exact ⟨j, rfl, h⟩
  | cons e rest ih =>
    simp only [cons_append, appendAll] at h ⊢
    cases hstep : j.append sha e none with
    | mk j₁ r =>
      cases r with
      | error err => simp [hstep] at h
      | ok out =>
        simp only [hstep] at h ⊢
        exact ih h

variable (sha)

/-- The file after the first `k` of a sequence of appends. -/
def fileAfter (j₀ : Journal M) (events : List Bytes) (k : Nat) : Bytes :=
  match j₀.appendAll sha (events.take k) with
  | .ok j => j.file
  | .error _ => j₀.file

/-- `k` counts the frames that lie whole within the first `cut` bytes. -/
def LongestWritten (j₀ : Journal M) (events : List Bytes) (cut k : Nat) : Prop :=
  k ≤ events.length ∧ (k = 0 ∨ (fileAfter sha j₀ events k).length ≤ cut) ∧
    (k < events.length → cut < (fileAfter sha j₀ events (k + 1)).length)

/-- Opening `image` keeps `kept`, replays exactly `events` and reports `torn`;
whatever is then appended is replayed after them by the next opening. -/
def RecoversTo (identity : Bytes) (initial : M) (image kept : Bytes) (events : List Bytes)
    (torn : Option TornTail) : Prop :=
  ∃ j, openJournal sha image identity initial = (kept, .ok j) ∧
    replay initial events = .ok (j.state, j.outbox) ∧ j.torn = torn ∧
    ∀ more j', j.appendAll sha more = .ok j' →
      ∃ j'', openJournal sha j'.file identity initial = (j'.file, .ok j'') ∧
        replay initial (events ++ more) = .ok (j''.state, j''.outbox) ∧ j''.torn = none

variable {sha}

section
variable (hid : identity.length ≤ MAX)
include hid

theorem Journal.Holds.reopen (h : j.Holds sha identity initial log) :
    openJournal sha j.file identity initial =
      (j.file, .ok ⟨j.file, none, j.state, j.outbox, false⟩) := by
  have := openJournal_walOf sha hid h.replays [] (Or.inl rfl)
  simpa [h.file, h.outbox] using this

variable {torn : Option TornTail}

/-- An opening that returns the journal of a log recovers to its events. -/
theorem recoversTo_of_holds {image kept : Bytes}
    (hopen : openJournal sha image identity initial = (kept, .ok j))
    (h : j.Holds sha identity initial log) (hevents : log.map Prod.fst = events)
    (htorn : j.torn = torn) : RecoversTo sha identity initial image kept events torn := by
  refine ⟨j, hopen, ?_, htorn, ?_⟩
  · rw [← hevents, h.replays.replay_eq, h.outbox]
  · intro more j' happ
    obtain ⟨log', hlog, hj'⟩ := h.appendAll happ
    refine ⟨_, hj'.reopen hid, ?_, rfl⟩
    rw [← hevents, ← hlog, ← map_append, hj'.replays.replay_eq, hj'.outbox]

/-- A log followed by a tear recovers to the log. -/
theorem recoversTo_walOf (hrep : Replays initial log m) {t : Bytes}
    (ht : t = [] ∨ readFrame sha t = .ok .torn)
    (hevents : log.map Prod.fst = events)
    (htorn : (if t = [] then none else some ⟨(walOf sha identity log).length, t⟩) = torn) :
    RecoversTo sha identity initial (walOf sha identity log ++ t) (walOf sha identity log) events
      torn :=
  recoversTo_of_holds hid (openJournal_walOf sha hid hrep t ht) ⟨rfl, hrep, rfl, rfl⟩ hevents htorn

end

/-- A fresh opening starts an empty log under an identity that fits. -/
theorem openJournal_empty (h : openJournal sha [] identity initial = (f₀, .ok j₀)) :
    identity.length ≤ MAX ∧ j₀.Holds sha identity initial [] := by
  have hid : identity.length ≤ MAX := by
    by_contra hbig
    simp [openJournal, not_le.1 hbig] at h
  have hpos : 0 < (header sha identity).length := by
    simp [header, sha.length_digest]
  rw [openJournal_header sha identity [] hid initial nil_prefix hpos] at h
  cases h
  exact ⟨hid, by simp [walOf], .nil, rfl, rfl⟩

theorem Replays.log_unique {m : M} (h₁ : Replays m log₁ m₁)
    (h₂ : Replays m log₂ m₂) (he : log₁.map Prod.fst = log₂.map Prod.fst) : log₁ = log₂ := by
  have hr := h₁.replay_eq
  rw [he, h₂.replay_eq] at hr
  simp only [Except.ok.injEq, Prod.mk.injEq] at hr
  exact (zip_of_prod he hr.2.symm).trans (zip_of_prod rfl rfl).symm

theorem fileAfter_eq (h₀ : j₀.Holds sha identity initial [])
    (happ : j₀.appendAll sha events = .ok j) (hlog : log.map Prod.fst = events)
    (h : j.Holds sha identity initial log) (k : Nat) :
    fileAfter sha j₀ events k = walOf sha identity (log.take k) := by
  rw [← take_append_drop k events] at happ
  obtain ⟨j₁, happ₁, _⟩ := appendAll_append happ
  obtain ⟨log₁, hlog₁, h₁⟩ := h₀.appendAll happ₁
  obtain ⟨m₁, hrep⟩ := h.replays.take k
  have heq : log₁ = log.take k :=
    h₁.replays.log_unique hrep (by rw [nil_append, hlog₁, map_take, hlog])
  simp only [fileAfter, happ₁, h₁.file, heq, nil_append]

section
variable (hopen : openJournal sha [] identity initial = (f₀, .ok j₀))
  (happ : j₀.appendAll sha events = .ok j)
include hopen happ

/-- The log of the appends, with the file after each of them. -/
theorem exists_log : identity.length ≤ MAX ∧ ∃ log : Log, log.map Prod.fst = events ∧
    j.Holds sha identity initial log ∧
    ∀ k, fileAfter sha j₀ events k = walOf sha identity (log.take k) := by
  obtain ⟨hid, h₀⟩ := openJournal_empty hopen
  obtain ⟨log, hlog, h⟩ := h₀.appendAll happ
  rw [nil_append] at h
  exact ⟨hid, log, hlog, h, fileAfter_eq h₀ happ hlog h⟩

/-- Every cut of a WAL of successful appends opens as the longest prefix of its
fully written frames; the rest is reported as torn exactly when the cut lies
past the header and off a frame boundary. -/
theorem recoversTo_of_cut {cut : Nat} (hcut : cut ≤ j.file.length) :
    ∃ k, LongestWritten sha j₀ events cut k ∧
      RecoversTo sha identity initial (j.file.take cut) (fileAfter sha j₀ events k)
        (events.take k)
        (if (header sha identity).length < cut ∧ cut ≠ (fileAfter sha j₀ events k).length then
          some ⟨(fileAfter sha j₀ events k).length,
            (j.file.take cut).drop (fileAfter sha j₀ events k).length⟩
        else none) := by
  obtain ⟨hid, log, hlog, h, hfile⟩ := exists_log hopen happ
  have hlength : events.length = log.length := by rw [← hlog, length_map]
  by_cases hhead : cut < (header sha identity).length
  · refine ⟨0, ⟨by omega, Or.inl rfl, ?_⟩, ?_⟩
    · intro _
      rw [hfile, walOf, length_append]
      omega
    · rw [if_neg (by omega), hfile, take_zero, take_zero]
      have himage : j.file.take cut <+: header sha identity := by
        rw [h.file, walOf, take_append_of_le_length (by omega)]
        exact take_prefix _ _
      have hlt : (j.file.take cut).length < (header sha identity).length := by
        rw [length_take]
        omega
      have ho := openJournal_header sha identity _ hid initial himage hlt
      have hw : walOf sha identity [] = header sha identity := by simp [walOf]
      have hh : Holds sha identity initial []
          ⟨header sha identity, none, initial, [], false⟩ := ⟨hw.symm, .nil, rfl, rfl⟩
      rw [hw]
      exact recoversTo_of_holds hid ho hh rfl rfl
  · obtain ⟨k, t, hk, htake, hsum, ht⟩ :=
      take_frames sha log (cut - (header sha identity).length)
    have hflen : j.file.length = (header sha identity).length + (frames sha log).length := by
      rw [h.file, walOf, length_append]
    have hlen : (walOf sha identity (log.take k)).length + t.length = cut := by
      rw [walOf, length_append]
      omega
    have himage : j.file.take cut = walOf sha identity (log.take k) ++ t := by
      rw [h.file, walOf, walOf, append_assoc, ← htake, take_append,
        take_of_length_le (by omega)]
    have htorn : t = [] ∨ readFrame sha t = .ok .torn := by
      rcases ht with ht | ⟨p, q, hp, hq, hframe⟩
      · exact Or.inl ht
      · by_cases hnil : t = []
        · exact Or.inl hnil
        · have hfit := h.replays.fits p (mem_of_getElem? hp)
          exact Or.inr (readFrame_truncated sha hfit hframe hnil hq)
    obtain ⟨m, hrep⟩ := h.replays.take k
    refine ⟨k, ⟨by omega, Or.inr (by rw [hfile]; omega), ?_⟩, ?_⟩
    · intro hlt
      obtain ⟨p, hp⟩ : ∃ p, log[k]? = some p := ⟨log[k], getElem?_eq_getElem (by omega)⟩
      have hnext : log.take (k + 1) = log.take k ++ [p] := by
        rw [take_add_one, hp, Option.toList_some]
      rw [hfile, hnext, walOf_append, length_append]
      simp only [frames_cons, frames_nil, append_nil, length_frame]
      rcases ht with rfl | ⟨p', q, hp', hq, hframe⟩
      · rw [length_nil] at hlen
        omega
      · rw [hp] at hp'
        cases hp'
        have hl := congrArg List.length hframe
        have hqpos : 0 < q.length := length_pos_iff.2 hq
        rw [length_frame, length_append] at hl
        omega
    · rw [hfile, himage]
      refine recoversTo_walOf hid hrep htorn (by rw [map_take, hlog]) ?_
      by_cases hnil : t = []
      · rw [if_pos hnil, if_neg]
        rw [hnil, length_nil] at hlen
        omega
      · have hpos : 0 < t.length := length_pos_iff.2 hnil
        have hge : (header sha identity).length ≤ (walOf sha identity (log.take k)).length := by
          rw [walOf, length_append]
          omega
        rw [if_neg hnil, if_pos (by omega), drop_left]

/-- A final frame whose body and digest never reached the file is dropped whole. -/
theorem recoversTo_of_unwritten {k : Nat} (hk : events.length = k + 1) {junk : Bytes}
    (hjunk : (fileAfter sha j₀ events k).length + 8 + junk.length = j.file.length)
    (hbad : sha.digest (junk.take (junk.length - 32)) ≠ junk.drop (junk.length - 32)) :
    RecoversTo sha identity initial
      (j.file.take ((fileAfter sha j₀ events k).length + 8) ++ junk)
      (fileAfter sha j₀ events k) (events.take k)
      (some ⟨(fileAfter sha j₀ events k).length,
        (j.file.drop (fileAfter sha j₀ events k).length).take 8 ++ junk⟩) := by
  obtain ⟨hid, log, hlog, h, hfile⟩ := exists_log hopen happ
  have hlength : log.length = k + 1 := by rw [← hk, ← hlog, length_map]
  obtain ⟨p, hp⟩ : ∃ p, log.drop k = [p] := by
    apply length_eq_one_iff.1
    rw [length_drop]
    omega
  have hsplit : log = log.take k ++ [p] := by rw [← hp, take_append_drop]
  have hfit := h.replays.fits p (by rw [hsplit]; simp)
  have hwal : j.file = walOf sha identity (log.take k) ++ frame sha (record p.1 p.2) := by
    rw [h.file]
    nth_rewrite 1 [hsplit]
    rw [walOf_append]
    simp
  obtain ⟨m, hrep⟩ := h.replays.take k
  have hjlen : junk.length = (record p.1 p.2).length + 32 := by
    rw [hfile, hwal, length_append, length_frame] at hjunk
    omega
  have hword : (frame sha (record p.1 p.2)).take 8 = toLeBytes 8 (record p.1 p.2).length := by
    rw [frame, append_assoc, take_append_of_le_length (by simp)]
    exact take_of_length_le (by simp)
  have htorn : readFrame sha (toLeBytes 8 (record p.1 p.2).length ++ junk) = .ok .torn := by
    have hn := lengthWord hfit
    apply readFrame_unwritten sha (by simp) (by rw [hn]; exact hfit) (by rw [hn]; exact hjlen)
    rwa [hjlen, Nat.add_sub_cancel, ← hn] at hbad
  have hne : toLeBytes 8 (record p.1 p.2).length ++ junk ≠ [] := by
    intro hnil
    rw [hnil] at htorn
    simp at htorn
  have himage : j.file.take ((walOf sha identity (log.take k)).length + 8) ++ junk =
      walOf sha identity (log.take k) ++ (toLeBytes 8 (record p.1 p.2).length ++ junk) := by
    rw [hwal, take_length_add_append, hword, append_assoc]
  rw [hfile, himage]
  refine recoversTo_walOf hid hrep (Or.inr htorn) (by rw [map_take, hlog]) ?_
  rw [hwal, drop_left, hword, if_neg hne]

end

/-- Crash recovery: a WAL of successful appends, cut at any byte or left with an
unwritten final body, always opens under its identity, as the longest prefix of
fully written frames, and keeps replaying what is appended afterwards. -/
theorem open_recovers_longest_written_prefix (sha : Digest) (identity : Bytes) (initial : M)
    {f₀ : Bytes} {j₀ j : Journal M} {events : List Bytes}
    (hopen : openJournal sha [] identity initial = (f₀, .ok j₀))
    (happ : j₀.appendAll sha events = .ok j) :
    (∀ cut ≤ j.file.length, ∃ k, LongestWritten sha j₀ events cut k ∧
      RecoversTo sha identity initial (j.file.take cut) (fileAfter sha j₀ events k)
        (events.take k)
        (if (header sha identity).length < cut ∧ cut ≠ (fileAfter sha j₀ events k).length then
          some ⟨(fileAfter sha j₀ events k).length,
            (j.file.take cut).drop (fileAfter sha j₀ events k).length⟩
        else none)) ∧
    (∀ k junk, events.length = k + 1 →
      (fileAfter sha j₀ events k).length + 8 + junk.length = j.file.length →
      sha.digest (junk.take (junk.length - 32)) ≠ junk.drop (junk.length - 32) →
      RecoversTo sha identity initial
        (j.file.take ((fileAfter sha j₀ events k).length + 8) ++ junk)
        (fileAfter sha j₀ events k) (events.take k)
        (some ⟨(fileAfter sha j₀ events k).length,
          (j.file.drop (fileAfter sha j₀ events k).length).take 8 ++ junk⟩)) :=
  ⟨fun _ hcut => recoversTo_of_cut hopen happ hcut,
    fun _ _ hk hjunk hbad => recoversTo_of_unwritten hopen happ hk hjunk hbad⟩

end Runs

/-! ## The counter machine -/

/-- A machine that adds little-endian words and reports the running sum. -/
structure Counter where
  value : Nat
  deriving DecidableEq, Repr

instance : Machine Counter where
  apply c b :=
    if b.length ≠ 8 then .error "counter event"
    else
      let v := (c.value + fromLeBytes b) % 2 ^ 64
      .ok (⟨v⟩, toLeBytes 8 v)

/-- Two counter events under SHA-256, cut one byte short of the end. -/
theorem counter_recovers_cut :
    ∃ f₀, ∃ j₀ j : Journal Counter,
      openJournal sha256 [] (ascii "epoch1") (Counter.mk 0) = (f₀, .ok j₀) ∧
      j₀.appendAll sha256 [toLeBytes 8 7, toLeBytes 8 11] = .ok j ∧
      ∃ k j', LongestWritten sha256 j₀ [toLeBytes 8 7, toLeBytes 8 11] (j.file.length - 1) k ∧
        openJournal sha256 (j.file.take (j.file.length - 1)) (ascii "epoch1") (Counter.mk 0) =
          (fileAfter sha256 j₀ [toLeBytes 8 7, toLeBytes 8 11] k, .ok j') := by
  have hopen := openJournal_header sha256 (ascii "epoch1") [] (by decide) (Counter.mk 0)
    nil_prefix (by decide)
  obtain ⟨j, happ⟩ : ∃ j, (Journal.mk (header sha256 (ascii "epoch1")) none (Counter.mk 0) []
      false).appendAll sha256 [toLeBytes 8 7, toLeBytes 8 11] = .ok j := ⟨_, rfl⟩
  have hrun := open_recovers_longest_written_prefix sha256 _ _ hopen happ
  obtain ⟨k, hk, j', hj', _⟩ := hrun.1 _ (Nat.sub_le _ 1)
  exact ⟨_, _, j, hopen, happ, k, j', hk, hj'⟩

end MiniDregg.PrivateBackend.TransitionJournal
