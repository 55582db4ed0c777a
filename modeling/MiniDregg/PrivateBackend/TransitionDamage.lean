import MiniDregg.PrivateBackend.TransitionRecovery

/-!
# Damaged length words in the transition WAL

One frame of a published WAL gets another length word. The scanner refuses
every such file except one kind: a word that makes the frame end exactly at the
end of the file turns the complete records behind it into a torn tail.
-/

namespace MiniDregg.PrivateBackend.TransitionJournal

open Fallible Wire List Counter Cursor

variable {M : Type} [Machine M] {sha : Digest} {identity : Bytes} {initial : M}

/-- The file with the eight bytes at offset `i` replaced. -/
def replaceWord (file : Bytes) (i : Nat) (word : Bytes) : Bytes :=
  file.take i ++ word ++ file.drop (i + 8)

/-- The opening leaves the file whole: it refuses, or it replays every event. -/
def RefusesOrRecovers (sha : Digest) (identity : Bytes) (initial : M) (events : List Bytes)
    (image : Bytes) : Prop :=
  (∃ e, openJournal sha image identity initial = (image, .error e)) ∨
    ∃ j, openJournal sha image identity initial = (image, .ok j) ∧
      replay initial events = .ok (j.state, j.outbox) ∧ j.torn = none

variable {e out : Bytes} {tail b q word : Bytes}

/-- Behind a wrong length word the digest check can only pass on bytes that are
no record: a proper prefix of one, or one followed by more. -/
theorem recordCodec_get_misread (h : (record e out).length ≤ MAX)
    (hb : record e out ++ tail = b ++ q) (hne : b.length ≠ (record e out).length)
    (f : Bytes → Bytes → Result Frame) :
    ∃ err, (do
      let ((event, expected), c) ← recordCodec.get b
      finish c
      f event expected) = .error err := by
  have hv := record_valid h
  rcases Nat.lt_or_gt_of_ne hne with hlt | hgt
  · have hp : b <+: record e out := by
      apply prefix_of_prefix_length_le (prefix_append b q) _ hlt.le
      rw [← hb]
      exact prefix_append _ _
    obtain ⟨r, hr⟩ := hp
    have hrne : r ≠ [] := by
      rintro rfl
      rw [append_nil] at hr
      rw [hr] at hlt
      omega
    obtain ⟨err, herr⟩ := recordCodec.get_of_truncated hv
      (by rw [recordCodec_put, hr] : recordCodec.put (e, out) = b ++ r) hrne
    exact ⟨err, by rw [herr]; rfl⟩
  · have hp : record e out <+: b := by
      apply prefix_of_prefix_length_le _ (prefix_append b q) hgt.le
      rw [← hb]
      exact prefix_append _ _
    obtain ⟨r, rfl⟩ := hp
    have hrne : r ≠ [] := by
      rintro rfl
      rw [append_nil] at hgt
      omega
    have hget := recordCodec.get_put (e, out) r hv
    rw [recordCodec_put] at hget
    refine ⟨"wire trailing bytes", ?_⟩
    have hfin : r.isEmpty = false := by simpa using hrne
    rw [hget]
    simp [finish, hfin]

/-- In front of a complete record, a wrong length word is refused unless it
points exactly at the end of the file. -/
theorem readFrame_wrong_word (h : (record e out).length ≤ MAX)
    (hword : word.length = 8) (hne : fromLeBytes word ≠ (record e out).length)
    (heof : MAX < fromLeBytes word ∨ fromLeBytes word + 32 ≠
      (record e out ++ (sha.digest (record e out) ++ tail)).length) :
    ∃ err, readFrame sha (word ++ (record e out ++ (sha.digest (record e out) ++ tail))) =
      .error err := by
  generalize hrest : record e out ++ (sha.digest (record e out) ++ tail) = rest at heof ⊢
  have h8 : (word ++ rest).take 8 = word := by rw [← hword, take_left]
  have hd8 : (word ++ rest).drop 8 = rest := by rw [← hword, drop_left]
  have hlen8 : ¬ (word ++ rest).length < 8 := by
    rw [length_append]
    omega
  have hnil : word ++ rest ≠ [] := by
    intro hnil
    simp [hnil] at hlen8
  have hdig := sha.length_digest (record e out)
  simp only [readFrame, if_neg hnil, if_neg hlen8, h8, hd8]
  by_cases hcap : fromLeBytes word > MAX
  · exact ⟨_, if_pos hcap⟩
  rw [if_neg hcap]
  by_cases hlong : fromLeBytes word + 32 > rest.length
  · have hbehind : completeRecordBehind sha rest = true := by
      rw [completeRecordBehind_iff]
      refine ⟨e, out, (sha.digest (record e out) ++ tail).take (MAX - (record e out).length),
        record_valid h, ?_, ?_, ?_⟩
      · rw [← hrest, take_append, take_of_length_le h]
      · rw [← hrest, length_append, length_append, hdig]
        omega
      · rw [← hrest, drop_left, ← hdig, take_left]
    rw [if_pos hlong, hbehind]
    exact ⟨_, rfl⟩
  · rw [if_neg hlong]
    split
    · rw [if_neg (by omega)]
      exact ⟨_, rfl⟩
    · have hlen : (rest.take (fromLeBytes word)).length = fromLeBytes word := by
        rw [length_take]
        omega
      have hnew : new (rest.take (fromLeBytes word)) =
          .ok (rest.take (fromLeBytes word)) := by
        simp only [new, hlen, hcap, decide_false, refuseIf_false, ok_bind, pure_eq_ok]
      obtain ⟨err, herr⟩ := recordCodec_get_misread h
        (hrest.trans (take_append_drop (fromLeBytes word) rest).symm)
        (by rw [hlen]; exact hne)
        (fun event expected => pure (.record event expected (rest.drop (fromLeBytes word + 32))))
      refine ⟨err, ?_⟩
      rw [hnew, ok_bind, ← herr]
      exact readFields_eq _ fun event expected c => do
        finish c
        pure (Frame.record event expected (rest.drop (fromLeBytes word + 32)))

/-- What a length word stands in front of: its record with the digest, and the frames of a log. -/
def behind (sha : Digest) (e out : Bytes) (post : Log) : Bytes :=
  record e out ++ (sha.digest (record e out) ++ frames sha post)

/-- The last frame's digest closes the file, so bytes that reach up to it and
collide with no record fail their check. -/
theorem digest_ne_of_eof {post : Log} {n : Nat}
    (hn : n + 32 = (behind sha e out post).length)
    (hne : n ≠ (record e out).length)
    (hsha : ∀ q ∈ post, sha.digest ((behind sha e out post).take n) = sha.digest (record q.1 q.2) →
      (behind sha e out post).take n = record q.1 q.2) :
    sha.digest ((behind sha e out post).take n) ≠
      (behind sha e out post).drop n := by
  have hdig := sha.length_digest
  unfold behind at hn hsha ⊢
  rcases eq_nil_or_concat' post with rfl | ⟨post', q, rfl⟩
  · simp only [frames_nil, length_append, length_nil, hdig] at hn
    omega
  · have hsplit : record e out ++ (sha.digest (record e out) ++ frames sha (post' ++ [q])) =
        (record e out ++ (sha.digest (record e out) ++ (frames sha post' ++
          (toLeBytes 8 (record q.1 q.2).length ++ record q.1 q.2)))) ++
          sha.digest (record q.1 q.2) := by
      simp [frames_append, frame]
    rw [hsplit] at hn hsha ⊢
    generalize hX : record e out ++ (sha.digest (record e out) ++ (frames sha post' ++
      (toLeBytes 8 (record q.1 q.2).length ++ record q.1 q.2))) = X at hn hsha ⊢
    have hXn : X.length = n := by
      rw [length_append, hdig] at hn
      omega
    rw [← hXn, take_left, drop_left]
    intro heq
    have hXq := hsha q (by simp) (by rw [← hXn, take_left]; exact heq)
    rw [← hXn, take_left] at hXq
    have hlen := congrArg List.length (hX.trans hXq)
    simp only [length_append, length_toLeBytes, hdig] at hlen
    omega

/-- Behind a replayed log, a wrong length word in front of complete frames leaves
the file whole exactly when it does not point at the end of the file. -/
theorem refusesOrRecovers_word_iff (hid : identity.length ≤ MAX) {m : M} {pre post : Log}
    (events : List Bytes) (hrep : Replays initial pre m)
    (hfit : (record e out).length ≤ MAX) (hword : word.length = 8)
    (hne : fromLeBytes word ≠ (record e out).length)
    (hsha : ∀ q ∈ post, sha.digest ((behind sha e out post).take (fromLeBytes word)) =
      sha.digest (record q.1 q.2) → (behind sha e out post).take (fromLeBytes word) =
      record q.1 q.2) :
    RefusesOrRecovers sha identity initial events
        (walOf sha identity pre ++
          (word ++ (behind sha e out post))) ↔
      fromLeBytes word + 32 ≠
          (behind sha e out post).length ∨
        MAX < fromLeBytes word := by
  constructor
  · intro hr
    by_contra hcond
    obtain ⟨heof, hcap⟩ := not_or.1 hcond
    have hbad := digest_ne_of_eof (not_not.1 heof) hne hsha
    have htorn := readFrame_unwritten sha hword (not_lt.1 hcap) (not_not.1 heof).symm hbad
    have ho := openJournal_walOf sha hid hrep _ (Or.inr htorn)
    rcases hr with ⟨err, hr⟩ | ⟨j, hr, _⟩
    · rw [ho] at hr
      have hres := congrArg Prod.snd hr
      cases hres
    · rw [ho] at hr
      have hlen := congrArg List.length (congrArg Prod.fst hr)
      simp only [length_append] at hlen
      omega
  · intro hcond
    obtain ⟨err, herr⟩ := readFrame_wrong_word hfit hword hne hcond.symm
    refine Or.inl ⟨err, ?_⟩
    rw [walOf, append_assoc, openJournal_eq_scan sha hid, scan_frames sha hrep, behind,
      scan_error sha herr]
    rfl

/-- One length word of a published WAL is replaced by another. The opening
leaves the file whole exactly when the new word does not make its frame end at
the end of the file, or exceeds the frame bound. -/
theorem refusesOrRecovers_replaceWord_iff (sha : Digest) (identity : Bytes) (initial : M)
    {f₀ : Bytes} {j₀ j : Journal M} {events : List Bytes}
    (hopen : openJournal sha [] identity initial = (f₀, .ok j₀))
    (happ : j₀.appendAll sha events = .ok j) {k : Nat} (hk : k < events.length)
    {word : Bytes} (hword : word.length = 8)
    (hne : word ≠ (j.file.drop (fileAfter sha j₀ events k).length).take 8)
    (hsha : ∀ p ∈ events.zip j.outbox,
      sha.digest ((j.file.drop ((fileAfter sha j₀ events k).length + 8)).take
        (fromLeBytes word)) = sha.digest (record p.1 p.2) →
      (j.file.drop ((fileAfter sha j₀ events k).length + 8)).take (fromLeBytes word) =
        record p.1 p.2) :
    RefusesOrRecovers sha identity initial events
        (replaceWord j.file (fileAfter sha j₀ events k).length word) ↔
      (fileAfter sha j₀ events k).length + 8 + fromLeBytes word + 32 ≠ j.file.length ∨
        MAX < fromLeBytes word := by
  obtain ⟨hid, log, hlog, h, hfile⟩ := exists_log hopen happ
  have hklog : k < log.length := by rw [← hlog, length_map] at hk; exact hk
  have hzip : events.zip j.outbox = log := (zip_of_prod hlog h.outbox.symm).symm
  obtain ⟨⟨e, out⟩, post, hsplit⟩ : ∃ p post, log = log.take k ++ p :: post :=
    ⟨log[k], log.drop (k + 1), by rw [← drop_eq_getElem_cons hklog, take_append_drop]⟩
  have hfit : (record e out).length ≤ MAX :=
    h.replays.fits (e, out) (by rw [hsplit]; simp)
  have hwal : j.file = walOf sha identity (log.take k) ++ (toLeBytes 8 (record e out).length ++
      (behind sha e out post)) := by
    rw [h.file]
    nth_rewrite 1 [hsplit]
    rw [walOf_append, frames_cons, frame, behind]
    simp only [append_assoc]
  obtain ⟨m, hrep⟩ := h.replays.take k
  rw [hfile] at hne hsha ⊢
  have hold : (j.file.drop (walOf sha identity (log.take k)).length).take 8 =
      toLeBytes 8 (record e out).length := by
    rw [hwal, drop_left, take_append_of_le_length (by simp)]
    exact take_of_length_le (by simp)
  have hbehind : j.file.drop ((walOf sha identity (log.take k)).length + 8) =
      behind sha e out post := by
    rw [← drop_drop, hwal, drop_left]
    exact drop_left' (by simp)
  have hnum : fromLeBytes word ≠ (record e out).length := by
    intro hn
    apply hne
    rw [hold]
    apply fromLeBytes_inj (by simp [hword])
    rw [lengthWord hfit, hn]
  have hflen : j.file.length = (walOf sha identity (log.take k)).length + 8 +
      (behind sha e out post).length := by
    rw [hwal, length_append, length_append, length_toLeBytes]
    omega
  rw [hzip, hbehind] at hsha
  have hcore := refusesOrRecovers_word_iff hid events hrep hfit hword hnum
    fun q hq => hsha q (by rw [hsplit]; simp [hq])
  rw [replaceWord, hbehind, hwal, take_left, append_assoc, hcore, ← hwal, hflen]
  omega

/-- The counter journal after the events 7 and 11, under SHA-256. -/
def counterJournal : Journal Counter where
  file := walOf sha256 (ascii "epoch1")
    [(toLeBytes 8 7, toLeBytes 8 7), (toLeBytes 8 11, toLeBytes 8 18)]
  torn := none
  state := ⟨18⟩
  outbox := [toLeBytes 8 7, toLeBytes 8 18]
  poisoned := false

/-- The counter journal before any event. -/
def counterStart : Journal Counter :=
  ⟨header sha256 (ascii "epoch1"), none, ⟨0⟩, [], false⟩

theorem counterStart_open :
    openJournal sha256 [] (ascii "epoch1") (mk 0) =
      (header sha256 (ascii "epoch1"), .ok counterStart) :=
  openJournal_header sha256 (ascii "epoch1") [] (by decide) (mk 0)
    nil_prefix (by decide)

set_option maxRecDepth 20000 in
theorem counterStart_appendAll :
    counterStart.appendAll sha256 [toLeBytes 8 7, toLeBytes 8 11] = .ok counterJournal := rfl

/-- The length word `2^20` in the first frame points past the end and is refused. -/
theorem counter_word_past_eof_refused :
    RefusesOrRecovers sha256 (ascii "epoch1") (mk 0) [toLeBytes 8 7, toLeBytes 8 11]
      (replaceWord counterJournal.file
        (fileAfter sha256 counterStart [toLeBytes 8 7, toLeBytes 8 11] 0).length
        (toLeBytes 8 (2 ^ 20))) :=
  (refusesOrRecovers_replaceWord_iff sha256 (ascii "epoch1") (mk 0) counterStart_open
    counterStart_appendAll (by decide) (by decide) (by decide +kernel)
    (by decide +kernel)).2 (by decide +kernel)

/-- The length word 80 in the first frame points exactly at the end of the file:
both complete records are dropped as a torn tail. -/
theorem counter_word_at_eof_truncates :
    openJournal sha256 [] (ascii "epoch1") (mk 0) =
      (header sha256 (ascii "epoch1"), .ok counterStart) ∧
    counterStart.appendAll sha256 [toLeBytes 8 7, toLeBytes 8 11] = .ok counterJournal ∧
    toLeBytes 8 80 ≠ (counterJournal.file.drop
      (fileAfter sha256 counterStart [toLeBytes 8 7, toLeBytes 8 11] 0).length).take 8 ∧
    ¬ RefusesOrRecovers sha256 (ascii "epoch1") (mk 0)
      [toLeBytes 8 7, toLeBytes 8 11]
      (replaceWord counterJournal.file
        (fileAfter sha256 counterStart [toLeBytes 8 7, toLeBytes 8 11] 0).length
        (toLeBytes 8 80)) := by
  refine ⟨counterStart_open, counterStart_appendAll, by decide +kernel, ?_⟩
  have himage : replaceWord counterJournal.file
      (fileAfter sha256 counterStart [toLeBytes 8 7, toLeBytes 8 11] 0).length
      (toLeBytes 8 80) =
      walOf sha256 (ascii "epoch1") [] ++ (toLeBytes 8 80 ++
        behind sha256 (toLeBytes 8 7) (toLeBytes 8 7) [(toLeBytes 8 11, toLeBytes 8 18)]) := by
    decide +kernel
  rw [himage, refusesOrRecovers_word_iff (by decide) _ .nil (by decide) (by decide) (by decide)
    (by decide +kernel)]
  decide +kernel

end MiniDregg.PrivateBackend.TransitionJournal
