import MiniDregg.PrivateBackend.TransitionJournal

/-!
# Reading frames of the transition WAL

What the scanner finds at a whole frame, at a proper prefix of a frame, and at
a frame whose body was never written. The recovery and damage results use only
these facts about `readFrame`.
-/

namespace MiniDregg.PrivateBackend.TransitionJournal

open Fallible Wire List Cursor

/-- Records are an event and an outbox, one after the other. -/
def recordCodec : Codec String (Bytes × Bytes) := bytesCodec.seq bytesCodec

theorem recordCodec_put (e out : Bytes) : recordCodec.put (e, out) = record e out := rfl

theorem bytes_length_le (b : Bytes) : b.length ≤ (bytes b).length := by
  simp [bytes]

variable {e out word b rest p q junk : Bytes}

theorem record_valid (h : (record e out).length ≤ MAX) :
    recordCodec.valid (e, out) := by
  have he := bytes_length_le e
  have ho := bytes_length_le out
  simp only [record, length_append] at h
  exact ⟨by change e.length ≤ MAX; omega, by change out.length ≤ MAX; omega⟩

/-- The two reads of a record, seen as one read of its codec. -/
theorem readFields_eq (c : Bytes) {α : Type} (f : Bytes → Bytes → Bytes → Result α) :
    (do
      let (e, c) ← Cursor.bytes c
      let (o, c) ← Cursor.bytes c
      f e o c) =
    (do
      let ((e, o), c) ← recordCodec.get c
      f e o c) := by
  change _ = (Cursor.bytes.seq Cursor.bytes c >>= _)
  unfold Reader.seq
  cases h : Cursor.bytes c with
  | error e => simp
  | ok r =>
    obtain ⟨e, c₁⟩ := r
    simp only [ok_bind]
    cases h₁ : Cursor.bytes c₁ with
    | error | ok => simp

section Frames
variable (sha : Digest)

theorem completeRecordBehind_iff (rest : Bytes) :
    completeRecordBehind sha rest = true ↔
      ∃ e out tail, recordCodec.valid (e, out) ∧ rest.take MAX = record e out ++ tail ∧
        (record e out).length + 32 ≤ rest.length ∧
        sha.digest (record e out) = (rest.drop (record e out).length).take 32 := by
  have hnew : Cursor.new (rest.take MAX) = .ok (rest.take MAX) := by
    simp [Cursor.new]
  have hread : (do
      let c ← Cursor.new (rest.take MAX)
      let (_, c) ← Cursor.bytes c
      let (_, c) ← Cursor.bytes c
      pure c : Result Bytes) =
      (do
        let (_, c) ← recordCodec.get (rest.take MAX)
        pure c) := by
    rw [hnew, ok_bind]
    exact readFields_eq _ fun _ _ c => pure c
  unfold completeRecordBehind
  simp only [hread]
  cases hg : recordCodec.get (rest.take MAX) with
  | error e =>
    simp only [error_bind, Bool.false_eq_true, false_iff]
    rintro ⟨a, out, tail, hv, heq, _⟩
    rw [heq, ← recordCodec_put, recordCodec.get_put _ _ hv] at hg
    cases hg
  | ok r =>
    obtain ⟨⟨a, out⟩, tail⟩ := r
    obtain ⟨hv, heq⟩ := recordCodec.put_get _ _ _ hg
    rw [recordCodec_put] at heq
    have hlen : (rest.take MAX).length - tail.length = (record a out).length := by
      rw [heq, length_append]
      omega
    have htake : rest.take (record a out).length = record a out := by
      have hle : (record a out).length ≤ MAX := by
        have := congrArg length heq
        simp only [length_take, length_append] at this
        omega
      have := congrArg (List.take (record a out).length) heq
      rwa [take_take, Nat.min_eq_left hle, take_left] at this
    simp only [ok_bind, pure_eq_ok, hlen, htake, Bool.and_eq_true, decide_eq_true_eq]
    constructor
    · rintro ⟨h₁, h₂⟩
      exact ⟨a, out, tail, hv, heq, h₁, h₂⟩
    · rintro ⟨a', out', tail', hv', heq', h₁, h₂⟩
      have hinj := recordCodec.put_append_inj hv' hv (heq'.symm.trans heq)
      cases hinj.1
      exact ⟨h₁, h₂⟩

@[simp] theorem length_frame (b : Bytes) : (frame sha b).length = b.length + 40 := by
  simp [frame, sha.length_digest]
  omega

theorem lengthWord {n : Nat} (h : n ≤ MAX) : fromLeBytes (toLeBytes 8 n) = n :=
  fromLeBytes_toLeBytes (lt_of_le_of_lt h (by decide))

/-- Behind any eight bytes, a record whose digest follows it is read whole. -/
theorem readFrame_word (hword : word.length = 8)
    (hn : fromLeBytes word = b.length) (hb : b.length ≤ MAX) :
    readFrame sha (word ++ (b ++ (sha.digest b ++ rest))) =
      (do
        let ((event, expected), c) ← recordCodec.get b
        finish c
        pure (.record event expected rest)) := by
  have h8 : (word ++ (b ++ (sha.digest b ++ rest))).take 8 = word := by
    rw [← hword, take_left]
  have hd8 : (word ++ (b ++ (sha.digest b ++ rest))).drop 8 = b ++ (sha.digest b ++ rest) := by
    rw [← hword, drop_left]
  have hne : word ++ (b ++ (sha.digest b ++ rest)) ≠ [] := by
    intro h
    have := congrArg length h
    simp [hword] at this
  have hlen : ¬ (word ++ (b ++ (sha.digest b ++ rest))).length < 8 := by
    simp only [length_append, hword]
    omega
  have hdig := sha.length_digest b
  have hshort : ¬ b.length + 32 > (b ++ (sha.digest b ++ rest)).length := by
    simp only [length_append, hdig]
    omega
  have hsum : (sha.digest b ++ rest).take 32 = sha.digest b := by
    rw [← hdig, take_left]
  have hrest : (b ++ (sha.digest b ++ rest)).drop (b.length + 32) = rest := by
    rw [← append_assoc]
    rw [show b.length + 32 = (b ++ sha.digest b).length by simp [hdig], drop_left]
  have hcap : ¬ b.length > MAX := by omega
  have hnew : Cursor.new b = .ok b := by
    simp only [Cursor.new, hcap, decide_false, refuseIf_false, ok_bind, pure_eq_ok]
  simp only [readFrame, if_neg hne, if_neg hlen, h8, hd8, hn, if_neg hcap, if_neg hshort,
    take_left, drop_left, hsum, ne_eq, not_true_eq_false, if_false, hrest, hnew, ok_bind]
  exact readFields_eq b fun e o c => do
    finish c
    pure (Frame.record e o rest)

/-- A whole frame is read as its event and outbox. -/
theorem readFrame_frame (h : (record e out).length ≤ MAX) (rest : Bytes) :
    readFrame sha (frame sha (record e out) ++ rest) = .ok (.record e out rest) := by
  have hget := recordCodec.get_put (e, out) [] (record_valid h)
  rw [recordCodec_put, append_nil] at hget
  rw [frame, append_assoc, append_assoc,
    readFrame_word sha (by simp) (lengthWord h) h, hget]
  rfl

/-- A nonempty proper prefix of a frame is a tear. -/
theorem readFrame_truncated (h : (record e out).length ≤ MAX)
    (hpq : frame sha (record e out) = p ++ q) (hp : p ≠ []) (hq : q ≠ []) :
    readFrame sha p = .ok .torn := by
  unfold readFrame
  rw [if_neg hp]
  by_cases h8 : p.length < 8
  · rw [if_pos h8]
  · rw [if_neg h8]
    have hlen := congrArg length hpq
    rw [length_frame, length_append] at hlen
    have hqpos : 0 < q.length := length_pos_iff.2 hq
    have h8' : 8 ≤ p.length := by omega
    have hword : p.take 8 = toLeBytes 8 (record e out).length := by
      have := congrArg (List.take 8) hpq
      rw [frame, append_assoc, take_append_of_le_length h8',
        take_append_of_le_length (by simp)] at this
      rw [← this]
      exact take_of_length_le (by simp)
    have hrest : record e out ++ sha.digest (record e out) = p.drop 8 ++ q := by
      have := congrArg (drop 8) hpq
      rw [frame, append_assoc, drop_append_of_le_length h8',
        drop_append_of_le_length (by simp)] at this
      rw [← this, drop_of_length_le (by simp), nil_append]
    have hcap : ¬ (record e out).length > MAX := by omega
    have hshort : (record e out).length + 32 > (p.drop 8).length := by
      rw [length_drop]
      omega
    have hbehind : completeRecordBehind sha (p.drop 8) = false := by
      rw [Bool.eq_false_iff]
      intro hc
      obtain ⟨e', out', tail, hv, heq, hle, _⟩ := (completeRecordBehind_iff sha _).1 hc
      have hsplit : record e' out' ++ (tail ++ ((p.drop 8).drop MAX ++ q)) =
          record e out ++ sha.digest (record e out) := by
        rw [hrest, ← append_assoc, ← heq, ← append_assoc, take_append_drop]
      have hinj := recordCodec.put_append_inj hv (record_valid h) hsplit
      cases hinj.1
      omega
    simp only [hword, lengthWord h, if_neg hcap, if_pos hshort, hbehind, Bool.false_eq_true,
      if_false]

/-- A length word in front of exactly as many bytes as it announces is a tear
when their digest fails: this is the last frame, and its body was not written. -/
theorem readFrame_unwritten (hword : word.length = 8)
    (h : fromLeBytes word ≤ MAX) (hlen : junk.length = fromLeBytes word + 32)
    (hbad : sha.digest (junk.take (fromLeBytes word)) ≠ junk.drop (fromLeBytes word)) :
    readFrame sha (word ++ junk) = .ok .torn := by
  have h8 : (word ++ junk).take 8 = word := by rw [← hword, take_left]
  have hd8 : (word ++ junk).drop 8 = junk := by rw [← hword, drop_left]
  have hlen8 : ¬ (word ++ junk).length < 8 := by
    rw [length_append]
    omega
  have hne : word ++ junk ≠ [] := by
    intro hnil
    simp [hnil] at hlen8
  have hcap : ¬ fromLeBytes word > MAX := by omega
  have hshort : ¬ fromLeBytes word + 32 > junk.length := by omega
  have hsum : (junk.drop (fromLeBytes word)).take 32 = junk.drop (fromLeBytes word) :=
    take_of_length_le (by rw [length_drop]; omega)
  simp only [readFrame, if_neg hne, if_neg hlen8, h8, hd8, if_neg hcap,
    if_neg hshort, hsum, ne_eq, hbad, not_false_eq_true, if_true, if_pos hlen.symm]

@[simp] theorem readFrame_nil : readFrame sha [] = .ok .finished := by
  simp [readFrame]

end Frames

end MiniDregg.PrivateBackend.TransitionJournal
