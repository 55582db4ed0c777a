import MiniDregg.PrivateBackend.Codec
import MiniDregg.Wire.Sha2

/-!
# The deterministic transition WAL

The file starts with a header that pins the identity. Each later frame holds
the length of a record, the record (an event and the outbox its application
produced) and the digest of the record. Opening replays every frame; a torn
final frame is dropped and reported.

## Implementation notes

The file is its content; truncation, appending and the rewriting of a torn
header are functions on it. The advisory lock, the file mode and the seek
position carry no data and are left out. A failed write is a parameter of
`append`: it says how many bytes of the frame reached the file.
-/

namespace MiniDregg.PrivateBackend.TransitionJournal

open Fallible Wire Cursor

/-- `trait Machine`: a deterministic application of an event, with its outbox. -/
class Machine (M : Type) where
  apply : M → Bytes → Result (M × Bytes)

/-- The final record recovery dropped: its start offset and its bytes. -/
structure TornTail where
  offset : Nat
  dropped : Bytes
  deriving DecidableEq, Repr

structure Journal (M : Type) where
  file : Bytes
  torn : Option TornTail
  state : M
  outbox : List Bytes
  poisoned : Bool

def record (e out : Bytes) : Bytes := bytes e ++ bytes out

section Format
variable (sha : Digest)

/-- The exact first bytes of a WAL with this identity. -/
def header (identity : Bytes) : Bytes :=
  let h := ascii "DREGG.TRANSITION.WAL\x01" ++ bytes identity
  h ++ sha.digest h

/-- A frame as `append` writes it: length word, record, digest. -/
def frame (b : Bytes) : Bytes := toLeBytes 8 b.length ++ b ++ sha.digest b

/-- Whether a complete record with a valid digest stands at this position,
whatever its length word says. -/
def completeRecordBehind (rest : Bytes) : Bool :=
  let front := rest.take MAX
  match (do
    let c ← new front
    let (_, c) ← Cursor.bytes c
    let (_, c) ← Cursor.bytes c
    pure c : Result Bytes) with
  | .error _ => false
  | .ok c =>
    let n := front.length - c.length
    decide (n + 32 ≤ rest.length) && decide (sha.digest (rest.take n) = (rest.drop n).take 32)

/-- What the scanner finds at a record start. -/
inductive Frame
  | finished
  | torn
  | record (event expected rest : Bytes)

/-- One round of the scanning loop up to the application of the event. -/
def readFrame (all : Bytes) : Result Frame :=
  if all = [] then .ok .finished
  else if all.length < 8 then .ok .torn
  else
    let n := fromLeBytes (all.take 8)
    let rest := all.drop 8
    if n > MAX then .error "transition frame capacity"
    else if n + 32 > rest.length then
      if completeRecordBehind sha rest then .error "transition interior length damage"
      else .ok .torn
    else
      let b := rest.take n
      if sha.digest b ≠ (rest.drop n).take 32 then
        if n + 32 = rest.length then .ok .torn
        else .error "transition checksum"
      else do
        let c ← new b
        let (event, c) ← Cursor.bytes c
        let (expected, c) ← Cursor.bytes c
        finish c
        pure (.record event expected (rest.drop (n + 32)))

theorem readFrame_record_lt {all event expected rest : Bytes}
    (h : readFrame sha all = .ok (.record event expected rest)) : rest.length < all.length := by
  unfold readFrame at h
  split at h
  · cases h
  next hne =>
    split at h
    · cases h
    next h8 =>
      simp only at h
      split at h
      · cases h
      · split at h
        · split at h <;> cases h
        · split at h
          · split at h <;> cases h
          · simp only [bind_eq_ok, Prod.exists, pure_inj,
              Frame.record.injEq] at h
            obtain ⟨_, _, _, _, _, _, _, _, _, _, _, _, rfl⟩ := h
            simp only [List.length_drop]
            omega

end Format

section Machine
variable (sha : Digest) {M : Type} [Machine M]

/-- What the scanning loop leaves behind. -/
structure Scanned (M : Type) where
  state : M
  outbox : List Bytes
  torn : Option TornTail

/-- The scanning loop from offset `i`, where `all` is what follows it. -/
def scan (i : Nat) (all : Bytes) (state : M) (outbox : List Bytes) : Result (Scanned M) :=
  match h : readFrame sha all with
  | .error e => .error e
  | .ok .finished => .ok ⟨state, outbox, none⟩
  | .ok .torn => .ok ⟨state, outbox, some ⟨i, all⟩⟩
  | .ok (.record event expected rest) =>
    match Machine.apply state event with
    | .error e => .error e
    | .ok (next, actual) =>
      if actual ≠ expected then .error "transition outbox replay mismatch"
      else
        have := readFrame_record_lt sha h
        scan (i + (all.length - rest.length)) rest next (outbox ++ [actual])
  termination_by all.length

/-- What the opening makes of a finished scan: a tear cuts the file at its offset. -/
def settle (all : Bytes) : Result (Scanned M) → Bytes × Result (Journal M)
  | .error e => (all, .error e)
  | .ok s =>
    let kept := match s.torn with
      | none => all
      | some t => all.take t.offset
    (kept, .ok ⟨kept, s.torn, s.state, s.outbox, false⟩)

/-- `Journal::open`: the file it leaves behind, and the journal or the refusal. -/
def openJournal (file identity : Bytes) (initial : M) : Bytes × Result (Journal M) :=
  if identity.length > MAX then (file, .error "transition identity bound")
  else
    let head := header sha identity
    let created := if file.length = 0 then head else file
    let all := if created.length < head.length ∧ created <+: head then head else created
    if ¬ head <+: all then (all, .error "transition exact identity/version")
    else settle all (scan sha head.length (all.drop head.length) initial [])

/-- How many bytes of a frame reached the file before its write failed. -/
structure WriteFault where
  written : Nat
  error : String

/-- `Journal::append`; `fault` is the outcome of the three writes. -/
def Journal.append (j : Journal M) (event : Bytes) (fault : Option WriteFault) :
    Journal M × Result Bytes :=
  if j.poisoned then (j, .error "uncertain transition persistence; restart required")
  else
    match Machine.apply j.state event with
    | .error e => (j, .error e)
    | .ok (next, out) =>
      let b := record event out
      if b.length > MAX then (j, .error "transition frame capacity")
      else
        match fault with
        | some f =>
          ({ j with file := j.file ++ (frame sha b).take f.written, poisoned := true },
            .error f.error)
        | none =>
          ({ j with file := j.file ++ frame sha b, state := next,
                    outbox := j.outbox ++ [out] }, .ok out)

/-- A sequence of appends that all succeed. -/
def Journal.appendAll (j : Journal M) : List Bytes → Result (Journal M)
  | [] => .ok j
  | e :: rest =>
    match j.append sha e none with
    | (j', .ok _) => j'.appendAll rest
    | (_, .error err) => .error err

end Machine

/-- Applying events in order: the final state and every outbox. -/
def replay {M : Type} [Machine M] (m : M) : List Bytes → Result (M × List Bytes)
  | [] => .ok (m, [])
  | e :: rest => do
    let (m', out) ← Machine.apply m e
    let (m'', outs) ← replay m' rest
    pure (m'', out :: outs)

end MiniDregg.PrivateBackend.TransitionJournal
