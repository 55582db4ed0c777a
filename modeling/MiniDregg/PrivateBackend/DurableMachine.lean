import MiniDregg.PrivateBackend.TransitionRecovery

/-!
# Durable machines

What a WAL promises to the machine behind it, for every machine: a usable journal
holds the state its file replays to, and after a failed write the next opening finds
the state before the event or the state after it. A property of states that every event
keeps therefore survives appends, failed writes and restarts alike.
-/

namespace MiniDregg.PrivateBackend.TransitionJournal

open Fallible Wire Machine Relation

variable {sha : Digest} {M : Type} [Machine M] {identity : Bytes} {initial : M}

/-- One event leads from the first state to the second. -/
def Applies (m m' : M) : Prop := ∃ e out, apply m e = .ok (m', out)

/-- What stands behind a journal: its own state and, after an uncertain write, the
state the next opening may find. -/
inductive Journal.Backed (sha : Digest) (identity : Bytes) (initial : M) :
    Journal M → Option M → Prop
  | settled {j : Journal M} {log : Log} (holds : j.Holds sha identity initial log) :
      Backed sha identity initial j none
  | uncertain {j : Journal M} {log : Log} {m' : M} {e out : Bytes} {n : Nat}
      (replays : Replays initial log j.state)
      (happly : apply j.state e = .ok (m', out))
      (hfit : (record e out).length ≤ MAX)
      (file : j.file = walOf sha identity log ++ (frame sha (record e out)).take n)
      (poisoned : j.poisoned = true) : Backed sha identity initial j (some m')

/-- What one append can do. -/
inductive Journal.Appended (sha : Digest) (identity : Bytes) (initial : M) (j : Journal M)
    (event : Bytes) : Journal M × Result Bytes → Prop
  | refused (e : String) : Appended sha identity initial j event (j, .error e)
  | applied {j' : Journal M} {out : Bytes}
      (happly : apply j.state event = .ok (j'.state, out))
      (backed : j'.Backed sha identity initial none) :
      Appended sha identity initial j event (j', .ok out)
  | uncertain {j' : Journal M} {m' : M} (e : String) (state : j'.state = j.state)
      (backed : j'.Backed sha identity initial (some m')) :
      Appended sha identity initial j event (j', .error e)

variable {j : Journal M} {next : Option M} {log : Log}

theorem Journal.Backed.append (h : j.Backed sha identity initial next) (event : Bytes)
    (fault : Option WriteFault) :
    Journal.Appended sha identity initial j event (j.append sha event fault) := by
  cases h with
  | uncertain replays happly hfit file poisoned =>
    rw [Journal.append, if_pos poisoned]
    exact .refused _
  | settled holds =>
    obtain ⟨e, h⟩ | ⟨m, out, hm, hfit, ⟨j', h, rfl, holds'⟩ |
      ⟨j', e, n, h, hstate, hpoisoned, hfile⟩⟩ :=
      holds.append_cases event fault
    · rw [h]
      exact .refused e
    · rw [h]
      exact .applied hm (.settled holds')
    · rw [h]
      exact .uncertain e hstate
        (.uncertain (hstate ▸ holds.replays) (hstate ▸ hm) hfit hfile hpoisoned)

/-- After an uncertain write an opening finds the log without the event or with it. -/
theorem reopen_uncertain {m m' : M} {e out : Bytes} (hid : identity.length ≤ MAX)
    (replays : Replays initial log m) (happly : apply m e = .ok (m', out))
    (hfit : (record e out).length ≤ MAX) (n : Nat) :
    ∃ (f : Bytes) (j : Journal M) (log' : Log),
      openJournal sha (walOf sha identity log ++ (frame sha (record e out)).take n) identity
        initial = (f, .ok j) ∧ j.Holds sha identity initial log' ∧ (j.state = m ∨ j.state = m') := by
  by_cases hn : n < (frame sha (record e out)).length
  · have htorn : (frame sha (record e out)).take n = [] ∨
        readFrame sha ((frame sha (record e out)).take n) = .ok .torn := by
      by_cases hnil : (frame sha (record e out)).take n = []
      · exact .inl hnil
      · have hdrop : (frame sha (record e out)).drop n ≠ [] := by
          simpa [List.drop_eq_nil_iff] using hn
        exact .inr (readFrame_truncated sha hfit (List.take_append_drop n _).symm hnil hdrop)
    exact ⟨_, _, log, openJournal_walOf sha hid replays _ htorn, ⟨rfl, replays, rfl, rfl⟩, .inl rfl⟩
  · have hreplays := replays.append (.cons happly hfit .nil)
    have hwal : walOf sha identity log ++ frame sha (record e out) =
        walOf sha identity (log ++ [(e, out)]) ++ [] := by
      simp [walOf_append, frames]
    rw [List.take_of_length_le (by omega), hwal]
    exact ⟨_, _, _, openJournal_walOf sha hid hreplays [] (.inl rfl), ⟨rfl, hreplays, rfl, rfl⟩,
      .inr rfl⟩

/-- Reopening succeeds and finds the state, or the one the uncertain write left. -/
theorem Journal.Backed.reopen (hid : identity.length ≤ MAX)
    (h : j.Backed sha identity initial next) :
    ∃ (f : Bytes) (j' : Journal M), openJournal sha j.file identity initial = (f, .ok j') ∧
      j'.Backed sha identity initial none ∧
      (j'.state = j.state ∨ Applies j.state j'.state) := by
  cases h with
  | settled holds =>
    exact ⟨_, _, holds.reopen hid,
      .settled ⟨holds.file, holds.replays, holds.outbox, rfl⟩, .inl rfl⟩
  | @uncertain _ _ e out n replays happly hfit file poisoned =>
    obtain ⟨f, j', log', hopen, holds, hstate⟩ := reopen_uncertain hid replays happly hfit n
    refine ⟨f, j', file ▸ hopen, .settled holds, hstate.imp_right ?_⟩
    rintro rfl
    exact ⟨e, out, happly⟩

/-- The journal an opening creates on an empty file. -/
def Journal.fresh (sha : Digest) (identity : Bytes) (initial : M) : Journal M :=
  ⟨header sha identity, none, initial, [], false⟩

/-! ## Histories -/

/-- A use of a WAL: an append with the outcome of its writes, or a restart. A kill
inside an append is both. -/
inductive Use
  | append (event : Bytes) (fault : Option WriteFault)
  | restart

def Use.run (sha : Digest) (identity : Bytes) (initial : M) (j : Journal M) : Use → Journal M
  | append event fault => (j.append sha event fault).1
  | restart =>
    match openJournal sha j.file identity initial with
    | (_, .ok j') => j'
    | (_, .error _) => j

section
variable (hid : identity.length ≤ MAX) (h : j.Backed sha identity initial next)
include hid h

theorem Journal.Backed.use (u : Use) :
    ∃ next', (u.run sha identity initial j).Backed sha identity initial next' ∧
      ReflTransGen Applies j.state (u.run sha identity initial j).state := by
  cases u with
  | append event fault =>
    have happend := h.append event fault
    simp only [Use.run]
    generalize j.append sha event fault = r at happend
    cases happend with
    | refused => exact ⟨next, h, .refl⟩
    | applied happly backed => exact ⟨none, backed, .single ⟨event, _, happly⟩⟩
    | uncertain _ hstate backed => exact ⟨_, backed, hstate ▸ .refl⟩
  | restart =>
    obtain ⟨f, j', hopen, backed, hstate⟩ := h.reopen hid
    rw [Use.run, hopen]
    refine ⟨none, backed, ?_⟩
    rcases hstate with hsame | happly
    · exact hsame ▸ .refl
    · exact .single happly

theorem Journal.Backed.uses (uses : List Use) :
    ∃ next', (uses.foldl (Use.run sha identity initial) j).Backed sha identity initial next' ∧
      ReflTransGen Applies j.state (uses.foldl (Use.run sha identity initial) j).state := by
  induction uses generalizing j next with
  | nil => exact ⟨next, h, .refl⟩
  | cons u uses ih =>
    obtain ⟨_, hu, hstep⟩ := h.use hid u
    obtain ⟨next', huses, hrest⟩ := ih hu
    exact ⟨next', huses, hstep.trans hrest⟩

end

/-- Over every history of appends, failed writes and restarts, the state moves by whole events
only, and no state that was reached is ever undone. -/
theorem never_rolls_back (sha : Digest) (identity : Bytes) (initial : M)
    (hid : identity.length ≤ MAX) (before after : List Use) :
    ReflTransGen Applies
      (before.foldl (Use.run sha identity initial) (.fresh sha identity initial)).state
      ((before ++ after).foldl (Use.run sha identity initial)
        (.fresh sha identity initial)).state := by
  have hfresh : (Journal.fresh sha identity initial).Holds sha identity initial [] :=
    ⟨by simp [Journal.fresh, walOf], .nil, rfl, rfl⟩
  obtain ⟨_, hbefore, -⟩ := (Journal.Backed.settled hfresh).uses hid before
  rw [List.foldl_append]
  obtain ⟨-, -, hforward⟩ := hbefore.uses hid after
  exact hforward

theorem never_rolls_back_counter : ReflTransGen Applies (Counter.mk 0)
    ([.append (toLeBytes 8 1) (some ⟨3, "full"⟩), .restart].foldl (Use.run sha256 [] (Counter.mk 0))
      (.fresh sha256 [] ⟨0⟩)).state :=
  never_rolls_back sha256 [] (Counter.mk 0) (Nat.zero_le _) [] _

end MiniDregg.PrivateBackend.TransitionJournal
