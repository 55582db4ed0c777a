import MiniDregg.PrivateBackend.Correlations
import MiniDregg.PrivateBackend.DurableMachine

/-!
# The external anchor

The anchor keeps the journal of correlations behind a transition WAL: an event
is a canonical batch request, its outbox the digest of the resulting journal.
A write that fails poisons the anchor, which then refuses every packet until it
is reopened; the reopening finds the uncertain record or drops it.

## Implementation notes

`Anchor` is the WAL journal of `AnchorMachine`. As for `append`, the outcome of
the writes is a parameter of `handle`.
-/

namespace MiniDregg.PrivateBackend

open Fallible TransitionJournal Journal Machine

/-- The anchor's state machine. -/
structure AnchorMachine (sha : Wire.Digest) where
  journal : Journal

variable {sha : Wire.Digest}

instance : Machine (AnchorMachine sha) where
  apply m event := do
    let (ids, g, p) ← parseBatchRequest event
    refuseIf (decide (batchRequest ids g p ≠ event)) "authority request canonical"
    let j ← m.journal.reserveBatch ids g p
    pure (⟨j⟩, sha.digest j.encode)

abbrev Anchor (sha : Wire.Digest) := TransitionJournal.Journal (AnchorMachine sha)

namespace Anchor

def identity : Bytes := ascii "DREGG.PRIVATE.ANCHOR.WAL.V2"

/-- `Anchor::open`. -/
def openAnchor (file : Bytes) : Bytes × Result (Anchor sha) :=
  openJournal sha file identity ⟨empty⟩

/-- What `Anchor::open` returns on an empty directory. -/
def fresh : Anchor sha := ⟨header sha identity, none, ⟨empty⟩, [], false⟩

section
variable (a : Anchor sha)

def journal : Journal := a.state.journal

def reserveBatch (ids : List Correlation) (g : Generation) (p : Purpose)
    (fault : Option WriteFault) : Anchor sha × Result Bytes :=
  match a.append sha (batchRequest ids g p) fault with
  | (a', .error e) => (a', .error e)
  | (a', .ok _) => (a', .ok (journal a').encode)

/-- `Anchor::reserve`. -/
def reserve (id : Correlation) (g : Generation) (p : Purpose)
    (fault : Option WriteFault) : Anchor sha × Result Bytes :=
  reserveBatch a [id] g p fault

def handle (b : Bytes) (fault : Option WriteFault) : Anchor sha × Result Bytes :=
  if a.poisoned then (a, .error "authority uncertain")
  else
    match b with
    | [0] => (a, .ok (journal a).encode)
    | 1 :: b =>
      match parseRequest b with
      | .error e => (a, .error e)
      | .ok (id, g, p) => reserve a id g p fault
    | 2 :: b =>
      match parseBatchRequest b with
      | .error e => (a, .error e)
      | .ok (ids, g, p) => reserveBatch a ids g p fault
    | _ => (a, .error "anchor request")

end

/-- The packet asks for this batch, alone or as a list. -/
inductive Asks : Bytes → List Correlation → Generation → Purpose → Prop
  | single (id g p) : Asks (1 :: request id g p) [id] g p
  | batch (ids g p) : Asks (2 :: batchRequest ids g p) ids g p

variable {b : Bytes} {ids : List Correlation} {g : Generation} {p : Purpose} {j : Journal}
  {a : Anchor sha}

theorem Asks.unique {ids' : List Correlation} {g' : Generation} {p' : Purpose} (h : Asks b ids g p)
    (h' : Asks b ids' g' p') : ids = ids' ∧ g = g' ∧ p = p' := by
  generalize hb : b = b' at h'
  cases h with
  | single id g p =>
    cases h' with
    | single id' g' p' =>
      obtain ⟨rfl, rfl, rfl⟩ := request_injective (List.cons.inj hb).2
      exact ⟨rfl, rfl, rfl⟩
    | batch => exact absurd (List.cons.inj hb).1 (by decide)
  | batch ids g p =>
    cases h' with
    | single => exact absurd (List.cons.inj hb).1 (by decide)
    | batch ids' g' p' => exact batchRequest_injective (List.cons.inj hb).2

theorem Asks.head (h : Asks b ids g p) : b.head? = some 1 ∨ b.head? = some 2 := by
  cases h with
  | single => exact .inl rfl
  | batch => exact .inr rfl

/-- What stands behind an anchor: the journal it has published and, after an
uncertain write, the journal it may find at its next opening. -/
inductive Backed : Anchor sha → Journal → Option Journal → Prop
  | settled {a : Anchor sha} {log : Log} {j : Journal}
      (holds : a.Holds sha identity ⟨empty⟩ log) (state : journal a = j) :
      Backed a j none
  | uncertain {a : Anchor sha} {log : Log} {j j' : Journal} {e out : Bytes} {n : Nat}
      (replays : Replays (⟨empty⟩ : AnchorMachine sha) log ⟨j⟩)
      (happly : apply (⟨j⟩ : AnchorMachine sha) e = .ok (⟨j'⟩, out))
      (hfit : (record e out).length ≤ MAX)
      (file : a.file = walOf sha identity log ++ (frame sha (record e out)).take n)
      (poisoned : a.poisoned = true) : Backed a j (some j')

theorem identity_fits : identity.length ≤ MAX := by decide

theorem backed_fresh : Backed (fresh : Anchor sha) empty none :=
  .settled ⟨by simp [fresh, walOf], .nil, rfl, rfl⟩ rfl

theorem apply_eq_ok {e out : Bytes} {m : AnchorMachine sha}
    (h : apply (⟨j⟩ : AnchorMachine sha) e = .ok (m, out)) :
    ∃ ids g p, e = batchRequest ids g p ∧ j.reserveBatch ids g p = .ok m.journal := by
  simp only [apply, bind_eq_ok, Prod.exists, refuseIf_eq_ok, pure_pair] at h
  obtain ⟨ids, g, p, hparse, -, -, j', hj, rfl, -⟩ := h
  exact ⟨ids, g, p, parseBatchRequest_eq_ok hparse, hj⟩

/-- What one packet can do to an anchor that is not poisoned. -/
inductive Handled (a : Anchor sha) (j : Journal) (b : Bytes) : Anchor sha × Result Bytes → Prop
  | refused (e : String) : Handled a j b (a, .error e)
  | read (hb : b = [0]) : Handled a j b (a, .ok j.encode)
  | applied {a' : Anchor sha} {j' : Journal} {ids g p} (asks : Asks b ids g p)
      (hj : j.reserveBatch ids g p = .ok j') (backed : Backed a' j' none) :
      Handled a j b (a', .ok j'.encode)
  | uncertain {a' : Anchor sha} {j' : Journal} {ids g p} (e : String) (asks : Asks b ids g p)
      (hj : j.reserveBatch ids g p = .ok j') (backed : Backed a' j (some j')) :
      Handled a j b (a', .error e)

private theorem reserveBatch_handled {log : Log} (holds : a.Holds sha identity ⟨empty⟩ log)
    (state : journal a = j) (asks : Asks b ids g p) (fault : Option WriteFault) :
    Handled a j b (reserveBatch a ids g p fault) := by
  have hstate : a.state = ⟨j⟩ := by rw [← state]; rfl
  have hreserves {m : AnchorMachine sha} {out : Bytes}
      (hm : apply a.state (batchRequest ids g p) = .ok (m, out)) :
      j.reserveBatch ids g p = .ok m.journal := by
    obtain ⟨ids', g', p', hev, hj⟩ := apply_eq_ok (hstate ▸ hm)
    obtain ⟨rfl, rfl, rfl⟩ := batchRequest_injective hev
    exact hj
  unfold reserveBatch
  obtain ⟨e, h⟩ | ⟨m, out, hm, hfit, ⟨a', h, rfl, holds'⟩ | ⟨a', e, n, h, -, hpoisoned, hfile⟩⟩ :=
    holds.append_cases (batchRequest ids g p) fault
  · rw [h]
    exact .refused e
  · rw [h]
    exact .applied asks (hreserves hm) (.settled holds' rfl)
  · rw [h]
    exact .uncertain e asks (hreserves hm)
      (.uncertain (hstate ▸ holds.replays) (hstate ▸ hm) hfit hfile hpoisoned)

theorem handle_handled (h : Backed a j none) (b : Bytes) (fault : Option WriteFault) :
    Handled a j b (handle a b fault) := by
  cases h with
  | settled holds state =>
    unfold handle
    rw [if_neg (by simp [holds.usable])]
    split
    · rw [state]
      exact .read rfl
    · split
      · exact .refused _
      next b id g p hparse =>
        obtain rfl := parseRequest_eq_ok hparse
        exact reserveBatch_handled holds state (.single id g p) fault
    · split
      · exact .refused _
      next b ids g p hparse =>
        obtain rfl := parseBatchRequest_eq_ok hparse
        exact reserveBatch_handled holds state (.batch ids g p) fault
    · exact .refused _

/-- A poisoned anchor refuses every packet. -/
theorem handle_uncertain {j' : Journal} (h : Backed a j (some j')) (b : Bytes)
    (fault : Option WriteFault) : handle a b fault = (a, .error "authority uncertain") := by
  cases h with
  | uncertain _ _ _ _ poisoned => simp [handle, poisoned]

/-- Reopening settles an anchor: the uncertain record was written or it was not. -/
theorem Backed.reopen {next : Option Journal} (h : Backed a j next) :
    ∃ (f : Bytes) (a' : Anchor sha), openAnchor a.file = (f, .ok a') ∧
      (Backed a' j none ∨ ∃ j', next = some j' ∧ Backed a' j' none) := by
  cases h with
  | settled holds state =>
    exact ⟨_, _, holds.reopen identity_fits,
      .inl (.settled ⟨holds.file, holds.replays, holds.outbox, rfl⟩ state)⟩
  | @uncertain _ _ j' _ _ n replays happly hfit file poisoned =>
    obtain ⟨f, a', log', hopen, holds, hstate | hstate⟩ :=
      reopen_uncertain identity_fits replays happly hfit n
    · exact ⟨f, a', file ▸ hopen, .inl (.settled holds (congrArg AnchorMachine.journal hstate))⟩
    · exact ⟨f, a', file ▸ hopen,
        .inr ⟨j', rfl, .settled holds (congrArg AnchorMachine.journal hstate)⟩⟩

end Anchor

end MiniDregg.PrivateBackend
