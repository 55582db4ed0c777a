import MiniDregg.PrivateBackend.Custody

/-!
# One use of a reserved row

Two calls are rivals when they ask for a common row in the name of the same
generation and purpose. A set of calls is disciplined when rivals share their
lock and their intent file; over every schedule of a disciplined set, all calls
that return `Ok` for a common row carried the same receipt prefix and the same
request.

## Implementation notes

The argument follows who caused an allocation. `View` is the world with the
anchor replaced by its published journal, the packets that may still be applied
and, for each row, the call whose packet allocated it. `Sound` is the invariant
over views: a retained intent whose batch is held was the cause of the batch.
-/

namespace MiniDregg.PrivateBackend

open Fallible TransitionJournal Journal List

variable {c d e : Call}

namespace Call

/-- Same receipt prefix and same request. -/
def Same (c d : Call) : Prop := c.receipt = d.receipt ∧ c.request = d.request

/-- A common row for the same generation and purpose. -/
def Rival (c d : Call) : Prop :=
  (∃ id ∈ c.ids, id ∈ d.ids) ∧ c.generation = d.generation ∧ c.purpose = d.purpose

theorem Rival.symm (h : Rival c d) : Rival d c := by
  obtain ⟨⟨id, hc, hd⟩, hg, hp⟩ := h
  exact ⟨⟨id, hd, hc⟩, hg.symm, hp.symm⟩

theorem Same.symm (h : Same c d) : Same d c := ⟨h.1.symm, h.2.symm⟩

theorem Same.trans (h : Same c d) (h' : Same d e) : Same c e :=
  ⟨h.1.trans h'.1, h.2.trans h'.2⟩

end Call

open Call

/-- The calls a deployment may make. The request packet is the one for the
call's own batch, receipt prefixes are prefix-free, rivals share lock and
intent file, and no call replaces a lock file. -/
structure Disciplined (calls : Set Call) : Prop where
  asks : ∀ c ∈ calls, Anchor.Asks c.request c.ids c.generation c.purpose
  prefixFree : ∀ c ∈ calls, ∀ d ∈ calls, ∀ x y,
    c.receipt ++ x = d.receipt ++ y → c.receipt = d.receipt
  onePath : ∀ c ∈ calls, ∀ d ∈ calls, Rival c d →
    c.lockPath = d.lockPath ∧ c.intentPath = d.intentPath
  lockApart : ∀ c ∈ calls, ∀ d ∈ calls, c.lockPath ≠ d.localPath ∧ c.lockPath ≠ d.intentPath

variable {calls : Set Call}

namespace Disciplined

variable (hD : Disciplined calls)
include hD

section
variable (hc : c ∈ calls) (hd : d ∈ calls)
include hc hd

theorem same_of_intent (h : c.intent = d.intent) : Same c d := by
  have hreceipt := hD.prefixFree c hc d hd _ _ h
  rw [Call.intent, Call.intent, hreceipt] at h
  exact ⟨hreceipt, Reader.bytes_delimited.injective (append_cancel_left h)⟩

theorem batch_of_same (h : Same c d) :
    c.ids = d.ids ∧ c.generation = d.generation ∧ c.purpose = d.purpose := by
  have hasks := hD.asks c hc
  rw [h.2] at hasks
  exact hasks.unique (hD.asks d hd)

theorem rival_of_same (h : Same c d) (hr : Rival c e) : Rival d e := by
  obtain ⟨hids, hg, hp⟩ := hD.batch_of_same hc hd h
  obtain ⟨⟨id, hid, hide⟩, hge, hpe⟩ := hr
  exact ⟨⟨id, hids ▸ hid, hide⟩, hg ▸ hge, hp ▸ hpe⟩

/-- A receipt is never read as an intent. -/
theorem receiptFor_ne_intent (j : Journal) : c.receiptFor j ≠ d.intent := by
  intro h
  have hreceipt := hD.prefixFree c hc d hd _ _ h
  rw [Call.receiptFor, Call.intent, hreceipt] at h
  have henc := Reader.bytes_delimited.injective (append_cancel_left h)
  have hhead : j.encode.head? = some 27 := by
    have hdomain : (bytes domain).head? = some 27 := by decide
    simp only [encode, append_assoc, head?_append, hdomain, Option.some_or]
  rw [henc] at hhead
  rcases (hD.asks d hd).head with h' | h' <;> simp [h'] at hhead

end

end Disciplined

/-! ## Views -/

/-- The world with the anchor's published journal, the packets that may still
be applied, and the call that allocated each row. -/
structure View where
  disk : Path → Option Bytes
  holder : Path → Option Nat
  clients : List Client
  returned : List Returned
  journal : Journal
  pending : List (Nat × Bytes)
  owner : Correlation → Option Call

namespace View

/-- The call behind a number. -/
def call (v : View) (i : Nat) : Option Call := v.clients[i]?.map Client.call

/-- The reservation packet of this call may still be applied. -/
def Reserves (v : View) (i : Nat) (c : Call) : Prop :=
  v.call i = some c ∧ (i, c.request) ∈ v.pending

def Holds (v : View) (c : Call) : Prop := c.held v.journal = true

/-- Every row of the call was allocated by a call with its prefix and request. -/
def Owned (v : View) (c : Call) : Prop := ∀ id ∈ c.ids, ∃ o, v.owner id = some o ∧ Same o c

/-- No rival's intent lies on disk. -/
def Clear (calls : Set Call) (v : View) (c : Call) : Prop :=
  ∀ d ∈ calls, Rival d c → v.disk d.intentPath = some d.intent → Same d c

/-- Rivals that may still be applied carry the same prefix and request. -/
def Kin (v : View) (c : Call) : Prop := ∀ k d, v.Reserves k d → Rival d c → Same d c

/-- No rival may still be applied. -/
def Unrivalled (v : View) (c : Call) : Prop := ∀ k d, v.Reserves k d → ¬ Rival d c

/-- No rival's packet stands behind a packet of call `i`. -/
def Ahead (v : View) (i : Nat) (c : Call) : Prop :=
  v.pending.Pairwise fun x y => x.1 = i → ∀ d, v.call y.1 = some d → y.2 = d.request → ¬ Rival d c

/-- The packet a waiting call has sent. -/
def awaits (c : Call) : Phase → Option Bytes
  | .surveying _ | .auditing _ => some [0]
  | .sending _ => some c.request
  | _ => none

/-- What is known about a call in each phase. -/
def PhaseSound (calls : Set Call) (v : View) (i : Nat) (c : Call) : Phase → Prop
  | .surveying retained =>
    v.Ahead i c ∧
      (retained = some c.intent → v.Clear calls c ∧ v.Kin c ∧ (v.Holds c → v.Owned c))
  | .surveyed retained before =>
    before.Canonical ∧ v.Unrivalled c ∧ (retained = some c.intent → v.Clear calls c) ∧
      (c.held before = true → retained = some c.intent → v.Owned c) ∧
      (c.held before = false → ¬ v.Holds c)
  | .intended before => before.Canonical ∧ (c.held before = false → v.Clear calls c)
  | .confirmed _ _ | .recorded _ | .auditing _ | .audited _ _ => v.Owned c
  | .locked | .sending _ | .ended => True

variable {i : Nat}

/-- The facts of a phase follow the facts they are made of. -/
theorem PhaseSound.mono {v v' : View} {phase : Phase} (h : v.PhaseSound calls i c phase)
    (hclear : v.Clear calls c → v'.Clear calls c) (hkin : v.Kin c → v'.Kin c)
    (hun : v.Unrivalled c → v'.Unrivalled c) (hahead : v.Ahead i c → v'.Ahead i c)
    (hmine : v.Kin c → (v.Holds c → v.Owned c) → v'.Holds c → v'.Owned c)
    (hholds : v.Unrivalled c → ¬ v.Holds c → ¬ v'.Holds c) (howned : v.Owned c → v'.Owned c) :
    v'.PhaseSound calls i c phase := by
  cases phase with
  | surveying retained =>
    refine ⟨hahead h.1, fun hr => ?_⟩
    obtain ⟨h₁, h₂, h₃⟩ := h.2 hr
    exact ⟨hclear h₁, hkin h₂, hmine h₂ h₃⟩
  | surveyed retained before =>
    obtain ⟨hcan, h₁, h₂, h₃, h₄⟩ := h
    exact ⟨hcan, hun h₁, fun hr => hclear (h₂ hr), fun hh hr => howned (h₃ hh hr),
      fun hh => hholds h₁ (h₄ hh)⟩
  | intended before => exact ⟨h.1, fun hh => hclear (h.2 hh)⟩
  | confirmed | recorded | auditing | audited => exact howned h
  | locked | sending | ended => trivial

/-- The invariant of a disciplined set of calls. -/
structure Sound (calls : Set Call) (v : View) : Prop where
  canonical : v.journal.Canonical
  spent : ∀ id o, v.owner id = some o → id ∈ v.journal.spent
  members : ∀ i c, v.call i = some c → c ∈ calls
  packets : ∀ i b, (i, b) ∈ v.pending → ∃ cl, v.clients[i]? = some cl ∧
    (b = [0] ∨ b = cl.call.request) ∧ (cl.phase ≠ .ended → awaits cl.call cl.phase = some b)
  single : (v.pending.map Prod.fst).Nodup
  locks : ∀ i cl, v.clients[i]? = some cl → cl.phase ≠ .ended →
    v.holder cl.call.lockPath = some i
  retained : ∀ d ∈ calls, v.disk d.intentPath = some d.intent → v.Holds d → v.Owned d
  flying : ∀ i c, v.Reserves i c → v.Clear calls c
  phases : ∀ i cl, v.clients[i]? = some cl → v.PhaseSound calls i cl.call cl.phase
  returned : ∀ r ∈ v.returned, r.call ∈ calls ∧ v.Owned r.call

theorem sound_initial (calls : Set Call) (disk : Path → Option Bytes) :
    Sound calls ⟨disk, fun _ => none, [], [], empty, [], fun _ => none⟩ where
  canonical := canonical_empty
  spent := by simp
  members := by simp [call]
  packets := by simp
  single := nodup_nil
  locks := by simp
  retained := by
    intro d _ _ h
    obtain ⟨hne, -, hrow⟩ := canonical_empty.holdsBatch_iff.1 h
    obtain ⟨id, rest, hids⟩ := exists_cons_of_ne_nil hne
    obtain ⟨a, ha, -⟩ := hrow id (by simp [hids])
    cases ha
  flying := by simp [Reserves]
  phases := by simp
  returned := by simp

namespace Sound

variable {v : View} (h : Sound calls v)
include h

variable {cl : Client}

theorem mem_of_client (hi : v.clients[i]? = some cl) :
    cl.call ∈ calls := h.members i cl.call (by simp [call, hi])

/-- Rivals that are both running are one call. -/
theorem eq_of_rival (hD : Disciplined calls) {k : Nat} {cl' : Client}
    (hi : v.clients[i]? = some cl) (hk : v.clients[k]? = some cl') (ho : cl.phase ≠ .ended)
    (ho' : cl'.phase ≠ .ended) (hr : Rival cl.call cl'.call) : i = k := by
  have hlock := (hD.onePath _ (h.mem_of_client hi) _ (h.mem_of_client hk) hr).1
  have h₁ := h.locks i cl hi ho
  rw [hlock, h.locks k cl' hk ho'] at h₁
  exact (Option.some.inj h₁).symm

/-- A call that waits for nothing has no packet under way. -/
theorem not_pending (hi : v.clients[i]? = some cl) (ho : cl.phase ≠ .ended)
    (hw : awaits cl.call cl.phase = none) (b : Bytes) : (i, b) ∉ v.pending := by
  intro hmem
  obtain ⟨cl', hi', -, ha⟩ := h.packets i b hmem
  rw [hi] at hi'
  obtain rfl := Option.some.inj hi'
  rw [hw] at ha
  cases ha ho

end Sound

end View

end MiniDregg.PrivateBackend
