import MiniDregg.Control.Fallible
import MiniDregg.Text.JsonValue
import MiniDregg.Wire.Fixed
import MiniDregg.Wire.Sha2

/-!
# Attempt custody

What became of one exact call. Outcomes are read off the Host's presentations, a retained
history is read by `standing` and by `classify`, and an attempt moves from its draft to a
decision that no later attempt of the invocation may reopen.

## Implementation notes

A detail that the source renders as text is kept as the value it renders. A refusal names
the attempt and the step, where the source prints them.
-/

namespace MiniDregg.MiniSdk

open List Text Wire

/-! ## Outcomes -/

structure Receipt where
  confirmation : String
  transactionId : String
  eventId : String
  acceptedCount : String
  worldRoot : String

/-- Confirmations that mean the exact call is admitted. -/
def CONFIRMATIONS : List String := ["installed", "replayed", "recoveredAfterUncertainResponse"]

inductive Outcome
  | confirmed (receipt : Receipt)
  | charged (receipt : Receipt) (cause : Value)
  | refused (refusal : Value)
  | undecided (answer : Value)

def outcomeOf (v : Value) : Outcome :=
  if v.text "type" = some "confirmed" then
    match v.text "confirmation", v.text "transactionId", v.text "eventId",
        v.text "acceptedCount", v.text "worldRoot" with
    | some c, some t, some e, some a, some w =>
      if c ∈ CONFIRMATIONS then
        match v.get "disposition" with
        | none => .confirmed ⟨c, t, e, a, w⟩
        | some d =>
          if d.asStr = some "charged" then .charged ⟨c, t, e, a, w⟩ ((v.get "cause").getD .null)
          else .undecided v
      else .undecided v
    | _, _, _, _, _ => .undecided v
  else if v.text "type" = some "refused" then .refused v
  else .undecided v

inductive Standing
  | confirmed (v : Value)
  | charged (v : Value)
  | refused
  | pending

/-- The element is `confirmed` with a known word. -/
def known (v : Value) : Bool :=
  v.text "type" = some "confirmed" ∧ (v.text "confirmation").any (· ∈ CONFIRMATIONS)

/-- What a confirmation point says. -/
def point (v : Value) : Standing :=
  match v.get "disposition" with
  | none => .confirmed v
  | some d => if d.asStr = some "charged" then .charged v else .pending

def standing (history : List Value) : Standing :=
  match history.reverse.find? known with
  | some v => point v
  | none =>
    match history.getLast? with
    | some v => if v.text "type" = some "refused" then .refused else .pending
    | none => .pending

/-- `Confirmed` or `Charged`. -/
def Outcome.admitted : Outcome → Bool
  | .confirmed _ | .charged _ _ => true
  | .refused _ | .undecided _ => false

def classify (history : List Value) : Option Outcome :=
  match (history.reverse.map outcomeOf).find? Outcome.admitted with
  | some o => some o
  | none => history.getLast?.map outcomeOf

/-- The answer of `standing` of the same kind, for an element. -/
def Outcome.standing (v : Value) : Outcome → Standing
  | .confirmed _ => .confirmed v
  | .charged _ _ => .charged v
  | .refused _ => .refused
  | .undecided _ => .pending

variable {history : List Value} {v : Value}

/-- An element from which `classify` answers is a confirmation point of the same kind. -/
theorem point_of_admitted (h : (outcomeOf v).admitted = true) :
    known v = true ∧ point v = (outcomeOf v).standing v := by
  unfold outcomeOf at h ⊢
  split_ifs at h ⊢ with htype hrefused
  · split at h
    next c _ _ _ _ hc _ _ _ _ =>
      split_ifs at h ⊢ with hword
      · refine ⟨by simp [known, htype, hc, hword], ?_⟩
        unfold point
        split at h
        · rfl
        · split_ifs at h ⊢
          · rfl
          · cases h
      · cases h
    · cases h
  · cases h
  · cases h

/-- A confirmation point answers from itself. -/
theorem eq_of_point {u : Value} {o : Outcome} (ho : o.admitted = true)
    (h : point u = o.standing v) : u = v := by
  unfold point at h
  cases o with
  | refused | undecided => cases ho
  | confirmed | charged =>
    split at h
    · cases h <;> rfl
    · split_ifs at h <;> cases h <;> rfl

/-- The last element that satisfies a predicate, with what comes after it. -/
theorem find?_reverse_eq_some {p : Value → Bool} :
    history.reverse.find? p = some v ↔
      p v = true ∧ ∃ before after, history = before ++ v :: after ∧ ∀ w ∈ after, p w = false := by
  rw [find?_eq_some_iff_append]
  apply and_congr_right
  intro _
  constructor
  · rintro ⟨as, bs, hsplit, has⟩
    refine ⟨bs.reverse, as.reverse, ?_, by simpa using has⟩
    rw [← reverse_reverse history, hsplit]
    simp
  · rintro ⟨before, after, rfl, hafter⟩
    exact ⟨after.reverse, before.reverse, by simp, by simpa using hafter⟩

/-- An answer `Confirmed` or `Charged` of `classify` comes from the last element that has
one, and `standing` gives the same answer for that element exactly when no later element is
a confirmation point. A refusal of `standing` is one of `classify`. -/
theorem classify_refines_iff (history : List Value) :
    (∀ o, classify history = some o → o.admitted = true →
      ∃ before v after, history = before ++ v :: after ∧ outcomeOf v = o ∧
        (∀ w ∈ after, (outcomeOf w).admitted = false) ∧
        (standing history = o.standing v ↔ ∀ w ∈ after, known w = false)) ∧
      (standing history = .refused → ∃ v, classify history = some (.refused v)) := by
  have hfind : (history.reverse.map outcomeOf).find? Outcome.admitted =
      (history.reverse.find? fun v => (outcomeOf v).admitted).map outcomeOf := find?_map
  constructor
  · intro o hclassify hadmitted
    obtain ⟨v, hv, rfl⟩ :
        ∃ v, history.reverse.find? (fun v => (outcomeOf v).admitted) = some v ∧
          outcomeOf v = o := by
      rw [classify, hfind] at hclassify
      cases hlast : history.reverse.find? (fun v => (outcomeOf v).admitted) with
      | some v =>
        rw [hlast] at hclassify
        exact ⟨v, rfl, Option.some.inj hclassify⟩
      | none =>
        -- the newest element would itself have been found
        rw [hlast] at hclassify
        obtain ⟨v, hv, rfl⟩ := Option.map_eq_some_iff.1 hclassify
        have hmem := mem_reverse.2 (mem_of_getLast? hv)
        exact absurd hadmitted (find?_eq_none.1 hlast v hmem)
    obtain ⟨-, before, after, rfl, hafter⟩ := find?_reverse_eq_some.1 hv
    obtain ⟨hknown, hpoint⟩ := point_of_admitted hadmitted
    refine ⟨before, v, after, rfl, rfl, hafter, ?_⟩
    constructor
    · intro hstanding w hw
      by_contra hpast
      rw [Bool.not_eq_false] at hpast
      -- a later point is answered from, and it is not the element
      obtain ⟨u, hu⟩ : ∃ u, after.reverse.find? known = some u :=
        Option.isSome_iff_exists.1 (find?_isSome.2 ⟨w, mem_reverse.2 hw, hpast⟩)
      have hlater := hafter u (mem_reverse.1 (mem_of_find?_eq_some hu))
      rw [standing, reverse_append, reverse_cons, append_assoc, find?_append, hu,
        Option.some_or] at hstanding
      rw [eq_of_point hadmitted hstanding, hadmitted] at hlater
      cases hlater
    · intro hnone
      rw [standing, find?_reverse_eq_some.2 ⟨hknown, before, after, rfl, hnone⟩]
      exact hpoint
  · intro hrefused
    unfold standing at hrefused
    split at hrefused
    next v hv =>
      have hpoint : point v ≠ .refused := by
        unfold point
        split
        · simp
        · split_ifs <;> simp
      exact absurd hrefused hpoint
    next hnone =>
      split at hrefused
      next v hlast =>
        split_ifs at hrefused with htype
        have hnever : history.reverse.find? (fun v => (outcomeOf v).admitted) = none := by
          rw [find?_eq_none] at hnone ⊢
          intro w hw hadmitted
          exact hnone w hw (point_of_admitted hadmitted).1
        have houtcome : outcomeOf v = .refused v := by
          simp [outcomeOf, htype]
        refine ⟨v, ?_⟩
        rw [classify, hfind, hnever, hlast, Option.map_some, houtcome]
        rfl
      · cases hrefused

/-- A confirmation with all its fields, and further ones. -/
def installed (more : List (String × Value)) : Value :=
  .object ([("type", .string "confirmed"), ("confirmation", .string "installed"),
    ("transactionId", .string "1"), ("eventId", .string "2"), ("acceptedCount", .string "3"),
    ("worldRoot", .string "4")] ++ more)

/-- A later confirmation of an unknown disposition leaves the call pending for `standing`,
while `classify` answers from the earlier one. -/
theorem classify_confirms_pending :
    classify [installed [], installed [("disposition", .string "partial")]] =
        some (.confirmed ⟨"installed", "1", "2", "3", "4"⟩) ∧
      standing [installed [], installed [("disposition", .string "partial")]] = .pending := by
  constructor <;> rfl

/-! ## Attempts -/

/-- What came back from one transmission of a sealed call. -/
inductive Transmission
  | answered (v : Value)
  | envelope (v : Value)
  | unsent (detail : String)
  | uncertain (detail : String)

/-- A rendered value, or a text. -/
inductive Detail
  | value (v : Value)
  | text (s : String)

inductive Phase
  | drafted
  | prepared
  | sealed (callSha256 : Bytes)
  | uncertain (callSha256 : Bytes) (detail : Detail)
  | confirmed (callSha256 : Bytes) (receipt : Receipt)
  | charged (callSha256 : Bytes) (receipt : Receipt) (cause : Value)
  | refused (callSha256 : Bytes) (refusal : Value)
  | neverSent (callSha256 : Bytes) (detail : String)

structure Attempt where
  invocation : Wire.Fixed 32
  number : Nat
  intentNonce : String
  commandNonce : String
  phase : Phase

/-- A step that an attempt cannot take from its phase, or a text. -/
inductive Refusal
  | cannot (attempt : Attempt) (step : String)
  | text (s : String)

namespace Attempt

def first (invocation : Wire.Fixed 32) (intentNonce commandNonce : String) : Attempt :=
  ⟨invocation, 1, intentNonce, commandNonce, .drafted⟩

def prepared (a : Attempt) : Except Refusal Attempt :=
  match a.phase with
  | .drafted => .ok { a with phase := .prepared }
  | _ => .error (.cannot a "prepare")

/-- The call that this attempt may transmit or look up. -/
def call (a : Attempt) : Option Bytes :=
  match a.phase with
  | .sealed d | .uncertain d _ => some d
  | _ => none

/-- A new attempt of the invocation, where the call certainly never reached the Host. -/
def successor (a : Attempt) (intentNonce commandNonce : String) : Except Refusal Attempt := do
  match a.phase with
  | .drafted | .prepared | .neverSent _ _ => pure ()
  | .sealed _ | .uncertain _ _ => .error (.text "the retained call may be admitted: look it up (same bytes) instead of a new attempt")
  | .refused _ _ => .error (.text "the Host refused this call, and no Lean-declared no-effect class says the refusal left nothing behind: report it; a new operation is the member's own decision")
  | .confirmed _ _ => .error (.text "the invocation is confirmed; there is no successor")
  | .charged _ _ _ =>
    .error (.text "the call was admitted and charged; a new attempt is a new paid operation")
  if commandNonce = a.commandNonce ∨ intentNonce = a.intentNonce then
    .error (.text "a successor attempt needs fresh nonces")
  else if a.number + 1 < 2 ^ 32 then
    pure ⟨a.invocation, a.number + 1, intentNonce, commandNonce, .drafted⟩
  else .error (.text "attempt numbers exhausted")

variable (sha : Wire.Digest)

def «sealed» (a : Attempt) (call : Bytes) : Except Refusal Attempt :=
  match a.phase with
  | .prepared => .ok { a with phase := .sealed (sha.digest call) }
  | _ => .error (.cannot a "seal")

/-- The phase after a transmission of the retained call. -/
def recorded (phase : Phase) (d : Bytes) : Transmission → Phase
  | .answered v =>
    match outcomeOf v with
    | .confirmed receipt => .confirmed d receipt
    | .charged receipt cause => .charged d receipt cause
    | .refused refusal => .refused d refusal
    | .undecided v => .uncertain d (.value v)
  | .envelope v => .uncertain d (.value v)
  | .unsent detail =>
    match phase with
    | .uncertain _ _ => .uncertain d (.text detail)
    | _ => .neverSent d detail
  | .uncertain detail => .uncertain d (.text detail)

def record (a : Attempt) (call : Bytes) (t : Transmission) : Except Refusal Attempt :=
  match a.call with
  | none => .error (.cannot a "transmit or look up")
  | some d =>
    if sha.digest call ≠ d then
      .error (.text "these are not the attempt's retained call bytes; never transmit another call under this attempt")
    else .ok { a with phase := recorded a.phase d t }

end Attempt

/-! ## Chains of attempts -/

inductive Action
  | prepared
  | sealed (call : Bytes)
  | record (call : Bytes) (t : Transmission)
  | successor (intentNonce commandNonce : String)

/-- The newest attempt of a chain with its place, and the accepted actions so far, each with
the place of the attempt it advanced. -/
structure Chain where
  place : Nat
  attempt : Attempt
  log : List (Nat × Action)

section Chains
variable (sha : Wire.Digest)

def Attempt.act (a : Attempt) : Action → Except Refusal Attempt
  | .prepared => a.prepared
  | .sealed call => a.sealed sha call
  | .record call t => a.record sha call t
  | .successor intentNonce commandNonce => a.successor intentNonce commandNonce

/-- A refused action changes nothing. An attempt is not advanced once it has a successor. -/
def Chain.step (c : Chain) (x : Action) : Chain :=
  match c.attempt.act sha x with
  | .error _ => c
  | .ok a =>
    { place := match x with
        | .successor _ _ => c.place + 1
        | _ => c.place
      attempt := a
      log := c.log ++ [(c.place, x)] }

def Chain.run (c : Chain) (actions : List Action) : Chain := actions.foldl (Chain.step sha) c

end Chains

/-- Anything but `Unsent`. -/
def Transmission.Travelled : Transmission → Prop
  | .unsent _ => False
  | _ => True

/-- The call may have reached the Host. -/
def Phase.Reached : Phase → Prop
  | .uncertain _ _ | .confirmed _ _ | .charged _ _ _ | .refused _ _ => True
  | _ => False

/-- The digest of the call a phase retains. -/
def Phase.digest : Phase → Option Bytes
  | .drafted | .prepared => none
  | .sealed d | .uncertain d _ | .confirmed d _ | .charged d _ _ | .refused d _
  | .neverSent d _ => some d

/-- What the accepted actions of a chain say about its newest attempt. -/
structure Chain.Sound (sha : Wire.Digest) (c : Chain) : Prop where
  placed : ∀ i x, (i, x) ∈ c.log → i ≤ c.place
  sealed : ∀ b, (c.place, .sealed b) ∈ c.log → c.attempt.phase.digest = some (sha.digest b)
  retained : ∀ d, c.attempt.phase.digest = some d →
    ∃ b, (c.place, .sealed b) ∈ c.log ∧ sha.digest b = d
  named : ∀ i b t, (i, .record b t) ∈ c.log →
    (∃ b', (i, .sealed b') ∈ c.log) ∧ ∀ b', (i, .sealed b') ∈ c.log → sha.digest b' = sha.digest b
  travelled : ∀ i b t, (i, .record b t) ∈ c.log → t.Travelled →
    i = c.place ∧ c.attempt.phase.Reached

variable {sha : Wire.Digest} {a a' : Attempt} {c : Chain}

/-- An accepted record names the retained call, keeps it, and never unreaches the Host. -/
theorem Attempt.record_eq_ok {b : Bytes} {t : Transmission} (h : a.record sha b t = .ok a') :
    a.phase.digest = some (sha.digest b) ∧ a'.phase.digest = some (sha.digest b) ∧
      (a.phase.Reached ∨ t.Travelled → a'.phase.Reached) := by
  unfold record at h
  split at h
  · cases h
  next d hd =>
    split_ifs at h with hb
    cases h
    obtain rfl := not_not.1 hb
    unfold call at hd
    cases hphase : a.phase with
    | drafted | prepared | confirmed | charged | refused | neverSent =>
      rw [hphase] at hd
      cases hd
    | «sealed» d | uncertain d =>
      rw [hphase] at hd
      cases hd
      cases t with
      | unsent => simp [recorded, Phase.digest, Phase.Reached, Transmission.Travelled]
      | envelope | uncertain => simp [recorded, Phase.digest, Phase.Reached]
      | answered v =>
        cases hv : outcomeOf v with
        | confirmed | charged | refused | undecided =>
          simp [recorded, hv, Phase.digest, Phase.Reached]

/-- An attempt with a successor has not reached the Host. -/
theorem Attempt.successor_eq_ok {intent command : String}
    (h : a.successor intent command = .ok a') : ¬ a.phase.Reached ∧ a'.phase = .drafted := by
  unfold successor at h
  cases hphase : a.phase with
  | «sealed» | uncertain | refused | confirmed | charged =>
    rw [hphase] at h
    cases h
  | drafted | prepared | neverSent =>
    rw [hphase] at h
    simp only [Fallible.pure_eq_ok] at h
    split_ifs at h
    cases h
    exact ⟨id, rfl⟩

theorem Chain.Sound.step (h : c.Sound sha) (x : Action) : (c.step sha x).Sound sha := by
  unfold Chain.step
  split
  · exact h
  next a hact =>
    obtain ⟨hplaced, hsealed, hretained, hnamed, htravelled⟩ := h
    cases x with
    | prepared =>
      have hphase : c.attempt.phase = .drafted ∧ a.phase = .prepared := by
        simp only [Attempt.act, Attempt.prepared] at hact
        split at hact
        next hdrafted =>
          cases hact
          exact ⟨hdrafted, rfl⟩
        · cases hact
      constructor <;> grind [Phase.digest, Phase.Reached]
    | «sealed» b =>
      have hphase : c.attempt.phase = .prepared ∧ a.phase = .sealed (sha.digest b) := by
        simp only [Attempt.act, Attempt.sealed] at hact
        split at hact
        next hprepared =>
          cases hact
          exact ⟨hprepared, rfl⟩
        · cases hact
      constructor <;> grind [Phase.digest, Phase.Reached]
    | record b t =>
      obtain ⟨hb, hb', hreached⟩ := Attempt.record_eq_ok hact
      constructor <;> grind [Phase.digest, Phase.Reached]
    | successor intent command =>
      obtain ⟨hunsent, hdrafted⟩ := Attempt.successor_eq_ok hact
      constructor <;> grind [Phase.digest, Phase.Reached]

theorem Chain.Sound.run (h : c.Sound sha) (actions : List Action) :
    (c.run sha actions).Sound sha := by
  induction actions generalizing c with
  | nil => exact h
  | cons x actions ih => exact ih (h.step x)

theorem Chain.mem_log {actions : List Action} {y : Nat × Action}
    (h : y ∈ (c.run sha actions).log) : y ∈ c.log ∨ y.2 ∈ actions := by
  induction actions generalizing c with
  | nil => exact .inl h
  | cons x actions ih =>
    rcases ih h with h | h
    · unfold Chain.step at h
      split at h
      · exact .inl h
      · rcases mem_append.1 h with h | h
        · exact .inl h
        · rw [mem_singleton.1 h]
          exact .inr mem_cons_self
    · exact .inr (mem_cons_of_mem x h)

/-- The call bytes that actions name. -/
def calls (actions : List Action) : List Bytes :=
  actions.filterMap fun
    | .sealed b | .record b _ => some b
    | .prepared | .successor _ _ => none

/-- Along every chain of attempts, if the named calls have no two of one digest, at most one
attempt has recorded a transmission that may have travelled, and every accepted record names
the bytes its attempt was sealed with. -/
theorem one_call_travels (sha : Wire.Digest) (invocation : Fixed 32) (intent command : String)
    (actions : List Action) (hfree : ∀ b ∈ calls actions, ∀ b' ∈ calls actions,
      sha.digest b = sha.digest b' → b = b') :
    let log := (Chain.run sha ⟨0, .first invocation intent command, []⟩ actions).log
    (∀ i b t j b' t', (i, .record b t) ∈ log → t.Travelled → (j, .record b' t') ∈ log →
      t'.Travelled → i = j) ∧
    ∀ i b t, (i, .record b t) ∈ log →
      (i, .sealed b) ∈ log ∧ ∀ b', (i, .sealed b') ∈ log → b' = b := by
  intro log
  have hfirst : (Chain.mk 0 (.first invocation intent command) []).Sound sha := by
    constructor <;> simp [Attempt.first, Phase.digest]
  have hsound := hfirst.run actions
  have hcall {i : Nat} {x : Action} (h : (i, x) ∈ log) : x ∈ actions :=
    (Chain.mem_log h).resolve_left not_mem_nil
  constructor
  · intro i b t j b' t' hi ht hj ht'
    rw [(hsound.travelled i b t hi ht).1, (hsound.travelled j b' t' hj ht').1]
  · intro i b t hi
    obtain ⟨⟨b₀, hb₀⟩, hnamed⟩ := hsound.named i b t hi
    have hsame (b' : Bytes) (hb' : (i, .sealed b') ∈ log) : b' = b := by
      apply hfree b' _ b _ (hnamed b' hb')
      · exact mem_filterMap.2 ⟨_, hcall hb', rfl⟩
      · exact mem_filterMap.2 ⟨_, hcall hi, rfl⟩
    obtain rfl := hsame b₀ hb₀
    exact ⟨hb₀, hsame⟩

/-- A call that was never sent, and its successor, whose reply is lost. -/
theorem one_call_travels_successor :
    let sha : Wire.Digest := ⟨fun b => b.headD 0 :: replicate 31 0, by simp⟩
    let actions : List Action := [.prepared, .sealed [7], .record [7] (.unsent "no route"),
      .successor "3" "4", .prepared, .sealed [8], .record [8] (.uncertain "reply lost")]
    let log := (Chain.run sha ⟨0, .first ⟨replicate 32 0, by simp⟩ "1" "2", []⟩ actions).log
    (1, .sealed [8]) ∈ log ∧ ∀ i b t, (i, .record b t) ∈ log → t.Travelled → i = 1 := by
  intro sha actions log
  have hmem : (1, .record [8] (.uncertain "reply lost")) ∈ log :=
    mem_of_getElem? (rfl : log[6]? = some _)
  obtain ⟨hone, hnamed⟩ := one_call_travels sha _ _ _ actions (by decide)
  exact ⟨(hnamed _ _ _ hmem).1, fun i b t hi ht => hone _ _ _ _ _ _ hi ht hmem trivial⟩

end MiniDregg.MiniSdk
