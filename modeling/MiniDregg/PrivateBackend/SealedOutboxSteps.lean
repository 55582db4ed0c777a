import MiniDregg.PrivateBackend.SealedOutbox

/-!
# What an outbox event can change

Every event that the outbox applies extends its state: an entry keeps its draft, every
capsule that is set stays, and refinements are only added, up to their bound. The event
a call appends is read back as that event.
-/

namespace MiniDregg.PrivateBackend.SealedOutbox

open Fallible TransitionJournal List Cursor Store.OrderedMap Reader
open MiniDregg.Store (OrderedMap)
open Wire (Octets)

/-! ## Events are read back -/

namespace Event

variable {c : Bytes} {e : Event} {x y : Bytes}

theorem readDraft_eq_ok (h : readDraft c = .ok e) : 0 :: c = e.encode := by
  simp only [readDraft, bind_eq_ok, Prod.exists, pure_inj, Cursor.finish,
    refuseIf_eq_ok, Bool.not_eq_false', List.isEmpty_iff] at h
  obtain ⟨p, c₁, h₁, party, hp, n, c₂, h₂, r, c₃, h₃, k, c₄, h₄, x, c₅, h₅, m, c₆, h₆, -, rfl,
    rfl⟩ := h
  rw [bytes_eq_ok h₁, u64_eq_ok h₂, RecipientSpec.get_eq_ok h₃,
    bytes_eq_ok h₄, take_eq_ok h₅, bytes_eq_ok h₆,
    ← (CommitteeParty.decode_eq_ok hp).1]
  simp only [encode, cons_append, append_assoc, append_nil]

theorem read₂_eq_ok {make : Bytes → Bytes → Event} (h : read₂ make c = .ok e) :
    ∃ x y, e = make x y ∧ c = bytes x ++ bytes y := by
  simp only [read₂, bind_eq_ok, Prod.exists, pure_inj, Cursor.finish,
    refuseIf_eq_ok, Bool.not_eq_false', List.isEmpty_iff] at h
  obtain ⟨x, c₁, h₁, y, c₂, h₂, -, rfl, rfl⟩ := h
  refine ⟨x, y, rfl, ?_⟩
  rw [bytes_eq_ok h₁, bytes_eq_ok h₂, append_nil]

theorem read₃_eq_ok {make : Bytes → Bytes → Bytes → Event} (h : read₃ make c = .ok e) :
    ∃ x y z, e = make x y z ∧ c = bytes x ++ bytes y ++ bytes z := by
  simp only [read₃, bind_eq_ok, Prod.exists, pure_inj, Cursor.finish,
    refuseIf_eq_ok, Bool.not_eq_false', List.isEmpty_iff] at h
  obtain ⟨x, c₁, h₁, y, c₂, h₂, z, c₃, h₃, -, rfl, rfl⟩ := h
  refine ⟨x, y, z, rfl, ?_⟩
  rw [bytes_eq_ok h₁, bytes_eq_ok h₂, bytes_eq_ok h₃, append_nil,
    append_assoc]

variable {b x' y' z z' k k' m m' : Bytes}

/-- An accepted event has one spelling. -/
theorem read_eq_ok (h : read b = .ok e) : b = e.encode := by
  simp only [read, bind_eq_ok, Prod.exists, Cursor.new, pure_inj,
    refuseIf_eq_ok] at h
  obtain ⟨_, ⟨_, -, rfl⟩, tag, c, hbyte, hbody⟩ := h
  rw [byte_eq_ok hbyte]
  unfold readBody at hbody
  split_ifs at hbody with h₀ h₁ h₂ h₃ h₄
  · rw [h₀, readDraft_eq_ok hbody]
  · obtain ⟨x, y, z, rfl, rfl⟩ := read₃_eq_ok hbody
    rw [h₁, encode, cons_append, cons_append]
  · obtain ⟨x, y, rfl, rfl⟩ := read₂_eq_ok hbody
    rw [h₂, encode, cons_append]
  · obtain ⟨x, y, z, rfl, rfl⟩ := read₃_eq_ok hbody
    rw [h₃, encode, cons_append, cons_append]
  · obtain ⟨x, y, z, rfl, rfl⟩ := read₃_eq_ok hbody
    rw [h₄, encode, cons_append, cons_append]

private theorem bytes₂_inj (h : bytes x ++ bytes y = bytes x' ++ bytes y') :
    x = x' ∧ y = y' := by
  obtain ⟨rfl, h₁⟩ := bytes_delimited _ _ _ _ h
  exact ⟨rfl, bytes_delimited.injective h₁⟩

private theorem bytes₃_inj
    (h : bytes x ++ bytes y ++ bytes z = bytes x' ++ bytes y' ++ bytes z') :
    x = x' ∧ y = y' ∧ z = z' := by
  rw [append_assoc, append_assoc] at h
  obtain ⟨rfl, h₁⟩ := bytes_delimited _ _ _ _ h
  exact ⟨rfl, bytes₂_inj h₁⟩

theorem encode_draft_injective {p p' : CommitteeParty} {n n' : UInt64} {r r' : RecipientSpec}
    {x x' : Wire.Fixed 32}
    (h : (draft p n r k x m).encode = (draft p' n' r' k' x' m').encode) :
    draft p n r k x m = draft p' n' r' k' x' m' := by
  simp only [encode, cons_append, append_assoc] at h
  obtain ⟨hp, h₁⟩ := bytes_delimited _ _ _ _ (cons.inj h).2
  obtain rfl := CommitteeParty.encode_injective hp
  obtain ⟨rfl, h₂⟩ := le64_delimited _ _ _ _ h₁
  obtain ⟨rfl, h₃⟩ := RecipientSpec.put_delimited _ _ _ _ h₂
  obtain ⟨rfl, h₄⟩ := bytes_delimited _ _ _ _ h₃
  obtain ⟨rfl, h₅⟩ := fixed_delimited 32 _ _ _ _ h₄
  obtain rfl := bytes_delimited.injective h₅
  rfl

/-- Different events have different encodings. -/
theorem encode_injective {e' : Event} (h : e.encode = e'.encode) : e = e' := by
  have htag : e.encode.head? = e'.encode.head? := congrArg _ h
  cases e with
  | draft p n r k x m =>
    cases e' with
    | draft p' n' r' k' x' m' => exact encode_draft_injective h
    | inner | outer | refined | refinedOuter => simp [encode] at htag
  | outer key credential =>
    cases e' with
    | outer =>
      obtain ⟨rfl, rfl⟩ := bytes₂_inj (cons.inj h).2
      rfl
    | draft | inner | refined | refinedOuter => simp [encode] at htag
  | inner | refined | refinedOuter =>
    cases e' with
    | draft | outer => simp [encode] at htag
    | inner | refined | refinedOuter =>
      -- Each of the three has its own tag, in front of three fields.
      obtain ⟨rfl, rfl, rfl⟩ := bytes₃_inj (cons.inj h).2
      first
        | rfl
        | simp [encode] at htag

end Event

variable {s : State} {r : State × Bytes}

theorem apply_eq_ok {b : Bytes} (h : Machine.apply s b = .ok r) :
    ∃ e : Event, b = e.encode ∧ s.step e = .ok r := by
  obtain ⟨e, hread, hstep⟩ := bind_eq_ok.1 h
  exact ⟨e, Event.read_eq_ok hread, hstep⟩

/-- The event a call appends is the event that is applied. -/
theorem apply_encode {e : Event} (h : Machine.apply s e.encode = .ok r) : s.step e = .ok r := by
  obtain ⟨e', henc, hstep⟩ := apply_eq_ok h
  rw [Event.encode_injective henc]
  exact hstep

/-! ## Entries only grow -/

/-- A value that is set stays. -/
def Stays (a b : Option Bytes) : Prop := ∀ x, a = some x → b = some x

theorem Stays.refl (a : Option Bytes) : Stays a a := fun _ h => h

theorem Stays.trans {a b c : Option Bytes} (h : Stays a b) (h' : Stays b c) : Stays a c :=
  fun x hx => h' x (h x hx)

theorem Stays.of_unset {a b : Option Bytes} (h : a.isSome = false) : Stays a b := by
  intro x hx
  rw [hx] at h
  cases h

/-- A refinement keeps its capsule, and its final capsule once it has one. -/
structure RefinedVersion.Extends (v v' : RefinedVersion) : Prop where
  capsule : v'.capsule = v.capsule
  finalCapsule : Stays v.finalCapsule v'.finalCapsule

/-- The second entry is a later form of the first. -/
structure Entry.Extends (e e' : Entry) : Prop where
  party : e'.party = e.party
  sequence : e'.sequence = e.sequence
  message : e'.message = e.message
  recipient : e'.recipient = e.recipient
  publicKey : e'.publicKey = e.publicKey
  hidingNonce : e'.hidingNonce = e.hidingNonce
  commitment : e'.commitment = e.commitment
  capsule : Stays e.capsule e'.capsule
  finalCapsule : Stays e.finalCapsule e'.finalCapsule
  refinements : ∀ c v, e.refinements.get? c = some v →
    ∃ v', e'.refinements.get? c = some v' ∧ v.Extends v'

theorem RefinedVersion.Extends.refl (v : RefinedVersion) : v.Extends v := ⟨rfl, .refl _⟩

variable {v v' v'' : RefinedVersion}

theorem RefinedVersion.Extends.trans (h : v.Extends v')
    (h' : v'.Extends v'') : v.Extends v'' :=
  ⟨h'.capsule.trans h.capsule, h.finalCapsule.trans h'.finalCapsule⟩

theorem Entry.Extends.refl (e : Entry) : e.Extends e :=
  ⟨rfl, rfl, rfl, rfl, rfl, rfl, rfl, .refl _, .refl _, fun _ v h => ⟨v, h, .refl v⟩⟩

theorem Entry.Extends.trans {e e' e'' : Entry} (h : e.Extends e') (h' : e'.Extends e'') :
    e.Extends e'' where
  party := h'.party.trans h.party
  sequence := h'.sequence.trans h.sequence
  message := h'.message.trans h.message
  recipient := h'.recipient.trans h.recipient
  publicKey := h'.publicKey.trans h.publicKey
  hidingNonce := h'.hidingNonce.trans h.hidingNonce
  commitment := h'.commitment.trans h.commitment
  capsule := h.capsule.trans h'.capsule
  finalCapsule := h.finalCapsule.trans h'.finalCapsule
  refinements := by
    intro c v hv
    obtain ⟨v', hv', hext⟩ := h.refinements c v hv
    obtain ⟨v'', hv'', hext'⟩ := h'.refinements c v' hv'
    exact ⟨v'', hv'', hext.trans hext'⟩

namespace State

/-- Every entry of the first state has a later form in the second. -/
def Extends (s s' : State) : Prop :=
  ∀ k e, s.entries.get? k = some e → ∃ e', s'.entries.get? k = some e' ∧ e.Extends e'

theorem Extends.refl (s : State) : s.Extends s := fun _ e h => ⟨e, h, .refl e⟩

variable {s' : State}

theorem Extends.trans {s'' : State} (h : s.Extends s') (h' : s'.Extends s'') : s.Extends s'' := by
  intro k e he
  obtain ⟨e', he', hext⟩ := h k e he
  obtain ⟨e'', he'', hext'⟩ := h' k e' he'
  exact ⟨e'', he'', hext.trans hext'⟩

/-- No entry has more refinements than the bound. -/
def Bounded (s : State) : Prop :=
  ∀ k e, s.entries.get? k = some e → e.refinements.entries.length ≤ MAX_REFINEMENTS

/-- One entry added, or replaced by a later form within the bound. -/
def Replaces (s s' : State) : Prop :=
  ∃ k e', s' = ⟨s.entries.insert k e', s.maxEntries⟩ ∧
    (∀ e, s.entries.get? k = some e → e.Extends e') ∧
    (s.Bounded → e'.refinements.entries.length ≤ MAX_REFINEMENTS)

theorem Replaces.extends (h : s.Replaces s') : s.Extends s' := by
  obtain ⟨k, e', rfl, hext, -⟩ := h
  intro k' e he
  by_cases hk : k' = k
  · subst hk
    exact ⟨e', get?_insert_self, hext e he⟩
  · exact ⟨e, by rw [get?_insert_ne hk, he], .refl e⟩

theorem Replaces.bounded (h : s.Replaces s') (hs : s.Bounded) : s'.Bounded := by
  obtain ⟨k, e', rfl, -, hlen⟩ := h
  intro k' e he
  by_cases hk : k' = k
  · subst hk
    rw [get?_insert_self] at he
    cases he
    exact hlen hs
  · rw [get?_insert_ne hk] at he
    exact hs k' e he

theorem entry_eq_ok {k : Bytes} {x : String} {e : Entry} :
    s.entry k x = .ok e ↔ s.entries.get? k = some e := okOr_eq_ok

section Steps
variable {out key credential capsule : Bytes} {publicKey message inner outer : Bytes}

theorem stepDraft_eq_ok {party : CommitteeParty} {sequence : UInt64} {recipient : RecipientSpec}
    {hidingNonce : Wire.Fixed 32}
    (h : s.stepDraft party sequence recipient publicKey hidingNonce message = .ok (s', out)) :
    s.entries.get? (nullifier party sequence) = none ∧ ∃ commitment,
      s' = ⟨s.entries.insert (nullifier party sequence)
        (drafted party sequence recipient publicKey hidingNonce message commitment),
        s.maxEntries⟩ := by
  simp only [stepDraft, bind_eq_ok, refuseIf_eq_ok, Bool.or_eq_false_iff, pure_pair] at h
  obtain ⟨_, ⟨hfree, -⟩, _, -, draft, -, rfl, -⟩ := h
  exact ⟨OrderedMap.contains_eq_false.1 hfree, draft.commitment, rfl⟩

theorem stepInner_eq_ok (h : s.stepInner key credential capsule = .ok (s', out)) :
    out = capsule ∧ ∃ e, s.entries.get? key = some e ∧ e.capsule.isSome = false ∧
      s' = ⟨s.entries.insert key
        { e with innerCredential := some credential, capsule := some capsule },
        s.maxEntries⟩ := by
  simp only [stepInner, bind_eq_ok, entry_eq_ok, refuseIf_eq_ok, Bool.or_eq_false_iff,
    pure_pair] at h
  obtain ⟨e, he, _, -, _, ⟨⟨hunset, -⟩, -⟩, rfl, rfl⟩ := h
  exact ⟨rfl, e, he, hunset, rfl⟩

theorem stepOuter_eq_ok (h : s.stepOuter key credential = .ok (s', out)) :
    ∃ e, s.entries.get? key = some e ∧ e.finalCapsule.isSome = false ∧
      s' = ⟨s.entries.insert key { e with finalCapsule := some out }, s.maxEntries⟩ := by
  simp only [stepOuter, bind_eq_ok, entry_eq_ok, okOr_eq_ok, refuseIf_eq_ok, Bool.or_eq_false_iff,
    pure_pair] at h
  obtain ⟨e, he, _, ⟨-, hunset⟩, _, -, _, -, _, -, rfl, rfl⟩ := h
  exact ⟨e, he, hunset, rfl⟩

theorem stepRefined_eq_ok (h : s.stepRefined key credential capsule = .ok (s', out)) :
    ∃ e, s.entries.get? key = some e ∧ e.refinements.get? credential = none ∧
      e.refinements.entries.length < MAX_REFINEMENTS ∧
      s' = ⟨s.entries.insert key
        { e with refinements := e.refinements.insert credential ⟨capsule, none⟩ },
        s.maxEntries⟩ := by
  simp only [stepRefined, bind_eq_ok, entry_eq_ok, refuseIf_eq_ok,
    Bool.or_eq_false_iff, decide_eq_false_iff_not, not_le, pure_inj,
    Prod.mk.injEq, ge_iff_le] at h
  obtain ⟨e, he, _, -, _, ⟨⟨⟨-, hfree⟩, hroom⟩, -⟩, rfl, -⟩ := h
  exact ⟨e, he, OrderedMap.contains_eq_false.1 hfree, hroom, rfl⟩

theorem stepRefinedOuter_eq_ok
    (h : s.stepRefinedOuter key inner outer = .ok (s', out)) :
    ∃ e v, s.entries.get? key = some e ∧ e.refinements.get? inner = some v ∧
      v.finalCapsule.isSome = false ∧
      s' = ⟨s.entries.insert key
        { e with refinements := e.refinements.insert inner { v with finalCapsule := some out } },
        s.maxEntries⟩ := by
  simp only [stepRefinedOuter, bind_eq_ok, entry_eq_ok, okOr_eq_ok, refuseIf_eq_ok,
    Bool.or_eq_false_iff, pure_pair] at h
  obtain ⟨e, he, v, hv, _, ⟨-, hunset⟩, _, -, _, -, rfl, rfl⟩ := h
  exact ⟨e, v, he, hv, hunset, rfl⟩

/-- A refinement added to an entry, or replaced by a later form of it. -/
theorem extends_refine {e : Entry} {c : Bytes}
    (h : ∀ v, e.refinements.get? c = some v → v.Extends v') :
    e.Extends { e with refinements := e.refinements.insert c v' } := by
  refine { Entry.Extends.refl e with refinements := fun c' v hv => ?_ }
  by_cases hc : c' = c
  · subst hc
    exact ⟨v', get?_insert_self, h v hv⟩
  · exact ⟨v, (get?_insert_ne hc).trans hv, .refl v⟩

/-- What every applied event does to the state. -/
theorem step_replaces {e : Event} (h : s.step e = .ok (s', out)) : s.Replaces s' := by
  cases e with
  | draft party sequence recipient publicKey hidingNonce message =>
    obtain ⟨hfree, commitment, rfl⟩ := stepDraft_eq_ok h
    refine ⟨_, _, rfl, ?_, fun _ => Nat.zero_le _⟩
    intro e he
    cases hfree.symm.trans he
  | inner key credential capsule =>
    obtain ⟨-, e, he, hunset, rfl⟩ := stepInner_eq_ok h
    refine ⟨_, _, rfl, ?_, fun hs => hs key e he⟩
    intro e₁ he₁
    cases he.symm.trans he₁
    exact { Entry.Extends.refl e with capsule := Stays.of_unset hunset }
  | outer key credential =>
    obtain ⟨e, he, hunset, rfl⟩ := stepOuter_eq_ok h
    refine ⟨_, _, rfl, ?_, fun hs => hs key e he⟩
    intro e₁ he₁
    cases he.symm.trans he₁
    exact { Entry.Extends.refl e with finalCapsule := Stays.of_unset hunset }
  | refined key credential capsule =>
    obtain ⟨e, he, hfree, hroom, rfl⟩ := stepRefined_eq_ok h
    refine ⟨_, _, rfl, ?_, fun _ => ?_⟩
    · intro e₁ he₁
      cases he.symm.trans he₁
      apply extends_refine
      intro v hv
      cases hfree.symm.trans hv
    · exact (insert_perm hfree).length_eq.trans_le hroom
  | refinedOuter key inner outer =>
    obtain ⟨e, v, he, hv, hunset, rfl⟩ := stepRefinedOuter_eq_ok h
    refine ⟨_, _, rfl, ?_, fun hs => ?_⟩
    · intro e₁ he₁
      cases he.symm.trans he₁
      apply extends_refine
      intro v₁ hv₁
      cases hv.symm.trans hv₁
      exact ⟨rfl, Stays.of_unset hunset⟩
    · exact (length_insert_le hv).trans (hs key e he)

end Steps

end State

end MiniDregg.PrivateBackend.SealedOutbox
